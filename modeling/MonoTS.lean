import MonoTS.Catalog.Budget
import MonoTS.Catalog.Degraded
import MonoTS.Catalog.Interleaving
import MonoTS.Catalog.TornTail
import MonoTS.Compaction.Preserve
import MonoTS.Compaction.ReadFailure
import MonoTS.Engine.AddColumn
import MonoTS.Engine.Allocator
import MonoTS.Engine.Directories
import MonoTS.Engine.Retention
import MonoTS.Engine.Succession
import MonoTS.Query.Filter
import MonoTS.Query.PriorityMerge
import MonoTS.Query.Scan
import MonoTS.Sql.Decimal
import MonoTS.Stream.Bootstrap
import MonoTS.Stream.CommitLog
import MonoTS.Stream.Delivery
import MonoTS.Stream.DropStream
import MonoTS.Stream.Incarnation
import MonoTS.Stream.Materialize
import MonoTS.Stream.Orchestrator
import MonoTS.Stream.ParquetDir
import MonoTS.Stream.Restart
import MonoTS.Stream.StorePaths
import MonoTS.Table.Acknowledged
import MonoTS.Table.BulkLoad
import MonoTS.Table.Charge
import MonoTS.Wal.Backlog
import MonoTS.Wal.FrameSize
import MonoTS.Wal.SecondWalk
import MonoTS.Wal.Skip
