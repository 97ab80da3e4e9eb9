import MonoTS.Common

/-!
# The events of a stream

What a capture hands to a sink: rows still in the log (`insert`), the end of a memtable
(`watermark`) and the Parquet file a memtable was flushed to (`flushFile`). The dispatcher sends
them on as `PipelineEvent`s and closes a transaction with a `CheckpointBarrier`.

The rows themselves stay in the log and in the files. A row is named here by where it is: a logged
row by its LSN, the rows of a file by the path of the file. `ownRows` is what an event owes to the
sink, and `writtenRows` is what writing it puts there. They differ for a flushed file, which also
holds the logged rows of its range.
-/

namespace MonoTS

/-- Whether the rows of an insert are in memory, or have to be loaded from the log. The batches are
left out: in both cases they are the rows of the event's range. -/
inductive InsertArrow where
  | resident
  | deferred
  deriving DecidableEq, Repr

/-- An event entering the queues of a source, `IngressEvent` in the source. -/
inductive DataEvent where
  | insert (lsn : LsnRange) (arrow : InsertArrow)
  | watermark (endLsn : ℕ)
  | flushFile (lsn : LsnRange) (filePath : String) (rows : ℕ)
  deriving DecidableEq, Repr

namespace DataEvent

def insertDeferred (lsn : LsnRange) : DataEvent := .insert lsn .deferred

def lsn : DataEvent → LsnRange
  | .insert lsn _ => lsn
  | .watermark endLsn => .single endLsn
  | .flushFile lsn _ _ => lsn

def maxLsn : DataEvent → ℕ
  | .insert lsn _ => lsn.maxLsn
  | .watermark endLsn => endLsn
  | .flushFile lsn _ _ => lsn.maxLsn

def isWatermark : DataEvent → Bool
  | .watermark _ => true
  | _ => false

end DataEvent

/-! ## Barriers -/

/-- The boundary of a transaction between the dispatcher and the sink. -/
structure CheckpointBarrier where
  table : String
  watermarkLsn : ℕ
  filesToUnlink : List String
  events : ℕ
  deriving DecidableEq, Repr

namespace CheckpointBarrier

def new (table : String) : CheckpointBarrier := ⟨table, 0, [], 0⟩

def isEmpty (b : CheckpointBarrier) : Bool := b.events == 0 && b.filesToUnlink.isEmpty

variable (b : CheckpointBarrier)

/-- The barrier takes the table of the first event if it has none. -/
def named (table : String) : CheckpointBarrier :=
  if b.table.isEmpty then { b with table := table } else b

def recordEvent (table : String) (event : DataEvent) : CheckpointBarrier :=
  let b := { b.named table with events := b.events + 1 }
  match event with
  | .watermark endLsn => { b with watermarkLsn := max b.watermarkLsn endLsn }
  | .flushFile _ filePath _ => { b with filesToUnlink := b.filesToUnlink ++ [filePath] }
  | .insert _ _ => b

def recordUnlink (table filePath : String) : CheckpointBarrier :=
  { b.named table with filesToUnlink := b.filesToUnlink ++ [filePath] }

/-- The progress of the watermarks; that of the files is up to the sink. -/
def progressLsn : Option ℕ :=
  if 0 < b.watermarkLsn then some b.watermarkLsn else none

end CheckpointBarrier

/-- What the dispatcher sends to a sink worker. -/
inductive PipelineEvent where
  | data (event : DataEvent)
  | barrier (b : CheckpointBarrier)
  | stale (table : String) (event : DataEvent)
  | degrade (table : String) (event : DataEvent)

/-! ## Rows -/

/-- A row of the log, or the rows of a flushed file. -/
inductive Row where
  | logged (lsn : ℕ)
  | filed (filePath : String)

def LsnRange.rows (r : LsnRange) : Set Row := Row.logged '' Set.Icc r.baseLsn r.maxLsn

theorem LsnRange.rows_subset {r r' : LsnRange} (hbase : r'.baseLsn ≤ r.baseLsn)
    (hmax : r.maxLsn ≤ r'.maxLsn) : r.rows ⊆ r'.rows :=
  Set.image_mono fun _ hn ↦ ⟨hbase.trans hn.1, hn.2.trans hmax⟩

namespace DataEvent

/-- The rows an event brings to the sink. -/
def ownRows : DataEvent → Set Row
  | .insert lsn _ => lsn.rows
  | .watermark _ => ∅
  | .flushFile _ filePath _ => {.filed filePath}

/-- The rows that are in a transaction once the event is written: a file also stands for the logged
rows of its range. -/
def writtenRows : DataEvent → Set Row
  | .insert lsn _ => lsn.rows
  | .watermark _ => ∅
  | .flushFile lsn filePath _ => lsn.rows ∪ {.filed filePath}

theorem ownRows_subset_writtenRows (e : DataEvent) : e.ownRows ⊆ e.writtenRows := by
  cases e with
  | insert | watermark => exact subset_rfl
  | flushFile => exact Set.subset_union_right

end DataEvent

variable (events : List DataEvent)

/-- The rows that a list of events owes to the sink. -/
def rowsOf : Set Row := {row | ∃ e ∈ events, row ∈ e.ownRows}

/-- The rows in a transaction in which these events were written. -/
def rowsWritten (txn : List DataEvent) : Set Row := {row | ∃ e ∈ txn, row ∈ e.writtenRows}

theorem rowsOf_append_singleton (e : DataEvent) :
    rowsOf (events ++ [e]) = rowsOf events ∪ e.ownRows := by
  ext row
  simp [rowsOf, or_and_right, exists_or]

theorem rowsWritten_append (txn txn' : List DataEvent) :
    rowsWritten (txn ++ txn') = rowsWritten txn ∪ rowsWritten txn' := by
  ext row
  simp [rowsWritten, or_and_right, exists_or]

theorem writtenRows_subset_of_mem {txn : List DataEvent} {e : DataEvent} (h : e ∈ txn) :
    e.writtenRows ⊆ rowsWritten txn :=
  fun _ hrow ↦ ⟨e, h, hrow⟩

theorem ownRows_subset_of_mem {events : List DataEvent} {e : DataEvent} (h : e ∈ events) :
    e.ownRows ⊆ rowsOf events :=
  fun _ hrow ↦ ⟨e, h, hrow⟩

end MonoTS
