import MonoTS.Lib.Transition
import MonoTS.Table.Sst

/-!
# The table as a transition system

Writers, flushes and bulk loads of one table run concurrently. Two locks order them: the write lock,
held by a put from its LSN allocation to its return, by a bulk load, and by a reclaim while it
freezes; and the flush lock, held by whoever flushes. `FLUSH TABLE` takes only the flush lock, and
freezes under it.

The state has one program counter for the holder of each lock. A step is what happens between two
points at which another party can observe or change the shared state: each access to the version,
each access to a memtable that is shared by reference, and each effect outside of memory is a step
of its own. Memtables live in a heap and the version refers to them by id, since a put and a flush
hold references to a memtable that outlast its place in the version.

The index of SSTs is a list without a particular order: nothing here depends on where in the index a
file stands. An SST holds the writes of the memtable snapshot it was written from.
-/

namespace MonoTS

variable {Batch : Type*}

/-- Where the holder of the write lock stands. -/
inductive WriterPc (Batch : Type*) where
  | idle
  /-- A put has its LSN and its WAL frame. -/
  | appended (write : Write Batch)
  /-- It holds a reference to the memtable that was mutable at that moment. -/
  | cloned (write : Write Batch) (mem : ℕ)
  | recorded (write : Write Batch) (mem : ℕ)
  /-- The insertion returned `Ok`; the flag says whether the memtable is to be switched. -/
  | inserted (write : Write Batch) (rotate : Bool)
  /-- A bulk load has frozen the memtable, waits for the queue to drain and has these files to add.
  -/
  | bulkDraining (files : List (List Batch))
  | bulkAllocated (lsn : ℕ) (rows : List Batch) (files : List (List Batch))

/-- Where the holder of the flush lock stands. -/
inductive FlusherPc (Batch : Type*) where
  | idle
  /-- A reference to the front of the queue. -/
  | front (mem : ℕ)
  /-- The memtable's span has been read. -/
  | spanned (mem baseLsn maxLsn : ℕ)
  /-- A snapshot of the memtable has been written as an SST and promoted. -/
  | written (mem : ℕ) (sst : Sst (Write Batch))
  /-- The version has the SST instead of the memtable. -/
  | applied (mem : ℕ) (sst : Sst (Write Batch))
  /-- The memtable has been released; sealed WAL files are collected next. -/
  | released (sst : Sst (Write Batch))

/-- The table, its writer and its flusher. -/
structure Table (Batch : Type*) where
  heap : ℕ → MemTable Batch
  mutable : ℕ
  /-- The flush queue, oldest first. -/
  immutables : List ℕ
  /-- The next memtable id. -/
  nextId : ℕ
  sstables : List (Sst (Write Batch))
  /-- The next LSN of the allocator, which all tables share. -/
  nextLsn : ℕ
  /-- The batch frames appended to the WAL so far. -/
  wal : List (Write Batch)
  writer : WriterPc Batch
  flusher : FlusherPc Batch
  /-- The writes whose put returned `Ok`. -/
  acked : List (Write Batch)

/-- A step of the writer or of the flusher. -/
inductive TableAction (Batch : Type*) where
  /-- Allocate an LSN and append to the WAL. -/
  | putAppend (batch : Batch)
  | putClone
  | putRecord
  | putInsert (accounting : MemTable.Accounting)
  | putSwitch
  /-- The switch happens but its marker cannot be appended to the WAL, and the put fails. -/
  | putSwitchFail
  | putReturn
  /-- `try_reclaim_memtable_memory` freezes under the write lock; it has looked at the queue before
  it takes the lock, so the queue may be of any length. -/
  | reclaimFreeze
  | bulkBegin (files : List (List Batch))
  | bulkAllocate
  | bulkPublish
  | bulkReturn
  /-- An LSN is allocated for another table, or for a put whose WAL append fails. -/
  | allocateElsewhere
  /-- `flush_all` freezes under the flush lock. -/
  | flushAllFreeze
  | flushFront
  | flushSpan
  | flushWrite
  /-- Writing the SST fails. -/
  | flushFail
  | flushApply
  | flushRelease
  | flushFinish

namespace Table

def setMem (t : Table Batch) (id : ℕ) (m : MemTable Batch) : Table Batch :=
  { t with heap := Function.update t.heap id m }

/-- Freeze the mutable memtable and install a fresh one, unless it is empty. The id is taken from
the sequence in either case. -/
def freeze (t : Table Batch) : Table Batch :=
  if (t.heap t.mutable).isEmpty then { t with nextId := t.nextId + 1 }
  else
    { t with
      heap := Function.update t.heap t.nextId MemTable.new
      mutable := t.nextId
      immutables := t.immutables ++ [t.mutable]
      nextId := t.nextId + 1 }

variable (shape : BatchShape Batch)

def step (t : Table Batch) : TableAction Batch → Option (Table Batch)
  | .putAppend batch =>
    match t.writer with
    | .idle =>
      some
        { t with
          nextLsn := t.nextLsn + 1
          wal := t.wal ++ [(t.nextLsn, batch)]
          writer := .appended (t.nextLsn, batch) }
    | _ => none
  | .putClone =>
    match t.writer with
    | .appended write => some { t with writer := .cloned write t.mutable }
    | _ => none
  | .putRecord =>
    match t.writer with
    | .cloned write mem =>
      some { t.setMem mem ((t.heap mem).recordLsn write.1) with writer := .recorded write mem }
    | _ => none
  | .putInsert accounting =>
    match t.writer with
    | .recorded write mem =>
      match (t.heap mem).insertForTable shape write accounting with
      | (m, .ok rotate) => some { t.setMem mem m with writer := .inserted write rotate }
      | (m, .error _) => some { t.setMem mem m with writer := .idle }
    | _ => none
  | .putSwitch =>
    match t.writer with
    | .inserted write true => some { t.freeze with writer := .inserted write false }
    | _ => none
  | .putSwitchFail =>
    match t.writer with
    | .inserted _ true => some { t.freeze with writer := .idle }
    | _ => none
  | .putReturn =>
    match t.writer with
    | .inserted write false => some { t with writer := .idle, acked := t.acked ++ [write] }
    | _ => none
  | .reclaimFreeze =>
    match t.writer with
    | .idle => some t.freeze
    | _ => none
  | .bulkBegin files =>
    match t.writer, t.flusher with
    | .idle, .idle => some { t.freeze with writer := .bulkDraining files }
    | _, _ => none
  | .bulkAllocate =>
    match t.writer with
    | .bulkDraining (rows :: files) =>
      if t.immutables.isEmpty then
        -- A bulk load whose LSN is not behind every SST is refused; the LSN is gone.
        if t.nextLsn ≤ maxLsnInSstMetas t.sstables then
          some { t with nextLsn := t.nextLsn + 1, writer := .idle }
        else some { t with nextLsn := t.nextLsn + 1, writer := .bulkAllocated t.nextLsn rows files }
      else none
    | _ => none
  | .bulkPublish =>
    match t.writer with
    | .bulkAllocated lsn rows files =>
      some
        { t with
          sstables := t.sstables ++ [⟨lsn, lsn, rows.map fun b ↦ (lsn, b)⟩]
          writer := .bulkDraining files }
    | _ => none
  | .bulkReturn =>
    match t.writer with
    | .bulkDraining [] => some { t with writer := .idle }
    | _ => none
  | .allocateElsewhere => some { t with nextLsn := t.nextLsn + 1 }
  | .flushAllFreeze =>
    match t.flusher with
    | .idle => some t.freeze
    | _ => none
  | .flushFront =>
    match t.flusher, t.immutables with
    | .idle, mem :: rest =>
      if (t.heap mem).isEmpty then some { t with immutables := rest }
      else some { t with flusher := .front mem }
    | _, _ => none
  | .flushSpan =>
    match t.flusher with
    | .front mem =>
      let span := (t.heap mem).lsnSpan
      some { t with flusher := .spanned mem span.1 span.2 }
    | _ => none
  | .flushWrite =>
    match t.flusher with
    | .spanned mem base max =>
      if (t.heap mem).isEmpty then some { t with flusher := .idle }
      else some { t with flusher := .written mem ⟨base, max, (t.heap mem).chunks⟩ }
    | _ => none
  | .flushFail =>
    match t.flusher with
    | .spanned _ _ _ => some { t with flusher := .idle }
    | _ => none
  | .flushApply =>
    match t.flusher with
    | .written mem sst =>
      if t.immutables.head? = some mem then
        some
          { t with
            immutables := t.immutables.tail
            sstables := t.sstables ++ [sst]
            flusher := .applied mem sst }
      else some { t with flusher := .idle }
    | _ => none
  | .flushRelease =>
    match t.flusher with
    | .applied mem sst =>
      some { t.setMem mem (t.heap mem).releaseMemory with flusher := .released sst }
    | _ => none
  | .flushFinish =>
    match t.flusher with
    | .released _ => some { t with flusher := .idle }
    | _ => none

/-- The steps, one constructor for each way a step can go, with everything it checks. -/
inductive Trans (t : Table Batch) : TableAction Batch → Table Batch → Prop where
  | putAppend (batch : Batch) (hw : t.writer = .idle) : Trans t (.putAppend batch)
      { t with
        nextLsn := t.nextLsn + 1
        wal := t.wal ++ [(t.nextLsn, batch)]
        writer := .appended (t.nextLsn, batch) }
  | putClone {write} (hw : t.writer = .appended write) :
    Trans t .putClone { t with writer := .cloned write t.mutable }
  | putRecord {write mem} (hw : t.writer = .cloned write mem) : Trans t .putRecord
      { t.setMem mem ((t.heap mem).recordLsn write.1) with writer := .recorded write mem }
  | putInsertOk {accounting write mem m rotate} (hw : t.writer = .recorded write mem)
    (hi : (t.heap mem).insertForTable shape write accounting = (m, .ok rotate)) :
    Trans t (.putInsert accounting) { t.setMem mem m with writer := .inserted write rotate }
  | putInsertErr {accounting write mem m e} (hw : t.writer = .recorded write mem)
    (hi : (t.heap mem).insertForTable shape write accounting = (m, .error e)) :
    Trans t (.putInsert accounting) { t.setMem mem m with writer := .idle }
  | putSwitch {write} (hw : t.writer = .inserted write true) :
    Trans t .putSwitch { t.freeze with writer := .inserted write false }
  | putSwitchFail {write} (hw : t.writer = .inserted write true) :
    Trans t .putSwitchFail { t.freeze with writer := .idle }
  | putReturn {write} (hw : t.writer = .inserted write false) :
    Trans t .putReturn { t with writer := .idle, acked := t.acked ++ [write] }
  | reclaimFreeze (hw : t.writer = .idle) : Trans t .reclaimFreeze t.freeze
  | bulkBegin (files : List (List Batch)) (hw : t.writer = .idle) (hf : t.flusher = .idle) :
    Trans t (.bulkBegin files) { t.freeze with writer := .bulkDraining files }
  | bulkRefused {rows files}
    (hw : t.writer = .bulkDraining (rows :: files)) (hq : t.immutables = [])
    (hl : t.nextLsn ≤ maxLsnInSstMetas t.sstables) :
    Trans t .bulkAllocate { t with nextLsn := t.nextLsn + 1, writer := .idle }
  | bulkAllocate {rows files}
    (hw : t.writer = .bulkDraining (rows :: files)) (hq : t.immutables = [])
    (hl : ¬ t.nextLsn ≤ maxLsnInSstMetas t.sstables) : Trans t .bulkAllocate
      { t with nextLsn := t.nextLsn + 1, writer := .bulkAllocated t.nextLsn rows files }
  | bulkPublish {lsn rows files} (hw : t.writer = .bulkAllocated lsn rows files) :
    Trans t .bulkPublish
      { t with
        sstables := t.sstables ++ [⟨lsn, lsn, rows.map fun b ↦ (lsn, b)⟩]
        writer := .bulkDraining files }
  | bulkReturn (hw : t.writer = .bulkDraining []) : Trans t .bulkReturn { t with writer := .idle }
  | allocateElsewhere : Trans t .allocateElsewhere { t with nextLsn := t.nextLsn + 1 }
  | flushAllFreeze (hf : t.flusher = .idle) : Trans t .flushAllFreeze t.freeze
  | flushDropEmpty {mem rest} (hf : t.flusher = .idle)
    (hq : t.immutables = mem :: rest) (he : (t.heap mem).isEmpty = true) :
    Trans t .flushFront { t with immutables := rest }
  | flushFront {mem rest} (hf : t.flusher = .idle)
    (hq : t.immutables = mem :: rest) (he : (t.heap mem).isEmpty = false) :
    Trans t .flushFront { t with flusher := .front mem }
  | flushSpan {mem} (hf : t.flusher = .front mem) : Trans t .flushSpan
      { t with flusher := .spanned mem (t.heap mem).lsnSpan.1 (t.heap mem).lsnSpan.2 }
  | flushNothing {mem base max} (hf : t.flusher = .spanned mem base max)
    (he : (t.heap mem).isEmpty = true) : Trans t .flushWrite { t with flusher := .idle }
  | flushWrite {mem base max} (hf : t.flusher = .spanned mem base max)
    (he : (t.heap mem).isEmpty = false) :
    Trans t .flushWrite { t with flusher := .written mem ⟨base, max, (t.heap mem).chunks⟩ }
  | flushFail {mem base max} (hf : t.flusher = .spanned mem base max) :
    Trans t .flushFail { t with flusher := .idle }
  | flushApply {mem sst} (hf : t.flusher = .written mem sst) (hq : t.immutables.head? = some mem) :
    Trans t .flushApply
      { t with
        immutables := t.immutables.tail
        sstables := t.sstables ++ [sst]
        flusher := .applied mem sst }
  | flushSkip {mem sst} (hf : t.flusher = .written mem sst)
    (hq : t.immutables.head? ≠ some mem) : Trans t .flushApply { t with flusher := .idle }
  | flushRelease {mem sst} (hf : t.flusher = .applied mem sst) : Trans t .flushRelease
      { t.setMem mem (t.heap mem).releaseMemory with flusher := .released sst }
  | flushFinish {sst} (hf : t.flusher = .released sst) :
    Trans t .flushFinish { t with flusher := .idle }

theorem trans_of_step {t t' : Table Batch} {a : TableAction Batch} (h : t.step shape a = some t') :
    Trans shape t a t' := by
  cases a <;> simp only [step] at h
  case putAppend b =>
    split at h
    · next hw => cases h; exact .putAppend b hw
    · cases h
  case putClone =>
    split at h
    · next hw => cases h; exact .putClone hw
    · cases h
  case putRecord =>
    split at h
    · next hw => cases h; exact .putRecord hw
    · cases h
  case putInsert accounting =>
    split at h
    · next hw =>
      split at h
      · next hi => cases h; exact .putInsertOk hw hi
      · next hi => cases h; exact .putInsertErr hw hi
    · cases h
  case putSwitch =>
    split at h
    · next hw => cases h; exact .putSwitch hw
    · cases h
  case putSwitchFail =>
    split at h
    · next hw => cases h; exact .putSwitchFail hw
    · cases h
  case putReturn =>
    split at h
    · next hw => cases h; exact .putReturn hw
    · cases h
  case reclaimFreeze =>
    split at h
    · next hw => cases h; exact .reclaimFreeze hw
    · cases h
  case bulkBegin files =>
    split at h
    · next hw hf => cases h; exact .bulkBegin files hw hf
    · cases h
  case bulkAllocate =>
    split at h
    · next hw =>
      split_ifs at h with hq hl
      · cases h; exact .bulkRefused hw (List.isEmpty_iff.mp hq) hl
      · cases h; exact .bulkAllocate hw (List.isEmpty_iff.mp hq) hl
    · cases h
  case bulkPublish =>
    split at h
    · next hw => cases h; exact .bulkPublish hw
    · cases h
  case bulkReturn =>
    split at h
    · next hw => cases h; exact .bulkReturn hw
    · cases h
  case allocateElsewhere => cases h; exact .allocateElsewhere
  case flushAllFreeze =>
    split at h
    · next hf => cases h; exact .flushAllFreeze hf
    · cases h
  case flushFront =>
    split at h
    · next hf hq =>
      split_ifs at h with he
      · cases h; exact .flushDropEmpty hf hq he
      · cases h; exact .flushFront hf hq (Bool.not_eq_true _ ▸ he)
    · cases h
  case flushSpan =>
    split at h
    · next hf => cases h; exact .flushSpan hf
    · cases h
  case flushWrite =>
    split at h
    · next hf =>
      split_ifs at h with he
      · cases h; exact .flushNothing hf he
      · cases h; exact .flushWrite hf (Bool.not_eq_true _ ▸ he)
    · cases h
  case flushFail =>
    split at h
    · next hf => cases h; exact .flushFail hf
    · cases h
  case flushApply =>
    split at h
    · next hf =>
      split_ifs at h with hq
      · cases h; exact .flushApply hf hq
      · cases h; exact .flushSkip hf hq
    · cases h
  case flushRelease =>
    split at h
    · next hf => cases h; exact .flushRelease hf
    · cases h
  case flushFinish =>
    split at h
    · next hf => cases h; exact .flushFinish hf
    · cases h

/-- A freshly opened table with the given SSTs and allocator. -/
def initial (sstables : List (Sst (Write Batch))) (nextLsn : ℕ) : Table Batch where
  heap _ := MemTable.new
  mutable := 0
  immutables := []
  nextId := 1
  sstables := sstables
  nextLsn := nextLsn
  wal := []
  writer := .idle
  flusher := .idle
  acked := []

/-! ## Sample runs -/

/-- A batch is its number of rows, and fits every table. -/
def rowsShape : BatchShape ℕ := ⟨id, fun _ ↦ true⟩

/-- Put one batch. -/
def put (batch : ℕ) : List (TableAction ℕ) :=
  [.putAppend batch, .putClone, .putRecord, .putInsert (.reserved false), .putReturn]

/-- Flush the front of the queue. -/
def flush : List (TableAction ℕ) :=
  [.flushFront, .flushSpan, .flushWrite, .flushApply, .flushRelease, .flushFinish]

end Table

end MonoTS
