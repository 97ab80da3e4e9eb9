import MonoTS.Table.Live

/-!
# Scans under concurrent flushes

A query takes its snapshot of the version when it is planned: references to the memtables and the
list of SSTs. The memtables are read later, when the layers are executed, and what is read then is
whatever the memtable holds at that moment. A flush in between takes a memtable out of the version
and then clears it, so a planned layer can turn out empty although its rows were in the table when
the snapshot was taken; the SST that holds them now is not one of the query's layers.

The system is the table together with one query; scanning and executing change nothing in the table.
The range of timestamps a query asks for only narrows what is read and is left out.
-/

open Transition List

namespace MonoTS

variable {Batch : Type*}

/-- A query under way. -/
structure Query (Batch : Type*) where
  /-- The memtable layers that have not been executed, newest first. -/
  pending : List ℕ
  /-- The SST layers, newest first. -/
  sstables : List (Sst (Write Batch))
  /-- What the executed memtable layers returned. -/
  read : List (Write Batch)
  /-- What was in the table when the snapshot was taken. -/
  expected : List (Write Batch)

/-- The query has the write among what its memtable layers returned or in one of its SST layers. -/
def Query.Sees (q : Query Batch) (w : Write Batch) : Prop :=
  w ∈ q.read ∨ ∃ s ∈ q.sstables, w ∈ s.contents

/-- Execute a memtable layer: the memtable's chunks as they are now. -/
def Query.execute (q : Query Batch) (mem : ℕ) (m : MemTable Batch) : Query Batch :=
  { q with pending := q.pending.erase mem, read := q.read ++ m.chunks }

namespace Table

/-- Everything in the version. -/
def contents (t : Table Batch) : List (Write Batch) :=
  t.live.flatMap (fun id ↦ (t.heap id).chunks) ++ t.sstables.flatMap Sst.contents

/-- Take the snapshot and decide the layers: the memtables that are not empty, newest first, and the
SSTs, newest LSN first. -/
def scan (t : Table Batch) : Query Batch where
  pending := (t.mutable :: t.immutables.reverse).filter fun id ↦ !(t.heap id).isEmpty
  sstables := (t.sstables.insertionSort Sst.keyLe).reverse
  read := []
  expected := t.contents

theorem mem_contents {t : Table Batch} {w : Write Batch} : w ∈ t.contents ↔ t.Contained w := by
  simp only [contents, mem_append, mem_flatMap, Contained]

variable {shape : BatchShape Batch} {t t' : Table Batch} {a : TableAction Batch}

/-- The flusher is about to clear the memtable. -/
def Releases (t : Table Batch) (mem : ℕ) : TableAction Batch → Prop
  | .flushRelease =>
    match t.flusher with
    | .applied m _ => m = mem
    | _ => False
  | _ => False

/-- **Memtables only grow**, until a flush releases them. -/
theorem chunks_trans (ht : Trans shape t a t') {id : ℕ} (hid : id < t.nextId)
    (hrel : ¬ t.Releases id a) {w : Write Batch} (hw : w ∈ (t.heap id).chunks) :
    w ∈ (t'.heap id).chunks := by
  have hset : ∀ mem m, (mem = id → w ∈ m.chunks) → w ∈ ((t.setMem mem m).heap id).chunks := by
    intro mem m hm
    by_cases heq : id = mem
    · subst heq
      rw [setMem_heap_self]
      exact hm rfl
    · rwa [setMem_heap_of_ne _ _ _ heq]
  have hfrz : w ∈ (t.freeze.heap id).chunks := by rwa [freeze_heap_of_lt hid]
  cases ht with
  | putRecord =>
    refine hset _ _ ?_
    rintro rfl
    rwa [MemTable.recordLsn_chunks]
  | putInsertOk _ hi | putInsertErr _ hi =>
    refine hset _ _ ?_
    rintro rfl
    exact MemTable.mem_insertForTable hi hw
  | putSwitch | putSwitchFail | bulkBegin | reclaimFreeze | flushAllFreeze => exact hfrz
  | flushRelease hpc =>
    refine hset _ _ fun heq ↦ absurd ?_ hrel
    simpa only [Releases, hpc] using heq
  | _ => exact hw

end Table

open Table

/-! ## A table and a query -/

/-- A table and a query of it. -/
structure QuerySystem (Batch : Type*) where
  table : Table Batch
  query : Option (Query Batch)

/-- A step of the table or of the query. -/
inductive QueryAction (Batch : Type*) where
  | table (action : TableAction Batch)
  | scan
  | execute (mem : ℕ)

namespace QuerySystem

variable (shape : BatchShape Batch)

def step (s : QuerySystem Batch) : QueryAction Batch → Option (QuerySystem Batch)
  | .table a => (s.table.step shape a).map fun t ↦ { s with table := t }
  | .scan =>
    -- The next query starts when the previous one has executed its layers.
    if s.query.all fun q ↦ q.pending.isEmpty then some { s with query := some s.table.scan }
    else none
  | .execute mem =>
    match s.query with
    | some q =>
      if mem ∈ q.pending then some { s with query := some (q.execute mem (s.table.heap mem)) }
      else none
    | none => none

def initial (sstables : List (Sst (Write Batch))) (nextLsn : ℕ) : QuerySystem Batch :=
  ⟨.initial sstables nextLsn, none⟩

variable (s : QuerySystem Batch)

/-- A flush clears a memtable only when no query has it as a layer it has not executed. -/
def ReleasesExecuted : QueryAction Batch → Prop
  | .table .flushRelease =>
    match s.table.flusher, s.query with
    | .applied mem _, some q => mem ∉ q.pending
    | _, _ => True
  | _ => True

instance (a : QueryAction Batch) : Decidable (s.ReleasesExecuted a) := by
  unfold ReleasesExecuted
  split
  · split <;> infer_instance
  · infer_instance

variable {shape} {s s' : QuerySystem Batch}

/-- Whatever the query is to see, it has seen or has yet to execute. -/
structure Covers (t : Table Batch) (q : Query Batch) : Prop where
  lt_nextId : ∀ id ∈ q.pending, id < t.nextId
  expected : ∀ w ∈ q.expected, q.Sees w ∨ ∃ id ∈ q.pending, w ∈ (t.heap id).chunks

variable {t : Table Batch} {q : Query Batch} {a : TableAction Batch}

theorem covers_scan (hwf : t.WellFormed) : Covers t t.scan := by
  have hlive : ∀ id, id ∈ t.mutable :: t.immutables.reverse ↔ id ∈ t.live := by
    simp [live]
  constructor
  · intro id hid
    exact hwf.lt_nextId id ((hlive id).mp (mem_filter.mp hid).1)
  · intro w hw
    rcases mem_contents.mp hw with ⟨id, hid, hmem⟩ | ⟨x, hx, hmem⟩
    · -- A memtable with a write in it is not skipped.
      refine .inr ⟨id, mem_filter.mpr ⟨(hlive id).mpr hid, ?_⟩, hmem⟩
      rw [MemTable.isEmpty, Bool.not_eq_true', isEmpty_eq_false_iff_exists_mem]
      exact ⟨w, hmem⟩
    · refine .inl (.inr ⟨x, ?_, hmem⟩)
      exact mem_reverse.mpr ((mem_insertionSort _).mpr hx)

theorem Covers.execute (h : Covers t q) (mem : ℕ) : Covers t (q.execute mem (t.heap mem)) := by
  constructor
  · exact fun id hid ↦ h.lt_nextId id (mem_of_mem_erase hid)
  · intro w hw
    rcases h.expected w hw with (hread | hsst) | ⟨id, hid, hmem⟩
    · exact .inl (.inl (mem_append_left _ hread))
    · exact .inl (.inr hsst)
    · by_cases heq : id = mem
      · subst heq
        exact .inl (.inl (mem_append_right _ hmem))
      · exact .inr ⟨id, (mem_erase_of_ne heq).mpr hid, hmem⟩

theorem Covers.trans {t' : Table Batch} (h : Covers t q)
    (hrel : ∀ id ∈ q.pending, ¬ t.Releases id a) (ht : Trans shape t a t') : Covers t' q := by
  constructor
  · exact fun id hid ↦ (h.lt_nextId id hid).trans_le (nextId_mono ht)
  · intro w hw
    refine (h.expected w hw).imp_right ?_
    rintro ⟨id, hid, hmem⟩
    exact ⟨id, hid, chunks_trans ht (h.lt_nextId id hid) (hrel id hid) hmem⟩

theorem ReleasesExecuted.not_releases (h : s.ReleasesExecuted (.table a)) (hq : s.query = some q) :
    ∀ id ∈ q.pending, ¬ s.table.Releases id a := by
  intro id hid hrel
  unfold Releases at hrel
  split at hrel
  · split at hrel
    · next hpc =>
      subst hrel
      simp only [ReleasesExecuted, hpc, hq] at h
      exact h hid
    · exact hrel
  · exact hrel

/-- **Scans see every row.** In every interleaving of queries with puts, flushes and bulk loads in
which a memtable is cleared only after every query that planned it has executed it, a query that has
executed its layers has seen every write that was in the table when it took its snapshot. -/
theorem scan_sees_snapshot {sstables : List (Sst (Write Batch))} {nextLsn : ℕ}
    (h : Reaches (guarded ReleasesExecuted (step shape)) (initial sstables nextLsn) s) :
    ∀ q, s.query = some q → q.pending = [] → ∀ w ∈ q.expected, q.Sees w := by
  suffices hinv : s.table.WellFormed ∧ ∀ q, s.query = some q → Covers s.table q by
    intro q hq hdone w hw
    refine ((hinv.2 q hq).expected w hw).resolve_right ?_
    rintro ⟨_, hid, -⟩
    rw [hdone] at hid
    cases hid
  refine h.invariant (I := fun s ↦ s.table.WellFormed ∧ ∀ q, s.query = some q → Covers s.table q)
    ⟨wellFormed_initial _ _, by rintro _ ⟨⟩⟩ ?_
  rintro s a s' ⟨hwf, hcov⟩ hstep
  obtain ⟨hok, hstep⟩ := guarded_eq_some.mp hstep
  cases a with
  | table =>
    obtain ⟨_, ht, rfl⟩ := Option.map_eq_some_iff.mp hstep
    have ht := trans_of_step shape ht
    exact ⟨hwf.trans ht, fun q hq ↦ (hcov q hq).trans (hok.not_releases hq) ht⟩
  | scan =>
    simp only [step] at hstep
    split_ifs at hstep
    cases hstep
    refine ⟨hwf, ?_⟩
    rintro _ ⟨⟩
    exact covers_scan hwf
  | execute mem =>
    simp only [step] at hstep
    split at hstep
    · next q hq =>
      split_ifs at hstep
      cases hstep
      refine ⟨hwf, ?_⟩
      rintro _ ⟨⟩
      exact (hcov q hq).execute mem
    · cases hstep

/-- Put three rows and freeze the memtable. -/
def putAndFreeze : List (QueryAction ℕ) :=
  (put 3 ++ [TableAction.flushAllFreeze]).map .table

/-- A query whose layer is executed before the flush clears the memtable. -/
theorem scan_sees_flushed_memtable :
    ∃ s q, Reaches (guarded ReleasesExecuted (step rowsShape)) (initial [] 1) s ∧
      s.query = some q ∧ q.expected = [(1, 3)] ∧ q.Sees (1, 3) := by
  have hrun : Reaches (guarded ReleasesExecuted (step rowsShape)) (initial [] 1) _ :=
    reaches_of_run (putAndFreeze ++ QueryAction.scan :: .execute 0 :: flush.map .table) rfl
  exact ⟨_, _, hrun, rfl, rfl, scan_sees_snapshot hrun _ rfl rfl (1, 3) mem_cons_self⟩

/-- A query is planned while the memtable is queued, the flush installs its SST and clears the
memtable, and the layer is executed after that: the three rows are in neither of the query's
layers. -/
theorem scan_misses_released_memtable :
    ∃ s q, Reaches (step rowsShape) (initial [] 1) s ∧
      s.query = some q ∧ q.pending = [] ∧ (1, 3) ∈ q.expected ∧ ¬ q.Sees (1, 3) := by
  have hrun : Reaches (step rowsShape) (initial [] 1) _ :=
    reaches_of_run (putAndFreeze ++ QueryAction.scan :: flush.map .table ++ [.execute 0]) rfl
  refine ⟨_, _, hrun, rfl, rfl, mem_cons_self, ?_⟩
  rintro (hread | ⟨x, hx, -⟩)
  · cases hread
  · cases hx

end QuerySystem

end MonoTS
