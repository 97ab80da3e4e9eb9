import MonoTS.Table.Durable
import MonoTS.Table.Put
import MonoTS.Table.Schema

/-!
# Adding columns, and reopening the table

`add_column` changes the schema in two places at two times. Under the write lock it first appends
the column in the catalog, which persists it, then flushes the table, then gives the table the new
schema and a fresh memtable, and last has the manifest persisted. A crash in between leaves WAL
frames of the old schema behind a catalog that has the new one. Recovery rebuilds such frames
through the memtable's own checks, and those compare schemas and reserve memory: an error there is
the result of `recover_disk`, and the table stays closed at this start and at every later one.

The state is the durable table with the catalog's schema, the table's own and the place where an
`add_column` stands. `reopened_with_rows` says that every restart succeeds, and finds all
acknowledged rows, in runs in which every batch has the catalog's schema, no crash leaves a frame
from before the last `add_column` for recovery, and what recovery rebuilds at once fits in memory.
-/

open Transition List Option

namespace MonoTS

open Durable MemTable

variable {Value : Type}

/-! ## What recovery runs -/

/-- What is around a table: the catalog's type names, Arrow, and the memory controller. -/
structure ReopenConfig (Value : Type) where
  normalizeTypeName : String → Result String
  concatBatches : List ColumnDef → List (RecordBatch Value) → Result (RecordBatch Value)
  /-- The footprint of a memtable that was built from these batches. -/
  ram : List (RecordBatch Value) → ℕ
  maxSize : ℕ
  memory : MemoryController

/-- Batches of one schema have a concatenation, and it has that schema. -/
def ReopenConfig.Concatenates (config : ReopenConfig Value) : Prop :=
  ∀ columns batches, (∀ b ∈ batches, b.schema = columns) →
    ∃ batch, config.concatBatches columns batches = .ok batch ∧ batch.schema = columns

/-- How a table with this schema sees a batch. -/
def Schema.shape (schema : Schema) : BatchShape (RecordBatch Value) where
  numRows := RecordBatch.numRows
  matchesSchema batch := batch.schema = schema.columns

variable (config : ReopenConfig Value)

def coalesceBatches (schema : Schema) : List (RecordBatch Value) → Result (List (RecordBatch Value))
  | [] => .ok []
  | [batch] => .ok [batch]
  | batches => do .ok [← config.concatBatches schema.columns batches]

/-- Whether `MemTable::from_batches` builds its memtable, when all tables have charged `usedBytes`.
What it stores are the rows of the batches. -/
def fromBatches (schema : Schema) (usedBytes : ℕ)
    (batches : List (RecordBatch Value)) : Result Unit := do
  let coalesced ← coalesceBatches config schema batches
  let accounting :=
    config.memory.syncChargedToRam usedBytes (config.ram batches) 0 config.maxSize
  forM coalesced fun batch ↦ do
    let _ ← (new.insertForTable schema.shape (0, batch) accounting).2

section

variable {config : ReopenConfig Value} {schema : Schema} {usedBytes : ℕ}

variable (config) in
theorem insertForTable_fits {batch : RecordBatch Value} {ram : ℕ}
    (hsch : batch.schema = schema.columns) (hfits : usedBytes + ram ≤ config.memory.limitBytes) :
    ∃ rotate, (new.insertForTable schema.shape (0, batch)
      (config.memory.syncChargedToRam usedBytes ram 0 config.maxSize)).2 = .ok rotate := by
  have hres : config.memory.syncChargedToRam usedBytes ram 0 config.maxSize =
      .reserved (config.maxSize ≤ ram) := by
    refine if_neg fun h ↦ ?_
    have href := h.2
    rw [Nat.sub_zero, MemoryController.tryReserve, Bool.or_eq_false_iff] at href
    exact of_decide_eq_false href.2 ((min_le_left _ _).trans hfits)
  have hmatch : schema.shape.matchesSchema batch = true := decide_eq_true hsch
  rw [hres]
  by_cases hrows : batch.numRows = 0
  · have hzero : schema.shape.numRows (0, batch).2 = 0 := hrows
    exact ⟨false, by rw [insertForTable, if_pos hzero]⟩
  · have hpos : ¬ schema.shape.numRows (0, batch).2 = 0 := hrows
    refine ⟨decide (config.maxSize ≤ ram), ?_⟩
    rw [insertForTable, if_neg hpos, hmatch, if_neg Bool.noConfusion]

theorem fromBatches_eq_ok (hcat : config.Concatenates) {batches : List (RecordBatch Value)}
    (hsch : ∀ b ∈ batches, b.schema = schema.columns)
    (hfits : usedBytes + config.ram batches ≤ config.memory.limitBytes) :
    fromBatches config schema usedBytes batches = .ok () := by
  have hcoal : ∃ coalesced, coalesceBatches config schema batches = .ok coalesced ∧
      ∀ b ∈ coalesced, b.schema = schema.columns := by
    match batches, hsch with
    | [], _ => exact ⟨[], rfl, forall_mem_nil _⟩
    | [batch], hsch => exact ⟨[batch], rfl, hsch⟩
    | b₁ :: b₂ :: rest, hsch =>
      obtain ⟨batch, hbat, hcols⟩ := hcat schema.columns _ hsch
      refine ⟨[batch], ?_, forall_mem_singleton.mpr hcols⟩
      change (do .ok [← config.concatBatches schema.columns (b₁ :: b₂ :: rest)]) = _
      rw [hbat]
      rfl
  obtain ⟨coalesced, hco, hcols⟩ := hcoal
  rw [fromBatches, hco]
  change (forM coalesced _ : Result PUnit) = _
  clear hco
  induction coalesced with
  | nil => rfl
  | cons batch coalesced ih =>
    obtain ⟨_, hok⟩ := insertForTable_fits config (hcols batch mem_cons_self) hfits
    rw [forM_cons, hok]
    exact ih fun b hb ↦ hcols b (mem_cons_of_mem _ hb)

end

/-! ## The table that evolves -/

/-- Where `add_column` stands. It holds the write lock unless it is idle. -/
inductive Alter where
  | idle
  /-- The catalog has the column. -/
  | cataloged
  /-- `flush_all` has frozen the memtable and drains the queue. -/
  | draining
  | drained
  /-- The table has the new schema. -/
  | evolved
  deriving DecidableEq, Repr

/-- A durable table whose schema changes. -/
structure Evolving (Value : Type) where
  durable : Durable (RecordBatch Value)
  /-- The schema that the catalog has persisted. -/
  catalog : Schema
  /-- The schema that the table's memtables have. -/
  schema : Schema
  alter : Alter
  /-- The writes appended to the WAL since the catalog's schema last changed. -/
  sinceAdd : List (Write (RecordBatch Value))
  /-- The error that `recover_disk` returned at this start. -/
  failed : Option TsdbError

/-- A step of the table, or of `add_column`. -/
inductive EvolvingAction (Value : Type) where
  | durable (action : DurableAction (RecordBatch Value))
  /-- `catalog.add_column` under the write lock. -/
  | addColumn (newCol : ColumnDef)
  | alterFreeze
  /-- `flush_all` finds the queue empty and returns. -/
  | alterDrained
  /-- `apply_schema_evolution`. -/
  | evolve
  /-- `add_column` returns `Err` from its flush or from the schema evolution. -/
  | alterFail
  | alterPersist
  /-- Nothing was flushed, so there is nothing to persist. -/
  | alterDone
  /-- Rebuild the next frames into an SST, while all tables have charged `usedBytes`. -/
  | recoverPart (count usedBytes : ℕ)

/-- The step needs the write lock. -/
def DurableAction.locksWrites {Batch : Type*} : DurableAction Batch → Bool
  | .table (.putAppend _) | .table .reclaimFreeze | .table (.bulkBegin _) => true
  | _ => false

/-- The table gets a fresh memtable, and the queue is cleared. From here on the writes so far are
accounted for as those before a restart are. -/
def Durable.evolve {Batch : Type*} (d : Durable Batch) : Durable Batch :=
  { d with
    table :=
      { d.table with
        heap := Function.update d.table.heap d.table.nextId .new
        mutable := d.table.nextId
        immutables := []
        nextId := d.table.nextId + 1
        acked := [] }
    acked := d.acked ++ d.table.acked }

namespace Evolving

variable (config : ReopenConfig Value) (s : Evolving Value)

/-- What a step of the durable table adds to the frames of the current schema. -/
def appended : DurableAction (RecordBatch Value) → List (Write (RecordBatch Value))
  | .table (.putAppend batch) => [(s.durable.table.nextLsn, batch)]
  | _ => []

def step (s : Evolving Value) : EvolvingAction Value → Option (Evolving Value)
  | .durable .crash =>
    -- The table is opened with the schema that the catalog has.
    some
      { s with
        durable := s.durable.restart
        schema := s.catalog
        alter := .idle
        failed := none }
  | .durable (.recoverFlush _) => none
  | .durable a =>
    if s.failed.isSome ∨ (s.alter ≠ .idle ∧ a.locksWrites) then none
    else
      (s.durable.step s.schema.shape a).map fun d ↦
        { s with durable := d, sinceAdd := s.sinceAdd ++ s.appended a }
  | .addColumn newCol =>
    match s.durable.phase, s.durable.table.writer, s.alter with
    | .running, .idle, .idle =>
      match s.catalog.addColumn config.normalizeTypeName newCol with
      | .ok catalog => some { s with catalog := catalog, alter := .cataloged, sinceAdd := [] }
      | .error _ => some s
    | _, _, _ => none
  | .alterFreeze =>
    match s.durable.phase, s.alter with
    | .running, .cataloged =>
      (s.durable.step s.schema.shape (.table .flushAllFreeze)).map fun d ↦
        { s with durable := d, alter := .draining }
    | _, _ => none
  | .alterDrained =>
    match s.alter, s.durable.table.flusher, s.durable.table.immutables with
    | .draining, .idle, [] => some { s with alter := .drained }
    | _, _, _ => none
  | .evolve =>
    match s.durable.phase, s.alter with
    | .running, .drained =>
      some { s with durable := s.durable.evolve, schema := s.catalog, alter := .evolved }
    | _, _ => none
  | .alterFail =>
    match s.alter with
    | .cataloged | .draining | .drained => some { s with alter := .idle }
    | _ => none
  | .alterPersist =>
    match s.durable.phase, s.alter with
    | .running, .evolved => some { s with durable := s.durable.persist, alter := .idle }
    | _, _ => none
  | .alterDone =>
    match s.alter with
    | .evolved => some { s with alter := .idle }
    | _ => none
  | .recoverPart count usedBytes =>
    match s.failed, s.durable.phase with
    | none, .replaying (w :: todo) =>
      match fromBatches config s.schema usedBytes ((w :: todo.take count).map Prod.snd) with
      | .ok () =>
        (s.durable.step s.schema.shape (.recoverFlush count)).map fun d ↦ { s with durable := d }
      | .error e => some { s with failed := some e }
    | _, _ => none

/-- A new table. -/
def initial (schema : Schema) : Evolving Value where
  durable := .initial
  catalog := schema
  schema := schema
  alter := .idle
  sinceAdd := []
  failed := none

/-- A put brings a batch of the catalog's schema and is not deprived of its memtable by a freeze. A
crash finds no WAL file dropped that the manifest does not cover, and leaves recovery no frame from
before the last `add_column`. What recovery rebuilds at once fits in memory. -/
def ReopenSafe : EvolvingAction Value → Prop
  | .durable (.table (.putAppend batch)) => batch.schema = s.catalog.columns
  | .durable .crash => s.durable.exposed = false ∧
      ∀ w ∈ s.durable.files.flatten,
        batchNeedsRecover w.1 (maxLsnInSstMetas s.durable.manifest)
          (!s.durable.manifest.isEmpty) = true → w ∈ s.sinceAdd
  | .durable a => s.durable.CrashSafe a
  | .recoverPart count usedBytes =>
    match s.durable.phase with
    | .replaying (w :: todo) =>
      usedBytes + config.ram ((w :: todo.take count).map Prod.snd) ≤ config.memory.limitBytes
    | _ => True
  | _ => True

instance [DecidableEq Value] (s : Evolving Value) (a : EvolvingAction Value) :
    Decidable (s.ReopenSafe config a) := by
  unfold ReopenSafe
  split
  · infer_instance
  · infer_instance
  · infer_instance
  · split <;> infer_instance
  · infer_instance

end Evolving

/-! ## While writes are blocked -/

namespace Table

variable {Batch : Type*} {shape : BatchShape Batch} {t t' : Table Batch} {a : TableAction Batch}

/-- No put is under way and the mutable memtable has no rows. -/
structure Quiet (t : Table Batch) : Prop where
  writer : t.writer = .idle
  empty : (t.heap t.mutable).isEmpty = true

/-- Besides, nothing waits to be flushed and no flush is under way. -/
structure Drained (t : Table Batch) : Prop extends Quiet t where
  queue : t.immutables = []
  flusher : t.flusher = .idle

theorem quiet_freeze (h : t.writer = .idle) : t.freeze.Quiet := by
  refine ⟨t.freeze_writer.trans h, ?_⟩
  by_cases he : (t.heap t.mutable).isEmpty = true
  · rw [freeze_of_isEmpty he]
    exact he
  · rw [freeze, if_neg he]
    exact congrArg MemTable.isEmpty (Function.update_self t.nextId MemTable.new t.heap)

/-- What is left of the steps while writes are blocked: the writer stays idle, a memtable without
rows stays one, and with nothing in memory no flush begins. -/
theorem unlocked_trans (hidle : t.writer = .idle)
    (hlock : (DurableAction.table a).locksWrites = false) (ht : Trans shape t a t') :
    t'.writer = .idle ∧
      ((t.heap t.mutable).isEmpty = true → (t'.heap t'.mutable).isEmpty = true ∧
        (t.immutables = [] → t.flusher = .idle → t'.immutables = [] ∧ t'.flusher = .idle)) := by
  cases ht with
  | putAppend | reclaimFreeze | bulkBegin => cases hlock
  | putClone hw | putRecord hw | putInsertOk hw | putInsertErr hw | putSwitch hw
  | putSwitchFail hw | putReturn hw | bulkRefused hw | bulkAllocate hw | bulkPublish hw =>
    cases hidle.symm.trans hw
  | bulkReturn hw => cases hidle.symm.trans hw
  | flushAllFreeze =>
    refine ⟨t.freeze_writer.trans hidle, fun he ↦ ?_⟩
    rw [freeze_of_isEmpty he]
    exact ⟨he, fun hqu hfl ↦ ⟨hqu, hfl⟩⟩
  | allocateElsewhere => exact ⟨hidle, fun he ↦ ⟨he, fun hqu hfl ↦ ⟨hqu, hfl⟩⟩⟩
  | flushDropEmpty _ hq | flushFront _ hq =>
    exact ⟨hidle, fun he ↦ ⟨he, fun hqu _ ↦ by cases hqu.symm.trans hq⟩⟩
  | flushSpan hf | flushNothing hf | flushWrite hf | flushFail hf | flushApply hf | flushSkip hf
  | flushFinish hf =>
    exact ⟨hidle, fun he ↦ ⟨he, fun _ hfl ↦ by cases hfl.symm.trans hf⟩⟩
  | @flushRelease mem _ hf =>
    refine ⟨hidle, fun he ↦ ⟨?_, fun _ hfl ↦ by cases hfl.symm.trans hf⟩⟩
    show ((t.setMem mem (t.heap mem).releaseMemory).heap t.mutable).isEmpty = true
    by_cases hmem : t.mutable = mem
    · rw [hmem, setMem_heap_self]
      rfl
    · rw [setMem_heap_of_ne _ _ _ hmem]
      exact he

theorem Quiet.trans (h : t.Quiet) (hlock : (DurableAction.table a).locksWrites = false)
    (ht : Trans shape t a t') : t'.Quiet :=
  have ⟨hidle, hkeep⟩ := unlocked_trans h.writer hlock ht
  ⟨hidle, (hkeep h.empty).1⟩

theorem Drained.trans (h : t.Drained) (hlock : (DurableAction.table a).locksWrites = false)
    (ht : Trans shape t a t') : t'.Drained :=
  have ⟨hqu, hfl⟩ := ((unlocked_trans h.writer hlock ht).2 h.empty).2 h.queue h.flusher
  ⟨h.toQuiet.trans hlock ht, hqu, hfl⟩

end Table

open Table

/-! ## The durable table under schema evolution -/

namespace Durable

variable {Batch : Type*} {shape : BatchShape Batch} {d d' : Durable Batch} {w : Write Batch}

/-- The write was acknowledged or may still be. -/
def Kept (d : Durable Batch) (w : Write Batch) : Prop := d.table.Tracked w ∨ w ∈ d.acked

variable {a : DurableAction Batch}

theorem kept_of_step (h : d.step shape a = some d') (hw : d'.Kept w) :
    d.Kept w ∨ ∃ batch, a = .table (.putAppend batch) ∧ w = (d.table.nextLsn, batch) := by
  cases moves_of_step shape h with
  | table _ _ ht =>
    rcases hw with hw | hw
    · rcases tracked_of_trans ht hw with hw | ⟨batch, rfl, rfl⟩
      · exact .inl (.inl hw)
      · exact .inr ⟨batch, rfl, rfl⟩
    · exact .inl (.inr hw)
  | crash =>
    rcases hw with (hw | hw | ⟨_, hw⟩) | hw
    · cases hw
    · cases hw
    · cases hw
    · rcases mem_append.mp hw with hw | hw
      · exact .inl (.inr hw)
      · exact .inl (.inl (.inr (.inl hw)))
  | _ => exact .inl hw

/-- What a step does to the table while writes are blocked. -/
theorem unlocked_step (hidle : d.table.writer = .idle) (hlock : a.locksWrites = false)
    (hcr : a ≠ .crash) (h : d.step shape a = some d') :
    d'.table.writer = .idle ∧ (d.table.Quiet → d'.table.Quiet) ∧
      (d.table.Drained → d'.table.Drained) := by
  cases moves_of_step shape h with
  | table _ _ ht =>
    exact ⟨(unlocked_trans hidle hlock ht).1, fun hq ↦ hq.trans hlock ht,
      fun hd ↦ hd.trans hlock ht⟩
  | crash => exact absurd rfl hcr
  | flushPersist => exact ⟨hidle, fun hq ↦ { hq with }, fun hd ↦ ⟨{ hd with }, hd.queue, rfl⟩⟩
  | recoverFlush =>
    exact ⟨hidle, fun hq ↦ { hq with }, fun hd ↦ ⟨{ hd with }, hd.queue, hd.flusher⟩⟩
  | _ => exact ⟨hidle, id, id⟩

theorem phase_of_step {todo : List (Write Batch)} (hcr : a ≠ .crash)
    (hflu : ∀ count, a ≠ .recoverFlush count) (h : d.step shape a = some d') :
    d'.phase ≠ .replaying todo := by
  intro hph'
  cases moves_of_step shape h with
  | table hph | rotateWal hph | flushGc hph | flushPersist hph => cases hph.symm.trans hph'
  | crash => exact absurd rfl hcr
  | recoverFlush => exact absurd rfl (hflu _)
  | _ => cases hph'

/-- The schema evolution drops memtables without rows: what was settled is in SSTs. -/
theorem Running.evolve (h : d.Running shape) (hd : d.table.Drained) : d.evolve.Running shape := by
  have hwr : d.evolve.table.writer = .idle := hd.writer
  have hfl : d.evolve.table.flusher = .idle := hd.flusher
  have hquiet : ∀ w, ¬ d.evolve.table.Tracked w := by
    rintro w (hw | hw | ⟨_, hw⟩)
    · rw [unstored, hwr] at hw
      cases hw
    · cases hw
    · cases hwr.symm.trans hw
  have hcoup : d.evolve.table.Coupled := by
    refine ⟨⟨nodup_singleton _, ?_, ?_⟩, .of_idle hwr, ?_, ?_⟩
    · exact forall_mem_singleton.mpr (Nat.lt_succ_self _)
    · rw [FlusherRefs, hfl]
      trivial
    · rw [FlusherReads, hfl]
      trivial
    · refine Layers.strata_of_new rfl (Function.update_self _ _ _) ?_ h.coupled.strata.next_pos
        h.coupled.strata.sst_lt_next
      rw [layers, pendingLsn, hwr]
  refine ⟨hcoup, fun w hw ↦ absurd (.inr hw) (hquiet w), h.sub,
    fun w hw ↦ absurd hw (hquiet w), ?_, ?_⟩
  · rintro hexp w (hw | hw) hrows
    · exact absurd hw (hquiet w)
    · rcases mem_append.mp hw with hw | hw
      · exact h.durable hexp w (.inr hw) hrows
      · exact h.durable hexp w (.inl (.inr (.inl hw))) hrows
  · intro w hw hrows
    rcases mem_append.mp hw with hw | hw
    · exact h.old w hw hrows
    · rcases h.settled w (.inl hw) with ⟨_, hm, hhold⟩ | ⟨sst, hsst, hhold⟩
      · -- The one memtable there is has no rows.
        rw [Layers.mems, layers, hd.queue, map_nil, nil_append, mem_singleton] at hm
        have hmem := hhold.rows hrows
        rw [hm, List.isEmpty_iff.mp hd.empty] at hmem
        cases hmem
      · exact ⟨sst, hsst, hhold.rows hrows⟩

/-! ### The invariant looks at a batch's rows only -/

variable {shape' : BatchShape Batch}

theorem placed_of_numRows {L : Layers Batch} (h : L.Placed shape w)
    (hrows : shape'.numRows = shape.numRows) : L.Placed shape' w := by
  rcases h with ⟨m, hm, hw⟩ | ⟨s, hs, hw⟩
  · exact .inl ⟨m, hm, hw.records, hrows.symm ▸ hw.rows⟩
  · exact .inr ⟨s, hs, hw.covers, hrows.symm ▸ hw.rows⟩

theorem Inv.of_numRows (h : d.Inv shape) (hrows : shape'.numRows = shape.numRows) :
    d.Inv shape' := by
  have hrepl : ∀ todo, d.Replaying shape todo → d.Replaying shape' todo := fun _ h ↦
    ⟨h.fresh, h.next_pos, h.sst_lt, h.todo_lt, h.sub, hrows.symm ▸ h.durable, hrows.symm ▸ h.old⟩
  cases hph : d.phase with
  | running =>
    have hrun := (inv_running hph).mp h
    exact (inv_running hph).mpr ⟨hrun.coupled,
      fun w hw ↦ placed_of_numRows (hrun.settled w hw) hrows,
      hrun.sub, hrun.retained, hrows.symm ▸ hrun.durable, hrows.symm ▸ hrun.old⟩
  | replaying =>
    exact (inv_replaying hph).mpr (hrepl _ ((inv_replaying hph).mp h))
  | collected => exact (inv_collected hph).mpr (hrepl _ ((inv_collected hph).mp h))
  | ready => exact (inv_ready hph).mpr (hrepl _ ((inv_ready hph).mp h))

end Durable

/-- Recovery is done. -/
def Phase.isReady {Batch : Type*} : Phase Batch → Bool
  | .ready => true
  | _ => false

theorem Phase.eq_ready {Batch : Type*} {p : Phase Batch} (h : p.isReady = true) : p = .ready := by
  cases p with
  | ready => rfl
  | _ => cases h

namespace Evolving

variable {config : ReopenConfig Value} {s s' : Evolving Value}

/-- What an `add_column` under way has reached. -/
def Altering (s : Evolving Value) : Prop :=
  match s.alter with
  | .idle => True
  | .cataloged | .evolved => s.durable.table.writer = .idle
  | .draining => s.durable.table.Quiet
  | .drained => s.durable.table.Drained

/-- What every step keeps. -/
structure Inv (s : Evolving Value) : Prop where
  durable : s.durable.Inv s.schema.shape
  reopened : s.failed = none
  since : ∀ w ∈ s.sinceAdd, w.2.schema = s.catalog.columns
  older : ∀ w, s.durable.Kept w → s.catalog.Extends w.2.schema
  todo : ∀ todo, s.durable.phase = .replaying todo → ∀ w ∈ todo, w.2.schema = s.schema.columns
  altering : s.Altering

variable {a : DurableAction (RecordBatch Value)} {d : Durable (RecordBatch Value)}

/-- A step of the durable table that needs no write lock leaves an `add_column` where it is. -/
theorem Altering.step (h : s.Altering) (hlock : ¬ (s.alter ≠ .idle ∧ a.locksWrites = true))
    (hcr : a ≠ .crash) (hstep : s.durable.step s.schema.shape a = some d) :
    Altering { s with durable := d, sinceAdd := s.sinceAdd ++ s.appended a } := by
  have hfree : s.alter ≠ .idle → a.locksWrites = false := fun halter ↦ by
    rw [← Bool.not_eq_true]
    exact fun hlocks ↦ hlock ⟨halter, hlocks⟩
  unfold Altering at h ⊢
  dsimp only
  cases halter : s.alter with
  | idle => trivial
  | cataloged | evolved =>
    rw [halter] at h hfree
    exact (unlocked_step h (hfree Alter.noConfusion) hcr hstep).1
  | draining =>
    rw [halter] at h hfree
    exact (unlocked_step h.writer (hfree Alter.noConfusion) hcr hstep).2.1 h
  | drained =>
    rw [halter] at h hfree
    exact (unlocked_step h.writer (hfree Alter.noConfusion) hcr hstep).2.2 h

theorem Inv.crash (h : s.Inv) (hsafe : s.ReopenSafe config (.durable .crash)) :
    Inv
      { s with
        durable := s.durable.restart
        schema := s.catalog
        alter := .idle
        failed := none } where
  durable := (h.durable.restart hsafe.1).of_numRows rfl
  reopened := rfl
  since := h.since
  older := by
    intro w hw
    have hrest : s.durable.step s.schema.shape .crash = some s.durable.restart := rfl
    rcases kept_of_step hrest hw with hw | ⟨_, ⟨⟩, _⟩
    exact h.older w hw
  todo := by
    rintro _ ⟨⟩ w hw
    obtain ⟨hfile, hneed⟩ := mem_filter.mp hw
    exact h.since w (hsafe.2 w hfile hneed)
  altering := trivial

theorem ReopenSafe.crashSafe (hsafe : s.ReopenSafe config (.durable a)) :
    s.durable.CrashSafe a := by
  unfold ReopenSafe at hsafe
  split at hsafe
  · next heq =>
    cases heq
    trivial
  · next heq =>
    cases heq
    exact hsafe.1
  · next heq =>
    cases heq
    exact hsafe
  · next heq => cases heq
  · next hoth _ => exact absurd rfl (hoth a)

theorem Inv.durableStep (h : s.Inv) (hsafe : s.ReopenSafe config (.durable a)) (hcr : a ≠ .crash)
    (hflu : ∀ count, a ≠ .recoverFlush count) (hlock : ¬ (s.alter ≠ .idle ∧ a.locksWrites = true))
    (hstep : s.durable.step s.schema.shape a = some d) :
    Inv { s with durable := d, sinceAdd := s.sinceAdd ++ s.appended a } where
  durable := h.durable.step hsafe.crashSafe hstep
  reopened := h.reopened
  since := by
    refine forall_mem_append.mpr ⟨h.since, fun w hw ↦ ?_⟩
    unfold appended at hw
    split at hw
    · rw [mem_singleton.mp hw]
      exact hsafe
    · cases hw
  older := by
    intro w hw
    rcases kept_of_step hstep hw with hw | ⟨_, rfl, rfl⟩
    · exact h.older w hw
    · exact Schema.extends_self hsafe
  todo := fun todo htodo ↦ absurd htodo (phase_of_step hcr hflu hstep)
  altering := h.altering.step hlock hcr hstep

theorem Inv.addColumn {newCol : ColumnDef} {catalog : Schema} (h : s.Inv)
    (hph : s.durable.phase = .running) (hidle : s.durable.table.writer = .idle)
    (hadd : s.catalog.addColumn config.normalizeTypeName newCol = .ok catalog) :
    Inv { s with catalog := catalog, alter := .cataloged, sinceAdd := [] } where
  __ := h
  since := forall_mem_nil _
  older := fun w hw ↦ (h.older w hw).addColumn hadd
  todo := fun todo htodo ↦ by cases hph.symm.trans htodo
  altering := hidle

theorem Inv.alterFreeze (h : s.Inv) (hph : s.durable.phase = .running)
    (halter : s.alter = .cataloged)
    (hstep : s.durable.step s.schema.shape (.table .flushAllFreeze) = some d) :
    Inv { s with durable := d, alter := .draining } := by
  have hidle := h.altering
  rw [Altering, halter] at hidle
  have hlock : s.durable.CrashSafe (.table .flushAllFreeze) := by
    show s.durable.table.writer.isIdle = true
    rw [hidle]
    rfl
  refine ⟨h.durable.step hlock hstep, h.reopened, h.since, fun w hw ↦ ?_, ?_, ?_⟩
  · rcases kept_of_step hstep hw with hw | ⟨_, ⟨⟩, _⟩
    exact h.older w hw
  · exact fun todo htodo ↦ absurd htodo
      (phase_of_step (by rintro ⟨⟩) (by rintro _ ⟨⟩) hstep)
  · simp only [Durable.step, hph, TableAction.isBulk] at hstep
    obtain ⟨_, ht, rfl⟩ := map_eq_some_iff.mp hstep
    cases trans_of_step _ ht
    exact quiet_freeze hidle

theorem Inv.evolve (h : s.Inv) (hph : s.durable.phase = .running) (hd : s.durable.table.Drained) :
    Inv { s with durable := s.durable.evolve, schema := s.catalog, alter := .evolved } where
  __ := h
  durable := by
    have hrun : s.durable.evolve.Inv s.schema.shape :=
      (((inv_running hph).mp h.durable).evolve hd).inv hph
    exact hrun.of_numRows rfl
  older := by
    rintro w ((hw | hw | ⟨_, hw⟩) | hw)
    · exact h.older w (.inl (.inl hw))
    · cases hw
    · exact h.older w (.inl (.inr (.inr ⟨_, hw⟩)))
    · rcases mem_append.mp hw with hw | hw
      · exact h.older w (.inr hw)
      · exact h.older w (.inl (.inr (.inl hw)))
  todo := fun todo htodo ↦ by cases hph.symm.trans htodo
  altering := hd.writer

/-- Frames of the table's schema that fit in memory are rebuilt. -/
theorem Inv.fromBatches_eq_ok {w : Write (RecordBatch Value)}
    {todo : List (Write (RecordBatch Value))} {count usedBytes : ℕ} (h : s.Inv)
    (hcat : config.Concatenates) (hph : s.durable.phase = .replaying (w :: todo))
    (hsafe : s.ReopenSafe config (.recoverPart count usedBytes)) :
    fromBatches config s.schema usedBytes ((w :: todo.take count).map Prod.snd) = .ok () := by
  simp only [ReopenSafe, hph] at hsafe
  have hsub : ∀ x ∈ w :: todo.take count, x ∈ w :: todo := by
    rw [← take_succ_cons]
    exact fun x hx ↦ mem_of_mem_take hx
  refine MonoTS.fromBatches_eq_ok hcat (List.forall_mem_map.mpr fun x hx ↦ ?_) hsafe
  exact h.todo _ hph x (hsub x hx)

theorem Inv.recoverPart {count usedBytes : ℕ} (h : s.Inv) (hcat : config.Concatenates)
    (hsafe : s.ReopenSafe config (.recoverPart count usedBytes))
    (hstep : s.step config (.recoverPart count usedBytes) = some s') : s'.Inv := by
  simp only [step] at hstep
  split at hstep
  · next w todo _ hph =>
    simp only [h.fromBatches_eq_ok hcat hph hsafe] at hstep
    obtain ⟨_, hd, rfl⟩ := map_eq_some_iff.mp hstep
    have hcr : s.durable.CrashSafe (.recoverFlush count) := trivial
    refine ⟨h.durable.step hcr hd, h.reopened, h.since, fun x hx ↦ ?_, ?_, ?_⟩
    · rcases kept_of_step hd hx with hx | ⟨_, ⟨⟩, _⟩
      exact h.older x hx
    · intro rest hrest
      simp only [Durable.step, hph] at hd
      cases hd
      cases hrest
      exact fun x hx ↦ h.todo _ hph x (mem_cons_of_mem _ (mem_of_mem_drop hx))
    · exact h.altering.step (fun hlock ↦ Bool.noConfusion hlock.2) (by rintro ⟨⟩) hd
  · cases hstep

/-- **One step keeps the invariant** under the condition. -/
theorem Inv.step {a : EvolvingAction Value} (h : s.Inv) (hcat : config.Concatenates)
    (hsafe : s.ReopenSafe config a) (hstep : s.step config a = some s') : s'.Inv := by
  cases a with
  | durable a =>
    by_cases hcr : a = .crash
    · subst hcr
      cases hstep
      exact h.crash hsafe
    by_cases hflu : ∃ count, a = .recoverFlush count
    · obtain ⟨count, rfl⟩ := hflu
      cases hstep
    rw [step.eq_3 config s a hcr fun count heq ↦ hflu ⟨count, heq⟩] at hstep
    split_ifs at hstep with hbloc
    rw [not_or] at hbloc
    obtain ⟨d, hd, rfl⟩ := map_eq_some_iff.mp hstep
    exact h.durableStep hsafe hcr (fun count heq ↦ hflu ⟨count, heq⟩) hbloc.2 hd
  | addColumn =>
    simp only [Evolving.step] at hstep
    split at hstep
    · next hph hidle _ =>
      split at hstep
      · next hadd =>
        cases hstep
        exact h.addColumn hph hidle hadd
      · cases hstep
        exact h
    · cases hstep
  | alterFreeze =>
    simp only [Evolving.step] at hstep
    split at hstep
    · next hph halter =>
      obtain ⟨_, hd, rfl⟩ := map_eq_some_iff.mp hstep
      exact h.alterFreeze hph halter hd
    · cases hstep
  | alterDrained =>
    simp only [Evolving.step] at hstep
    split at hstep <;> cases hstep
    next halter hfl hqu =>
      have hquiet := h.altering
      rw [Altering, halter] at hquiet
      exact { h with altering := ⟨hquiet, hqu, hfl⟩ }
  | evolve =>
    simp only [Evolving.step] at hstep
    split at hstep <;> cases hstep
    next hph halter =>
      have hdrain := h.altering
      rw [Altering, halter] at hdrain
      exact h.evolve hph hdrain
  | alterPersist =>
    simp only [Evolving.step] at hstep
    split at hstep <;> cases hstep
    next hph halter =>
      have hrun := ((inv_running hph).mp h.durable).persist
      exact ⟨hrun.inv hph, h.reopened, h.since, h.older, h.todo, trivial⟩
  | alterFail | alterDone =>
    simp only [Evolving.step] at hstep
    split at hstep <;> cases hstep
    all_goals exact { h with altering := trivial }
  | recoverPart => exact h.recoverPart hcat hsafe hstep

theorem inv_initial (schema : Schema) : (initial schema : Evolving Value).Inv where
  durable := Durable.inv_initial
  reopened := rfl
  since := forall_mem_nil _
  older := by
    rintro w ((hw | hw | ⟨_, hw⟩) | hw) <;> cases hw
  todo := by rintro _ ⟨⟩
  altering := trivial

/-- **The table reopens with all its rows.** In every run in which batches have the catalog's
schema, no crash leaves recovery a frame from before the last `add_column`, and what recovery
rebuilds at once fits in memory (and no crash finds the WAL ahead of the manifest, no freeze
deprives a put of its memtable), `recover_disk` never fails: it gets on with every part, and is done
behind the last. Every acknowledged row is then in an SST, and reads under the catalog's schema with
nulls in the columns added since. -/
theorem reopened_with_rows [DecidableEq Value] (hconcat : config.Concatenates) (schema : Schema)
    (h : Reaches (guarded (ReopenSafe config) (Evolving.step config)) (initial schema) s) :
    s.failed = none ∧
      (∀ w todo count usedBytes, s.durable.phase = .replaying (w :: todo) →
        s.ReopenSafe config (.recoverPart count usedBytes) →
        ∃ s', s.step config (.recoverPart count usedBytes) = some s' ∧
          s'.durable.phase = .replaying (todo.drop count)) ∧
      (s.durable.phase = .replaying [] →
        ((s.step config (.durable .recoverGc)).bind fun s' ↦
          s'.step config (.durable .recoverPersist)).any fun s' ↦ s'.durable.phase.isReady) ∧
      (s.durable.phase = .ready → ∀ w ∈ s.durable.acked, w.2.numRows ≠ 0 →
        (∃ sst ∈ s.durable.table.sstables, w ∈ sst.contents) ∧
          ∃ added, s.catalog.columns = w.2.schema ++ added ∧
            w.2.align s.catalog = .ok (w.2.withNulls added)) := by
  have hinv : s.Inv := by
    refine h.invariant (I := Inv) (inv_initial schema) fun s a s' hs hstep ↦ ?_
    obtain ⟨hsafe, hstep⟩ := guarded_eq_some.mp hstep
    exact hs.step hconcat hsafe hstep
  refine ⟨hinv.reopened, fun w todo count usedBytes hph hsafe ↦ ?_, fun hph ↦ ?_,
    fun hph w hw hrows ↦ ⟨?_, ?_⟩⟩
  · simp only [step, hinv.reopened, hph, hinv.fromBatches_eq_ok hconcat hph hsafe, Durable.step]
    exact ⟨_, rfl, rfl⟩
  · simp [step, hinv.reopened, hph, Durable.step, DurableAction.locksWrites, Phase.isReady]
  · exact ((inv_ready hph).mp hinv.durable).all_in_index hw hrows
  · obtain ⟨added, hcols, hnull⟩ := hinv.older w (.inr hw)
    exact ⟨added, hcols, RecordBatch.align_of_extends hcols hnull⟩

/-! ### A run -/

/-- Concatenate the batches column by column. -/
def concat (columns : List ColumnDef) (batches : List (RecordBatch Value)) : RecordBatch Value where
  numRows := (batches.map RecordBatch.numRows).sum
  fields := columns.map fun c ↦ (c, ⟨batches.flatMap fun b ↦ (b.values c).toList, by simp⟩)

/-- A limit of 100 bytes, 8 bytes a row. -/
def smallMemory : ReopenConfig ℕ where
  normalizeTypeName := .ok
  concatBatches columns batches := .ok (concat columns batches)
  ram batches := 8 * (batches.map RecordBatch.numRows).sum
  maxSize := 64
  memory := ⟨100, 0⟩

theorem concatenates_smallMemory : smallMemory.Concatenates := by
  intro columns batches _
  refine ⟨concat columns batches, rfl, ?_⟩
  simp [RecordBatch.schema, concat, Function.comp_def]

def timeColumn : ColumnDef := ⟨"time", "Int64", false⟩

def extraColumn : ColumnDef := ⟨"extra", "Float64", true⟩

def timeSchema : Schema := ⟨[timeColumn], by decide⟩

/-- One row from before the column is added, and one from after. -/
def oldRow : RecordBatch ℕ := ⟨1, [(timeColumn, ⟨[some 10], rfl⟩)]⟩

def newRow : RecordBatch ℕ :=
  ⟨1, [(timeColumn, ⟨[some 20], rfl⟩), (extraColumn, ⟨[some 5], rfl⟩)]⟩

def putRow (batch : RecordBatch ℕ) : List (EvolvingAction ℕ) :=
  [.putAppend batch, .putClone, .putRecord, .putInsert (.reserved false), .putReturn].map
    fun a ↦ .durable (.table a)

/-- `add_column` to its end, with one memtable to flush. -/
def alterTable : List (EvolvingAction ℕ) :=
  [.addColumn extraColumn, .alterFreeze] ++
    [.table .flushFront, .table .flushSpan, .table .flushWrite, .table .flushApply,
      .table .flushRelease, .flushGc (fun _ ↦ false), .flushPersist].map .durable ++
    [.alterDrained, .evolve, .alterPersist]

/-- A crash behind an `add_column` and a put of the new schema: both rows are there, the older one
with a null. -/
theorem reopened_after_add_column :
    ∃ s, Reaches (guarded (ReopenSafe smallMemory) (Evolving.step smallMemory))
        (initial timeSchema) s ∧
      s.failed = none ∧ s.durable.acked = [(1, oldRow), (2, newRow)] ∧
      ∀ w ∈ s.durable.acked, (∃ sst ∈ s.durable.table.sstables, w ∈ sst.contents) ∧
        ∃ added, s.catalog.columns = w.2.schema ++ added ∧
          w.2.align s.catalog = .ok (w.2.withNulls added) := by
  refine exists_reaches_of (putRow oldRow ++ alterTable ++ putRow newRow ++
      [EvolvingAction.durable .crash, .recoverPart 0 0, .durable .recoverGc,
        .durable .recoverPersist])
    (p := fun s ↦ s.durable.acked = [(1, oldRow), (2, newRow)] ∧ s.durable.phase.isReady = true)
    (by decide +kernel) fun s hrch ⟨hack, hrdy⟩ ↦ ?_
  have h := reopened_with_rows concatenates_smallMemory timeSchema hrch
  refine ⟨h.1, hack, fun w hw ↦ h.2.2.2 (Phase.eq_ready hrdy) w hw ?_⟩
  rw [hack] at hw
  rcases mem_pair.mp hw with rfl | rfl <;> decide

/-- The process dies between `catalog.add_column` and the flush: `recover_disk` fails on the
acknowledged row. -/
theorem reopen_fails_after_add_column :
    ∃ s, Reaches (Evolving.step smallMemory) (initial timeSchema) s ∧
      s.durable.acked = [(1, oldRow)] ∧
      s.failed = some (.schema "memtable batch schema mismatch with table schema") := by
  exact exists_reaches (putRow oldRow ++
    [EvolvingAction.addColumn extraColumn, .durable .crash, .recoverPart 0 0]) (by decide +kernel)

end Evolving

end MonoTS
