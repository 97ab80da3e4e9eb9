import MonoTS.Table.Layers
import MonoTS.Table.Live

/-!
# The table keeps its strata

`Table.layers` forgets locks, references and program counters. As long as freezes hold the write
lock and a bulk load finds nothing recorded but unfrozen, every step of the table is a step of the
layers or none (`sim`), so the order of the layers carries over to the table.

Two steps can break this. `FLUSH TABLE` freezes without the write lock and can take a memtable away
from under a put. And a bulk load freezes only a memtable with rows: a put of an empty batch leaves
a recorded LSN behind, which the bulk load's own LSN overtakes.
-/

open Transition List

namespace MonoTS

open Layers MemTable

variable {Batch : Type*}

/-- Nobody holds the write lock. -/
def WriterPc.isIdle : WriterPc Batch → Bool
  | .idle => true
  | _ => false

variable {pc : WriterPc Batch}

theorem WriterPc.eq_idle (h : pc.isIdle = true) : pc = .idle := by
  cases pc with
  | idle => rfl
  | _ => cases h

namespace Table

variable {shape : BatchShape Batch} (t : Table Batch)

/-- The LSN that the holder of the write lock has and has not recorded. -/
def pendingLsn : Option ℕ :=
  match t.writer with
  | .appended write | .cloned write _ => some write.1
  | .bulkAllocated lsn _ _ => some lsn
  | _ => none

/-- The table without locks, references and program counters. -/
def layers : Layers Batch where
  sstables := t.sstables
  queue := t.immutables.map t.heap
  current := t.heap t.mutable
  pending := t.pendingLsn
  nextLsn := t.nextLsn

/-! ## Conditions on steps -/

/-- A freeze happens while the write lock is held: `flush_all` freezes only when no put is between
its LSN allocation and its return. -/
def FreezesLocked : TableAction Batch → Prop
  | .flushAllFreeze => t.writer.isIdle = true
  | _ => True

/-- A bulk load starts when the mutable memtable has rows, or has no LSN recorded. -/
def BulkSealed : TableAction Batch → Prop
  | .bulkBegin _ => (t.heap t.mutable).isEmpty = false ∨ (t.heap t.mutable).baseLsn = 0
  | _ => True

/-- A put's batch has the table's schema, or no rows. -/
def SchemaMatches (shape : BatchShape Batch) (t : Table Batch) : TableAction Batch → Prop
  | .putInsert _ =>
    match t.writer with
    | .recorded write _ => shape.matchesSchema write.2 = true ∨ shape.numRows write.2 = 0
    | _ => True
  | _ => True

/-! ## References -/

/-- The references of the writer: a put works on the mutable memtable, and a bulk load finds nothing
recorded in memory. -/
def WriterRefs : Prop :=
  match t.writer with
  | .cloned _ mem => mem = t.mutable
  | .recorded write mem => mem = t.mutable ∧ (t.heap mem).Records write.1
  | .bulkDraining _ => (t.heap t.mutable).baseLsn = 0
  | .bulkAllocated _ _ _ => (t.heap t.mutable).baseLsn = 0 ∧ t.immutables = []
  | .idle | .appended _ | .inserted _ _ => True

/-- What the flusher has read of a memtable is still what the memtable has. -/
def FlusherReads : Prop :=
  match t.flusher with
  | .spanned mem base max => (base, max) = (t.heap mem).lsnSpan
  | .written mem sst => sst = (t.heap mem).toSst
  | .idle | .front _ | .applied _ _ | .released _ => True

/-- The table is well-formed and its layers in order. -/
structure Coupled (t : Table Batch) : Prop where
  wf : t.WellFormed
  writer : t.WriterRefs
  flusher : t.FlusherReads
  strata : t.layers.Strata

variable {t t' : Table Batch} {a : TableAction Batch}

theorem WellFormed.ne_mutable (h : t.WellFormed) {id : ℕ} (hid : id ∈ t.immutables) :
    id ≠ t.mutable := by
  rintro rfl
  exact (nodup_cons.mp h.nodup).1 hid

/-! ## Layers of the updated table -/

theorem layers_congr (hqu : t'.immutables.map t'.heap = t.immutables.map t.heap)
    (hcur : t'.heap t'.mutable = t.heap t.mutable) (hssts : t'.sstables = t.sstables)
    (hpend : t'.pendingLsn = t.pendingLsn) (hnext : t'.nextLsn = t.nextLsn) :
    t'.layers = t.layers := by
  simp only [layers, hqu, hcur, hssts, hpend, hnext]

theorem WellFormed.layers_setMutable (h : t.WellFormed) (m : MemTable Batch) :
    (t.setMem t.mutable m).layers = { t.layers with current := m } := by
  have hqu : t.immutables.map (t.setMem t.mutable m).heap = t.immutables.map t.heap :=
    map_congr_left fun _ hid ↦ setMem_heap_of_ne _ _ _ (h.ne_mutable hid)
  have hcur : (t.setMem t.mutable m).heap t.mutable = m := setMem_heap_self _ _ _
  exact congrArg₂ (fun q c ↦ (⟨t.sstables, q, c, t.pendingLsn, t.nextLsn⟩ : Layers Batch)) hqu hcur

variable {mem : ℕ}

theorem layers_setMem_of_not_live (h : mem ∉ t.live) (m : MemTable Batch) :
    (t.setMem mem m).layers = t.layers := by
  have hheap : ∀ id ∈ t.live, (t.setMem mem m).heap id = t.heap id :=
    fun id hid ↦ setMem_heap_of_ne _ _ _ fun heq ↦ h (heq ▸ hid)
  exact layers_congr (map_congr_left fun id hid ↦ hheap id (mem_cons_of_mem _ hid))
    (hheap _ mem_cons_self) rfl rfl rfl

/-- A freeze of the table is one of the layers, or nothing happens. -/
theorem WellFormed.layers_freeze (h : t.WellFormed) :
    t.freeze.layers = t.layers ∨ Step t.layers t.freeze.layers := by
  cases he : (t.heap t.mutable).isEmpty with
  | true => exact .inl (by rw [freeze_of_isEmpty he]; rfl)
  | false =>
    have hheap : ∀ id ∈ t.immutables ++ [t.mutable],
        Function.update t.heap t.nextId .new id = t.heap id := by
      intro id hid
      have hlt := h.lt_nextId id ((perm_append_singleton _ _).mem_iff.mp hid)
      exact Function.update_of_ne hlt.ne _ _
    have hqu : (t.immutables ++ [t.mutable]).map (Function.update t.heap t.nextId .new) =
        t.immutables.map t.heap ++ [t.heap t.mutable] :=
      (map_congr_left hheap).trans map_append
    have hlay : t.freeze.layers =
        { t.layers with queue := t.layers.queue ++ [t.layers.current], current := .new } := by
      rw [freeze_of_rows he]
      simp only [layers, hqu, Function.update_self, pendingLsn]
    rw [hlay]
    exact .inr (.freeze he)

/-! ## Simulation -/

section

variable {pc : WriterPc Batch}

/-- Moving the writer on changes no layer, unless an LSN becomes or ceases to be pending. -/
theorem layers_writer (h : ({ t with writer := pc } : Table Batch).pendingLsn = t.pendingLsn) :
    ({ t with writer := pc } : Table Batch).layers = t.layers :=
  layers_congr rfl rfl rfl h rfl

theorem WellFormed.layers_freeze_writer (h : t.WellFormed)
    (hp : ({ t with writer := pc } : Table Batch).pendingLsn = t.pendingLsn) :
    ({ t.freeze with writer := pc } : Table Batch).layers = t.layers ∨
      Step t.layers ({ t.freeze with writer := pc } : Table Batch).layers := by
  have hlay : ({ t.freeze with writer := pc } : Table Batch).layers = t.freeze.layers := by
    refine layers_writer ?_
    rw [show t.freeze.pendingLsn = t.pendingLsn by simp only [pendingLsn, freeze_writer], ← hp]
    rfl
  rw [hlay]
  exact h.layers_freeze

end

variable {accounting : Accounting} {write : Write Batch} {m : MemTable Batch}
  {r : Result Bool}

theorem Coupled.sim_insert (h : t.Coupled) (hpc : t.writer = .recorded write mem)
    (hi : (t.heap mem).insertForTable shape write accounting = (m, r))
    (hp : ({ t with writer := pc } : Table Batch).pendingLsn = none) :
    Step t.layers ({ t.setMem mem m with writer := pc } : Table Batch).layers := by
  have hw := h.writer
  rw [WriterRefs, hpc] at hw
  obtain ⟨rfl, hrec⟩ := hw
  have hnone : t.pendingLsn = none := by simp only [pendingLsn, hpc]
  have hlay : ({ t.setMem t.mutable m with writer := pc } : Table Batch).layers =
      { t.layers with current := m } := by
    rw [← h.wf.layers_setMutable m]
    exact layers_congr rfl rfl rfl (hp.trans hnone.symm) rfl
  obtain ⟨hbase, hmax⟩ := insertForTable_span hi
  rw [hlay]
  exact .store hrec.pos hbase hmax fun w hw ↦ mem_insertForTable hi hw

/-- **Every step of the table is a step of its layers, or none.** -/
theorem Coupled.sim (h : t.Coupled) (ht : Trans shape t a t') :
    t'.layers = t.layers ∨ Step t.layers t'.layers := by
  have hw := h.writer
  unfold WriterRefs at hw
  cases ht with
  | putAppend | bulkAllocate => exact .inr .allocate
  | allocateElsewhere => exact .inr .skip
  | putClone hpc | bulkReturn hpc => exact .inl (layers_writer (by simp only [pendingLsn, hpc]))
  | putRecord hpc =>
    rw [hpc] at hw
    obtain rfl : _ = t.mutable := hw
    rw [show ∀ m pc, ({ t.setMem t.mutable m with writer := .recorded pc t.mutable } :
        Table Batch).layers = { (t.setMem t.mutable m).layers with pending := none } from
      fun _ _ ↦ rfl, h.wf.layers_setMutable]
    exact .inr (.record (by simp only [layers, pendingLsn, hpc]))
  | putInsertOk hpc hi | putInsertErr hpc hi => exact .inr (h.sim_insert hpc hi rfl)
  | putSwitch hpc | putSwitchFail hpc =>
    exact h.wf.layers_freeze_writer (by simp only [pendingLsn, hpc])
  | putReturn hpc => exact .inl (layers_congr rfl rfl rfl (by simp only [pendingLsn, hpc]) rfl)
  | reclaimFreeze | flushAllFreeze => exact h.wf.layers_freeze
  | bulkBegin _ hpc => exact h.wf.layers_freeze_writer (by simp only [pendingLsn, hpc])
  | bulkRefused hpc =>
    have hnone : t.pendingLsn = none := by simp only [pendingLsn, hpc]
    refine .inr ?_
    rw [show ({ t with nextLsn := t.nextLsn + 1, writer := .idle } : Table Batch).layers =
      { t.layers with nextLsn := t.nextLsn + 1 } from by simp only [layers, hnone]; rfl]
    exact .skip
  | bulkPublish hpc =>
    rw [hpc] at hw
    refine .inr (.publish _ ?_ ?_ hw.1)
    · simp only [layers, pendingLsn, hpc]
    · simp only [layers, hw.2, map_nil]
  | flushDropEmpty _ hq he =>
    -- Only memtables with rows are queued.
    have hfull := h.strata.frozen _ (mem_map_of_mem (hq ▸ mem_cons_self))
    rw [he] at hfull
    cases hfull
  | flushApply hpc hhead =>
    obtain ⟨_, hq⟩ := head?_eq_some_iff.mp hhead
    have hread := h.flusher
    rw [FlusherReads, hpc] at hread
    refine .inr ?_
    simp only [layers, hq, tail_cons, hread]
    exact .flush (by rw [map_cons])
  | flushRelease hpc =>
    have hrefs := h.wf.flusher
    rw [FlusherRefs, hpc] at hrefs
    exact .inl (layers_setMem_of_not_live hrefs.1 _)
  | _ => exact .inl rfl

/-! ## References are kept -/

theorem WriterRefs.of_writer_eq (h : t.WriterRefs) (hpc : t'.writer = t.writer)
    (hmut : t'.mutable = t.mutable) (hheap : t'.heap t.mutable = t.heap t.mutable)
    (himm : t.immutables = [] → t'.immutables = []) : t'.WriterRefs := by
  unfold WriterRefs at h ⊢
  rw [hpc, hmut]
  cases hw : t.writer with
  | idle | appended _ | inserted _ _ => trivial
  | cloned =>
    rw [hw] at h
    exact h
  | recorded =>
    rw [hw] at h
    obtain ⟨rfl, hrec⟩ := h
    exact ⟨rfl, hheap ▸ hrec⟩
  | bulkDraining =>
    rw [hw] at h
    exact hheap ▸ h
  | bulkAllocated =>
    rw [hw] at h
    exact ⟨hheap ▸ h.1, himm h.2⟩

theorem WriterRefs.of_idle (h : t.writer = .idle) : t.WriterRefs := by
  rw [WriterRefs, h]
  trivial

theorem FlusherReads.of_flusher_eq (h : t.FlusherReads) (hwf : t.WellFormed)
    (hpc : t'.flusher = t.flusher) (hheap : ∀ id ∈ t.immutables, t'.heap id = t.heap id) :
    t'.FlusherReads := by
  have hrefs := hwf.flusher
  unfold FlusherReads at h ⊢
  unfold FlusherRefs at hrefs
  rw [hpc]
  cases hf : t.flusher with
  | idle | front _ | applied _ _ | released _ => trivial
  | spanned mem base max =>
    rw [hf] at h hrefs
    show (base, max) = (t'.heap mem).lsnSpan
    rw [hheap mem (mem_of_mem_head? hrefs)]
    exact h
  | written mem sst =>
    rw [hf] at h hrefs
    show sst = (t'.heap mem).toSst
    rw [hheap mem (mem_of_mem_head? hrefs)]
    exact h

theorem Coupled.writer_trans (h : t.Coupled) (hlock : t.FreezesLocked a)
    (hseal : t.BulkSealed a)
    (ht : Trans shape t a t') : t'.WriterRefs := by
  have hw := h.writer
  cases ht with
  | putClone => exact rfl
  | @putRecord write mem hpc =>
    rw [WriterRefs, hpc] at hw
    obtain rfl : _ = t.mutable := hw
    have hfresh := h.strata.pending write.1 (by simp only [layers, pendingLsn, hpc])
    refine ⟨rfl, ?_⟩
    rw [setMem_heap_self]
    exact records_recordLsn (h.strata.memOk _ current_mem).span (hfresh.mem_lt _ current_mem)
  | reclaimFreeze hpc => exact .of_idle (t.freeze_writer.trans hpc)
  | flushAllFreeze => exact .of_idle (t.freeze_writer.trans (WriterPc.eq_idle hlock))
  | bulkBegin =>
    show (t.freeze.heap t.freeze.mutable).baseLsn = 0
    cases he : (t.heap t.mutable).isEmpty with
    | true =>
      rw [freeze_of_isEmpty he]
      rcases hseal with hrows | hzero
      · rw [he] at hrows
        cases hrows
      · exact hzero
    | false =>
      rw [freeze_of_rows he]
      show (Function.update t.heap t.nextId .new t.nextId).baseLsn = 0
      rw [Function.update_self]
      rfl
  | bulkAllocate hpc hq =>
    rw [WriterRefs, hpc] at hw
    exact ⟨hw, hq⟩
  | bulkPublish hpc =>
    rw [WriterRefs, hpc] at hw
    exact hw.1
  | allocateElsewhere | flushFront | flushSpan | flushNothing | flushWrite | flushFail =>
    exact hw.of_writer_eq rfl rfl rfl id
  | flushSkip | flushFinish => exact hw.of_writer_eq rfl rfl rfl id
  | flushDropEmpty _ hq =>
    refine hw.of_writer_eq rfl rfl rfl fun hnil ↦ ?_
    rw [hq] at hnil
    cases hnil
  | flushApply => exact hw.of_writer_eq rfl rfl rfl fun hnil ↦ by rw [hnil]; rfl
  | flushRelease hpc =>
    have hrefs := h.wf.flusher
    rw [FlusherRefs, hpc] at hrefs
    refine hw.of_writer_eq rfl rfl (setMem_heap_of_ne _ _ _ ?_) id
    rintro rfl
    exact hrefs.1 mem_cons_self
  | _ => trivial

theorem Coupled.flusher_trans (h : t.Coupled) (ht : Trans shape t a t') : t'.FlusherReads := by
  have hw := h.writer
  have hf := h.flusher
  unfold WriterRefs at hw
  have hkeep : ∀ m, ∀ id ∈ t.immutables, (t.setMem t.mutable m).heap id = t.heap id :=
    fun m id hid ↦ setMem_heap_of_ne _ _ _ (h.wf.ne_mutable hid)
  have hfrz : t.freeze.FlusherReads :=
    hf.of_flusher_eq h.wf t.freeze_flusher fun id hid ↦
      freeze_heap_of_lt (h.wf.lt_nextId id (mem_cons_of_mem _ hid))
  cases ht with
  | putRecord hpc =>
    rw [hpc] at hw
    obtain rfl : _ = t.mutable := hw
    exact hf.of_flusher_eq h.wf rfl (hkeep _)
  | putInsertOk hpc | putInsertErr hpc =>
    rw [hpc] at hw
    obtain ⟨rfl, -⟩ := hw
    exact hf.of_flusher_eq h.wf rfl (hkeep _)
  | putSwitch | putSwitchFail | bulkBegin | reclaimFreeze | flushAllFreeze => exact hfrz
  | flushSpan => exact rfl
  | flushWrite hpc =>
    rw [FlusherReads, hpc] at hf
    show Sst.mk _ _ _ = toSst _
    rw [toSst, ← hf]
  | flushFront | flushNothing | flushFail | flushApply | flushSkip | flushRelease | flushFinish =>
    trivial
  | _ => exact hf

/-- **One step keeps the table coupled to its layers**, and the layers in order. -/
theorem Coupled.trans (h : t.Coupled) (hlock : t.FreezesLocked a) (hseal : t.BulkSealed a)
    (ht : Trans shape t a t') : t'.Coupled where
  wf := h.wf.trans ht
  writer := h.writer_trans hlock hseal ht
  flusher := h.flusher_trans ht
  strata := by
    rcases h.sim ht with heq | hstep
    · rw [heq]
      exact h.strata
    · exact h.strata.step hstep

theorem coupled_initial {sstables : List (Sst (Write Batch))} {nextLsn : ℕ} (hpos : 0 < nextLsn)
    (hssts : ∀ s ∈ sstables, s.maxLsn < nextLsn) : (initial sstables nextLsn).Coupled where
  wf := wellFormed_initial _ _
  writer := trivial
  flusher := trivial
  strata := strata_of_new rfl rfl rfl hpos hssts

/-! ## Every WAL frame is accounted for -/

/-- The write whose frame is in the WAL and whose rows are not yet in the memtable. -/
def unstored (t : Table Batch) : Option (Write Batch) :=
  match t.writer with
  | .appended write | .cloned write _ | .recorded write _ => some write
  | _ => none

/-- Every frame of the WAL is in a layer, but for the one of the put that is about to store it. -/
def Accounted (shape : BatchShape Batch) (t : Table Batch) : Prop :=
  ∀ w ∈ t.wal, t.unstored = some w ∨ t.layers.Placed shape w

theorem Coupled.placed_trans (h : t.Coupled) (ht : Trans shape t a t') {w : Write Batch}
    (hw : t.layers.Placed shape w) : t'.layers.Placed shape w := by
  rcases h.sim ht with heq | hstep
  · rwa [heq]
  · exact hw.step h.strata hstep

/-- An insertion into the mutable memtable accounts for its write, if the rows were stored. -/
theorem Coupled.placed_insert (h : t.Coupled) (hpc : t.writer = .recorded write mem)
    (hi : (t.heap mem).insertForTable shape write accounting = (m, r))
    (hst : shape.numRows write.2 ≠ 0 → write ∈ m.chunks) :
    ({ t.setMem mem m with writer := pc } : Table Batch).layers.Placed shape write := by
  have hw := h.writer
  rw [WriterRefs, hpc] at hw
  obtain ⟨rfl, hrec⟩ := hw
  obtain ⟨hbase, hmax⟩ := insertForTable_span hi
  refine .inl ⟨_, current_mem, ?_⟩
  show ((t.setMem t.mutable m).heap t.mutable).Holds shape write
  rw [setMem_heap_self]
  exact ⟨⟨hbase ▸ hrec.pos, hbase ▸ hrec.base_le, hmax ▸ hrec.le_max⟩, hst⟩

theorem SchemaMatches.stored {m' : MemTable Batch}
    (h : t.SchemaMatches shape (.putInsert accounting)) (hpc : t.writer = .recorded write mem)
    (hi : m.insertForTable shape write accounting = (m', r)) :
    shape.numRows write.2 ≠ 0 → write ∈ m'.chunks := by
  intro hrows
  simp only [SchemaMatches, hpc] at h
  rcases h with hsch | hzero
  · exact mem_of_insertForTable hrows hsch hi
  · exact absurd hzero hrows

theorem Accounted.trans (h : t.Accounted shape) (hc : t.Coupled) (hsch : t.SchemaMatches shape a)
    (ht : Trans shape t a t') : t'.Accounted shape := by
  intro w hw
  have hkeep : t.layers.Placed shape w → t'.layers.Placed shape w := hc.placed_trans ht
  -- Unless the step stores the write at hand, the same alternative holds afterwards.
  have hsame (hwal : w ∈ t.wal) (hu : t'.unstored = t.unstored) :
      t'.unstored = some w ∨ t'.layers.Placed shape w := by
    rw [hu]
    exact (h w hwal).imp_right hkeep
  cases ht with
  | putAppend batch hpc =>
    rcases mem_append.mp hw with hw | hw
    · refine .inr (hkeep ((h w hw).resolve_left fun hu ↦ ?_))
      simp only [unstored, hpc] at hu
      cases hu
    · exact .inl (congrArg some (mem_singleton.mp hw).symm)
  | putClone hpc | putRecord hpc => exact hsame hw (by simp only [unstored, hpc])
  | putReturn hpc | bulkRefused hpc | bulkAllocate hpc | bulkPublish hpc | bulkReturn hpc =>
    exact hsame hw (by simp only [unstored, hpc])
  | putSwitch hpc | putSwitchFail hpc | bulkBegin _ hpc =>
    exact hsame (t.freeze_wal ▸ hw) (by simp only [unstored, hpc])
  | reclaimFreeze | flushAllFreeze =>
    exact hsame (t.freeze_wal ▸ hw) (by simp only [unstored, freeze_writer])
  | flushFail | flushApply | flushSkip | flushRelease | flushFinish => exact hsame hw rfl
  | putInsertOk hpc hi | putInsertErr hpc hi =>
    rcases h w hw with hu | hpl
    · simp only [unstored, hpc, Option.some.injEq] at hu
      subst hu
      exact .inr (hc.placed_insert hpc hi (hsch.stored hpc hi))
    · exact .inr (hkeep hpl)
  | _ => exact hsame hw rfl

/-- A write that is not yet stored has an LSN behind every SST. -/
theorem Coupled.lt_of_unstored (h : t.Coupled) {w : Write Batch} (hw : t.unstored = some w) :
    maxLsnInSstMetas t.sstables < w.1 := by
  have hrefs := h.writer
  have hfresh (hp : t.pendingLsn = some w.1) : maxLsnInSstMetas t.sstables < w.1 :=
    maxLsnInSstMetas_lt (h.strata.pending w.1 hp).pos (h.strata.pending w.1 hp).sst_lt
  unfold unstored at hw
  unfold WriterRefs at hrefs
  split at hw
  · next hpc => cases hw; exact hfresh (by simp only [pendingLsn, hpc])
  · next hpc => cases hw; exact hfresh (by simp only [pendingLsn, hpc])
  · next hpc =>
    cases hw
    rw [hpc] at hrefs
    obtain ⟨rfl, hrec⟩ := hrefs
    have hsst : ∀ s ∈ t.sstables, s.maxLsn < (t.heap t.mutable).baseLsn :=
      fun s hs ↦ h.strata.sst_lt s hs _ current_mem hrec.pos
    exact (maxLsnInSstMetas_lt hrec.pos hsst).trans_le hrec.base_le
  · cases hw

/-! ## Stratification -/

/-- The LSNs of a table's layers are in order, and trimming recovery by the largest LSN of an SST
skips only frames that are in an SST. -/
structure Stratified (shape : BatchShape Batch) (t : Table Batch) : Prop where
  sst_below_queue : ∀ s ∈ t.sstables, ∀ id ∈ t.immutables, ∀ l l',
    s.coversLsn l = true → (t.heap id).Records l' → l < l'
  queue_increasing : t.immutables.Pairwise fun i j ↦ ∀ l l',
    (t.heap i).Records l → (t.heap j).Records l' → l < l'
  sst_below_mutable : ∀ s ∈ t.sstables, ∀ l l',
    s.coversLsn l = true → (t.heap t.mutable).Records l' → l < l'
  queue_below_mutable : ∀ id ∈ t.immutables, ∀ l l',
    (t.heap id).Records l → (t.heap t.mutable).Records l' → l < l'
  sst_below_next : ∀ s ∈ t.sstables, ∀ l, s.coversLsn l = true → l < t.nextLsn
  mem_below_next : ∀ id ∈ t.live, ∀ l, (t.heap id).Records l → l < t.nextLsn
  trim : ∀ w ∈ t.wal, w.1 ≤ maxLsnInSstMetas t.sstables → ∃ s ∈ t.sstables, s.Holds shape w

theorem Coupled.stratified (h : t.Coupled) (hacc : t.Accounted shape) : t.Stratified shape := by
  have hlive : ∀ id ∈ t.live, t.heap id ∈ t.layers.mems := by
    rintro id (- | ⟨-, hid⟩)
    · exact current_mem
    · exact mem_mems.mpr (.inl (mem_map_of_mem hid))
  have hsst : ∀ s ∈ t.sstables, ∀ id ∈ t.live, ∀ l l',
      s.coversLsn l = true → (t.heap id).Records l' → l < l' := by
    intro s hs id hid l l' hcov hrec
    have hlt := h.strata.sst_lt s hs _ (hlive id hid) hrec.pos
    exact ((Sst.coversLsn_iff.mp hcov).2.2.trans_lt hlt).trans_le hrec.base_le
  obtain ⟨hqu, hmut⟩ := pairwise_mems.mp h.strata.increasing
  constructor
  · exact fun s hs id hid ↦ hsst s hs id (mem_cons_of_mem _ hid)
  · refine (pairwise_map.mp hqu).imp fun hlt l l' hl hl' ↦ ?_
    exact (hl.le_max.trans_lt (hlt hl'.pos)).trans_le hl'.base_le
  · exact fun s hs ↦ hsst s hs _ mem_cons_self
  · intro id hid l l' hl hl'
    have hlt := hmut _ (mem_map_of_mem hid) hl'.pos
    exact (hl.le_max.trans_lt hlt).trans_le hl'.base_le
  · exact fun s hs l hcov ↦ (Sst.coversLsn_iff.mp hcov).2.2.trans_lt (h.strata.sst_lt_next s hs)
  · exact fun id hid l hl ↦ hl.le_max.trans_lt (h.strata.mem_lt_next _ (hlive id hid))
  · intro w hw hle
    rcases hacc w hw with hu | hpl
    · exact absurd (h.lt_of_unstored hu) hle.not_gt
    · exact hpl.in_sst h.strata hle

/-- Freezes hold the write lock, a bulk load finds nothing recorded but unfrozen, and no put fails
on its schema. -/
def Sealed (shape : BatchShape Batch) (t : Table Batch) (a : TableAction Batch) : Prop :=
  t.FreezesLocked a ∧ t.BulkSealed a ∧ t.SchemaMatches shape a

section

variable (t : Table Batch) (a : TableAction Batch)

instance : Decidable (t.FreezesLocked a) := by
  unfold FreezesLocked
  split <;> infer_instance

instance : Decidable (t.BulkSealed a) := by
  unfold BulkSealed
  split <;> infer_instance

instance : Decidable (t.SchemaMatches shape a) := by
  unfold SchemaMatches
  split
  · split <;> infer_instance
  · infer_instance

instance : Decidable (t.Sealed shape a) :=
  inferInstanceAs (Decidable (_ ∧ _ ∧ _))

end

end Table

end MonoTS
