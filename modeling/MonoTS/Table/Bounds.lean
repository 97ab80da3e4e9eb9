import MonoTS.Table.Live

/-!
# The LSNs of files

A capture passes on no file without LSNs. The files that a table makes have them: a put records its
LSN in the memtable before it stores its rows, so that a memtable that is not empty has a span, and
a bulk load has an LSN of its own. `Bounded` holds in every interleaving.

The second part says how a file gets into the index, and what a step leaves alone of a party that
has prepared one.
-/

namespace MonoTS

variable {Batch : Type*}

/-! ## Spans -/

theorem MemTable.maxLsn_recordLsn (m : MemTable Batch) (lsn : ℕ) :
    (m.recordLsn lsn).maxLsn = max m.maxLsn lsn := by
  by_cases hzero : lsn = 0
  · rw [recordLsn, if_pos hzero, hzero, Nat.max_zero]
  · rw [recordLsn, if_neg hzero]

theorem MemTable.lsnSpan_pos {m : MemTable Batch} (h : 0 < m.maxLsn) : 0 < m.lsnSpan.2 := by
  unfold lsnSpan
  split_ifs with hzero hlt
  · exact absurd hzero.2 h.ne'
  · exact h.trans hlt
  · exact h

open MemTable

variable {f : Sst (Write Batch)}

theorem Sst.hasLsnBounds_of_pos (h : 0 < f.maxLsn) : f.hasLsnBounds = true :=
  decide_eq_true (.inr h)

namespace Table

variable {shape : BatchShape Batch} {t t' : Table Batch} {a : TableAction Batch}

/-- A put records its LSN before its rows are stored, in a memtable that is not replaced. -/
def WriterBounded (t : Table Batch) : Prop :=
  match t.writer with
  | .appended write => 0 < write.1
  | .cloned write mem => 0 < write.1 ∧ mem < t.nextId
  | .recorded _ mem => 0 < (t.heap mem).maxLsn ∧ mem < t.nextId
  | .bulkAllocated lsn _ _ => 0 < lsn
  | .idle | .inserted _ _ | .bulkDraining _ => True

def FlusherBounded (t : Table Batch) : Prop :=
  match t.flusher with
  | .front mem => 0 < (t.heap mem).maxLsn
  | .spanned _ _ max => 0 < max
  | .written _ sst => 0 < sst.maxLsn
  | .idle | .applied _ _ | .released _ => True

/-- What is flushed or bulk loaded has an LSN. -/
structure Bounded (t : Table Batch) : Prop where
  nextLsn_pos : 0 < t.nextLsn
  mems : ∀ id, (t.heap id).isEmpty = false → 0 < (t.heap id).maxLsn
  writer : t.WriterBounded
  flusher : t.FlusherBounded
  ssts : ∀ f ∈ t.sstables, 0 < f.maxLsn

theorem heap_freeze (t : Table Batch) (id : ℕ) :
    t.freeze.heap id = t.heap id ∨ t.freeze.heap id = .new := by
  unfold freeze
  split_ifs
  · exact .inl rfl
  · by_cases hid : id = t.nextId
    · subst hid
      exact .inr (Function.update_self _ _ _)
    · exact .inl (Function.update_of_ne hid _ _)

theorem maxLsn_heap_mono (ht : Trans shape t a t') {id : ℕ} (hid : id < t.nextId) :
    (t.heap id).maxLsn ≤ (t'.heap id).maxLsn := by
  have hset : ∀ {mem : ℕ} {m : MemTable Batch}, (t.heap mem).maxLsn ≤ m.maxLsn →
      (t.heap id).maxLsn ≤ ((t.setMem mem m).heap id).maxLsn := by
    intro mem m hle
    by_cases heq : id = mem
    · subst heq
      rwa [setMem_heap_self]
    · rw [setMem_heap_of_ne _ _ _ heq]
  cases ht with
  | putRecord => exact hset ((maxLsn_recordLsn _ _).ge.trans' (le_max_left _ _))
  | putInsertOk _ hi | putInsertErr _ hi => exact hset (insertForTable_span hi).2.ge
  | flushRelease => exact hset le_rfl
  | putSwitch | putSwitchFail | bulkBegin | reclaimFreeze | flushAllFreeze =>
    exact (congrArg maxLsn (freeze_heap_of_lt hid)).ge
  | _ => exact le_rfl

theorem freeze_nextLsn (t : Table Batch) : t.freeze.nextLsn = t.nextLsn := by
  unfold freeze
  split_ifs <;> rfl

theorem nextLsn_mono (ht : Trans shape t a t') : t.nextLsn ≤ t'.nextLsn := by
  cases ht with
  | putSwitch | putSwitchFail | bulkBegin | reclaimFreeze | flushAllFreeze =>
    exact (freeze_nextLsn t).ge
  | putAppend | bulkRefused | bulkAllocate | allocateElsewhere => exact Nat.le_succ _
  | _ => exact le_rfl

/-- The file that a bulk load adds for an LSN. -/
def bulkSst (lsn : ℕ) (rows : List Batch) : Sst (Write Batch) :=
  ⟨lsn, lsn, rows.map fun b ↦ (lsn, b)⟩

/-- A file comes into the index from a flush that has written it, or from a bulk load. -/
theorem sstables_of_trans (ht : Trans shape t a t')
    (hf : f ∈ t'.sstables) : f ∈ t.sstables ∨
      (a = .flushApply ∧ ∃ mem, t.flusher = .written mem f) ∨
      (a = .bulkPublish ∧ ∃ lsn rows files, t.writer = .bulkAllocated lsn rows files ∧
        f = bulkSst lsn rows) := by
  cases ht with
  | putSwitch | putSwitchFail | bulkBegin | reclaimFreeze | flushAllFreeze =>
    exact .inl (freeze_sstables t ▸ hf)
  | flushApply hpc =>
    refine (List.mem_append.mp hf).imp_right fun hf ↦ .inl ⟨rfl, ?_⟩
    obtain rfl := List.mem_singleton.mp hf
    exact ⟨_, hpc⟩
  | bulkPublish hpc =>
    refine (List.mem_append.mp hf).imp_right fun hf ↦ .inr ⟨rfl, _, _, _, hpc, ?_⟩
    exact List.mem_singleton.mp hf
  | _ => exact .inl hf

namespace Bounded

theorem mems_freeze (h : t.Bounded) (id : ℕ) (hid : (t.freeze.heap id).isEmpty = false) :
    0 < (t.freeze.heap id).maxLsn := by
  rcases heap_freeze t id with heq | heq
  · rw [heq] at hid ⊢
    exact h.mems id hid
  · rw [heq] at hid
    cases hid

theorem mems_setMem (h : t.Bounded) {mem : ℕ} {m : MemTable Batch}
    (hm : m.isEmpty = false → 0 < m.maxLsn) (id : ℕ)
    (hid : ((t.setMem mem m).heap id).isEmpty = false) : 0 < ((t.setMem mem m).heap id).maxLsn := by
  by_cases heq : id = mem
  · subst heq
    rw [setMem_heap_self] at hid ⊢
    exact hm hid
  · rw [setMem_heap_of_ne _ _ _ heq] at hid ⊢
    exact h.mems id hid

theorem mems_trans (h : t.Bounded) (ht : Trans shape t a t') :
    ∀ id, (t'.heap id).isEmpty = false → 0 < (t'.heap id).maxLsn := by
  have hw := h.writer
  unfold WriterBounded at hw
  cases ht with
  | putRecord hpc =>
    rw [hpc] at hw
    refine h.mems_setMem fun _ ↦ ?_
    rw [maxLsn_recordLsn]
    exact hw.1.trans_le (le_max_right _ _)
  | putInsertOk hpc hi | putInsertErr hpc hi =>
    rw [hpc] at hw
    refine h.mems_setMem fun _ ↦ ?_
    rw [(insertForTable_span hi).2]
    exact hw.1
  | flushRelease => exact h.mems_setMem nofun
  | putSwitch | putSwitchFail | bulkBegin | reclaimFreeze | flushAllFreeze => exact h.mems_freeze
  | _ => exact h.mems

section

variable (h : t.Bounded) (hwf : t.WellFormed) (ht : Trans shape t a t')

include h hwf ht

/-- The writer is where it was, or has moved on and has what it needs there. -/
theorem writer_trans : t'.WriterBounded := by
  have hw := h.writer
  have hsame : t'.writer = t.writer → t'.WriterBounded := by
    intro heq
    unfold WriterBounded at hw ⊢
    rw [heq]
    cases hpc : t.writer with
    | appended | bulkAllocated => rwa [hpc] at hw
    | cloned =>
      rw [hpc] at hw
      exact ⟨hw.1, hw.2.trans_le (nextId_mono ht)⟩
    | recorded =>
      rw [hpc] at hw
      exact ⟨hw.1.trans_le (maxLsn_heap_mono ht hw.2), hw.2.trans_le (nextId_mono ht)⟩
    | idle | inserted | bulkDraining => trivial
  cases ht with
  | putAppend | bulkAllocate => exact h.nextLsn_pos
  | putClone hpc =>
    rw [WriterBounded, hpc] at hw
    exact ⟨hw, hwf.lt_nextId _ List.mem_cons_self⟩
  | putRecord hpc =>
    rw [WriterBounded, hpc] at hw
    refine ⟨?_, hw.2⟩
    rw [setMem_heap_self, maxLsn_recordLsn]
    exact hw.1.trans_le (le_max_right _ _)
  | reclaimFreeze | flushAllFreeze => exact hsame (freeze_writer t)
  | putInsertOk | putInsertErr | putSwitch | putSwitchFail | putReturn | bulkBegin | bulkRefused
  | bulkPublish | bulkReturn => trivial
  | _ => exact hsame rfl

theorem flusher_trans : t'.FlusherBounded := by
  have hf := h.flusher
  have hrefs := hwf.flusher
  have hsame : t'.flusher = t.flusher → t'.FlusherBounded := by
    intro heq
    unfold FlusherBounded at hf ⊢
    rw [heq]
    cases hpc : t.flusher with
    | front mem =>
      rw [hpc] at hf
      rw [FlusherRefs, hpc] at hrefs
      have hlive : mem ∈ t.live := List.mem_cons_of_mem _ (List.mem_of_mem_head? hrefs)
      exact hf.trans_le (maxLsn_heap_mono ht (hwf.lt_nextId mem hlive))
    | spanned | written => rwa [hpc] at hf
    | idle | applied | released => trivial
  cases ht with
  | flushFront _ _ he => exact h.mems _ he
  | flushSpan hpc =>
    rw [FlusherBounded, hpc] at hf
    exact lsnSpan_pos hf
  | flushWrite hpc =>
    rw [FlusherBounded, hpc] at hf
    exact hf
  | flushNothing | flushFail | flushApply | flushSkip | flushRelease | flushFinish => trivial
  | putSwitch | putSwitchFail | bulkBegin | reclaimFreeze | flushAllFreeze =>
    exact hsame (freeze_flusher t)
  | _ => exact hsame rfl

theorem trans : t'.Bounded := by
  refine ⟨?_, h.mems_trans ht, h.writer_trans hwf ht, h.flusher_trans hwf ht, ?_⟩
  · exact h.nextLsn_pos.trans_le (nextLsn_mono ht)
  · intro f hf
    rcases sstables_of_trans ht hf with hf | ⟨-, _, hpc⟩ | ⟨-, _, _, _, hpc, rfl⟩
    · exact h.ssts f hf
    · have hfl := h.flusher
      rwa [FlusherBounded, hpc] at hfl
    · have hwr := h.writer
      rwa [WriterBounded, hpc] at hwr

end

theorem freeze (h : t.Bounded) (hwf : t.WellFormed) (hf : t.flusher = .idle) :
    t.freeze.Bounded := by
  -- no step depends on the shape of the batches here
  have ht : Trans ⟨fun _ ↦ 0, fun _ ↦ true⟩ t .flushAllFreeze t.freeze := .flushAllFreeze hf
  exact h.trans hwf ht

theorem initial {sstables : List (Sst (Write Batch))} {nextLsn : ℕ} (hpos : 0 < nextLsn)
    (hssts : ∀ f ∈ sstables, 0 < f.maxLsn) : (initial sstables nextLsn).Bounded :=
  ⟨hpos, nofun, trivial, trivial, hssts⟩

end Bounded

/-! ## What a step leaves alone -/

variable (ht : Trans shape t a t')

include ht

theorem writer_of_idle (hw : t.writer = .idle)
    (hput : ∀ batch, a ≠ .putAppend batch) (hbulk : ∀ files, a ≠ .bulkBegin files) :
    t'.writer = .idle := by
  cases ht with
  | putAppend batch => exact absurd rfl (hput batch)
  | bulkBegin files => exact absurd rfl (hbulk files)
  | putClone h | putRecord h | putInsertOk h | putInsertErr h | putSwitch h | putSwitchFail h
  | putReturn h | bulkRefused h | bulkAllocate h | bulkPublish h | bulkReturn h =>
    cases hw.symm.trans h
  | reclaimFreeze | flushAllFreeze => exact (freeze_writer t).trans hw
  | _ => exact hw

theorem writer_of_inserted {write : Write Batch} {rotate : Bool}
    (hw : t.writer = .inserted write rotate) (hfail : a ≠ .putSwitchFail)
    (hret : a ≠ .putReturn) : ∃ write rotate, t'.writer = .inserted write rotate := by
  cases ht with
  | putSwitchFail => exact absurd rfl hfail
  | putReturn => exact absurd rfl hret
  | putSwitch => exact ⟨_, _, rfl⟩
  | putAppend _ h | putClone h | putRecord h | putInsertOk h | putInsertErr h | reclaimFreeze h
  | bulkBegin _ h | bulkRefused h | bulkAllocate h | bulkPublish h =>
    cases hw.symm.trans h
  | bulkReturn h => cases hw.symm.trans h
  | flushAllFreeze => exact ⟨_, _, (freeze_writer t).trans hw⟩
  | _ => exact ⟨_, _, hw⟩

theorem writer_of_bulkAllocated {lsn : ℕ} {rows : List Batch}
    {files : List (List Batch)} (hw : t.writer = .bulkAllocated lsn rows files)
    (ha : a ≠ .bulkPublish) : t'.writer = .bulkAllocated lsn rows files := by
  cases ht with
  | bulkPublish => exact absurd rfl ha
  | putAppend _ h | putClone h | putRecord h | putInsertOk h | putInsertErr h | putSwitch h
  | putSwitchFail h | putReturn h | reclaimFreeze h | bulkBegin _ h | bulkRefused h =>
    cases hw.symm.trans h
  | bulkAllocate h | bulkReturn h => cases hw.symm.trans h
  | flushAllFreeze => exact (freeze_writer t).trans hw
  | _ => exact hw

theorem flusher_of_written {mem : ℕ} {sst : Sst (Write Batch)}
    (hf : t.flusher = .written mem sst) (ha : a ≠ .flushApply) : t'.flusher = .written mem sst := by
  cases ht with
  | flushApply | flushSkip => exact absurd rfl ha
  | bulkBegin _ _ h | flushAllFreeze h | flushDropEmpty h | flushFront h | flushSpan h
  | flushNothing h | flushWrite h | flushFail h | flushRelease h | flushFinish h =>
    cases hf.symm.trans h
  | putSwitch | putSwitchFail | reclaimFreeze => exact (freeze_flusher t).trans hf
  | _ => exact hf

end Table

end MonoTS
