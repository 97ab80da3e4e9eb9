import MonoTS.Table.Machine

/-!
# Where the writes of a table are

The memtables the version refers to are *live*. `WellFormed` says how the program counters relate to
them: ids are not shared, a flush in progress works on the front of the queue, and a memtable that a
flush has taken out of the version is not live any more. It holds in every reachable state, whatever
the interleaving.

`Contained` is what a query would see: a write is in a live memtable or in an SST of the index.
-/

open List

namespace MonoTS

namespace Table

variable {Batch : Type*} {shape : BatchShape Batch} (t : Table Batch)

/-- The memtables of the version. -/
def live : List ℕ := t.mutable :: t.immutables

/-- The write is in a live memtable or in an SST. -/
def Contained (w : Write Batch) : Prop :=
  (∃ id ∈ t.live, w ∈ (t.heap id).chunks) ∨ ∃ s ∈ t.sstables, w ∈ s.contents

/-- The flusher's references: the front of the queue until the version is updated, and a memtable
outside of the version after that. -/
def FlusherRefs : Prop :=
  match t.flusher with
  | .front mem | .spanned mem _ _ | .written mem _ => t.immutables.head? = some mem
  | .applied mem _ => mem ∉ t.live ∧ mem < t.nextId
  | .idle | .released _ => True

/-- The ids of the version are distinct and handed out. -/
structure WellFormed (t : Table Batch) : Prop where
  nodup : t.live.Nodup
  lt_nextId : ∀ id ∈ t.live, id < t.nextId
  flusher : t.FlusherRefs

section

variable (t : Table Batch) (mem : ℕ) (m : MemTable Batch)

@[simp] theorem setMem_heap_self : (t.setMem mem m).heap mem = m := Function.update_self _ _ _

@[simp] theorem setMem_heap_of_ne {id : ℕ} (h : id ≠ mem) : (t.setMem mem m).heap id = t.heap id :=
  Function.update_of_ne h _ _

end

/-! ## Freezing -/

section

variable (t : Table Batch)

@[simp] theorem freeze_sstables : t.freeze.sstables = t.sstables := by
  unfold freeze; split_ifs <;> rfl

@[simp] theorem freeze_wal : t.freeze.wal = t.wal := by
  unfold freeze; split_ifs <;> rfl

@[simp] theorem freeze_writer : t.freeze.writer = t.writer := by
  unfold freeze; split_ifs <;> rfl

@[simp] theorem freeze_flusher : t.freeze.flusher = t.flusher := by
  unfold freeze; split_ifs <;> rfl

@[simp] theorem freeze_acked : t.freeze.acked = t.acked := by
  unfold freeze; split_ifs <;> rfl

@[simp] theorem freeze_nextId : t.freeze.nextId = t.nextId + 1 := by
  unfold freeze; split_ifs <;> rfl

variable {t}

theorem freeze_of_isEmpty (h : (t.heap t.mutable).isEmpty = true) :
    t.freeze = { t with nextId := t.nextId + 1 } := if_pos h

theorem freeze_of_rows (h : (t.heap t.mutable).isEmpty = false) :
    t.freeze =
      { t with
        heap := Function.update t.heap t.nextId MemTable.new
        mutable := t.nextId
        immutables := t.immutables ++ [t.mutable]
        nextId := t.nextId + 1 } := if_neg (by rw [h]; exact Bool.noConfusion)

variable {id : ℕ}

theorem freeze_heap_of_lt (h : id < t.nextId) : t.freeze.heap id = t.heap id := by
  unfold freeze
  split_ifs
  · rfl
  · exact Function.update_of_ne h.ne _ _

theorem freeze_live :
    t.freeze.live = t.live ∧ t.freeze.immutables = t.immutables ∨
      t.freeze.mutable = t.nextId ∧ t.freeze.immutables = t.immutables ++ [t.mutable] ∧
        t.freeze.heap t.nextId = MemTable.new := by
  cases he : (t.heap t.mutable).isEmpty with
  | true =>
    rw [freeze_of_isEmpty he]
    exact .inl ⟨rfl, rfl⟩
  | false =>
    rw [freeze_of_rows he]
    exact .inr ⟨rfl, rfl, Function.update_self _ _ _⟩

theorem mem_freeze_live (h : id ∈ t.live) : id ∈ t.freeze.live := by
  rcases freeze_live (t := t) with ⟨hlive, -⟩ | ⟨-, himm, -⟩
  · rwa [hlive]
  · rw [live, himm]
    rcases mem_cons.mp h with rfl | h
    · simp
    · simp [h]

theorem mem_live_of_freeze (h : id ∈ t.freeze.live) : id ∈ t.live ∨ id = t.nextId := by
  rcases freeze_live (t := t) with ⟨hlive, -⟩ | ⟨hmut, himm, -⟩
  · exact .inl (hlive ▸ h)
  · rw [live, hmut, himm] at h
    rcases mem_cons.mp h with rfl | h
    · exact .inr rfl
    · rcases mem_append.mp h with h | h
      · exact .inl (mem_cons_of_mem _ h)
      · exact .inl (mem_singleton.mp h ▸ mem_cons_self)

theorem freeze_head? {mem : ℕ} (h : t.immutables.head? = some mem) :
    t.freeze.immutables.head? = some mem := by
  rcases freeze_live (t := t) with ⟨-, himm⟩ | ⟨-, himm, -⟩
  · rwa [himm]
  · rw [himm, head?_append, h, Option.some_or]

theorem WellFormed.freeze (h : t.WellFormed) : t.freeze.WellFormed where
  nodup := by
    rcases freeze_live (t := t) with ⟨hlive, -⟩ | ⟨hmut, himm, -⟩
    · rw [hlive]
      exact h.nodup
    · rw [live, hmut, himm]
      have hperm : (t.immutables ++ [t.mutable]).Perm t.live := perm_append_singleton _ _
      refine nodup_cons.mpr ⟨fun hmem ↦ ?_, hperm.nodup_iff.mpr h.nodup⟩
      exact lt_irrefl _ (h.lt_nextId _ (hperm.mem_iff.mp hmem))
  lt_nextId := by
    intro id hid
    rw [freeze_nextId]
    rcases mem_live_of_freeze hid with hid | rfl
    · exact (h.lt_nextId id hid).trans (Nat.lt_succ_self _)
    · exact Nat.lt_succ_self _
  flusher := by
    have hf := h.flusher
    unfold FlusherRefs at hf ⊢
    rw [freeze_flusher]
    cases hpc : t.flusher with
    | idle | released => trivial
    | front | spanned | written => rw [hpc] at hf; exact freeze_head? hf
    | applied =>
      rw [hpc] at hf
      refine ⟨fun hmem ↦ ?_, by rw [freeze_nextId]; exact hf.2.trans (Nat.lt_succ_self _)⟩
      rcases mem_live_of_freeze hmem with hmem | rfl
      · exact hf.1 hmem
      · exact lt_irrefl _ hf.2

end

/-! ## One step -/

variable {t t' : Table Batch} {a : TableAction Batch}

theorem nextId_mono (ht : Trans shape t a t') : t.nextId ≤ t'.nextId := by
  cases ht with
  | putSwitch | putSwitchFail | bulkBegin | reclaimFreeze | flushAllFreeze =>
    exact (freeze_nextId t).ge.trans' (Nat.le_succ _)
  | _ => exact le_rfl

section

variable {mem : ℕ} {rest : List ℕ}

theorem mem_live_of_tail (hq : t.immutables = mem :: rest) {id : ℕ} (h : id ∈ t.mutable :: rest) :
    id ∈ t.live := by
  rw [live, hq]
  exact ((sublist_cons_self mem rest).cons_cons _).subset h

theorem front_mem_live (hq : t.immutables = mem :: rest) : mem ∈ t.live := by
  rw [live, hq]
  exact mem_cons_of_mem _ mem_cons_self

/-- Without the front of the queue the version still refers to no memtable twice, and not to the
front. -/
theorem WellFormed.nodup_tail (h : t.WellFormed) (hq : t.immutables = mem :: rest) :
    (t.mutable :: rest).Nodup ∧ mem ∉ t.mutable :: rest := by
  have hperm : t.live.Perm (mem :: t.mutable :: rest) := by
    rw [live, hq]
    exact List.Perm.swap mem t.mutable rest
  exact (nodup_cons.mp (hperm.nodup_iff.mp h.nodup)).symm

end

/-- **Well-formedness is kept by every step.** -/
theorem WellFormed.trans (h : t.WellFormed) (ht : Trans shape t a t') : t'.WellFormed := by
  have hf := h.flusher
  unfold FlusherRefs at hf
  cases ht with
  | putSwitch | putSwitchFail | bulkBegin =>
    exact ⟨h.freeze.nodup, h.freeze.lt_nextId, h.freeze.flusher⟩
  | reclaimFreeze | flushAllFreeze => exact h.freeze
  | flushDropEmpty hpc hq _ =>
    refine ⟨(h.nodup_tail hq).1, fun id hid ↦ h.lt_nextId id (mem_live_of_tail hq hid), ?_⟩
    unfold FlusherRefs
    rw [hpc]
    trivial
  | flushFront _ hq => exact ⟨h.nodup, h.lt_nextId, by simp [FlusherRefs, hq]⟩
  | flushSpan hpc | flushWrite hpc =>
    rw [hpc] at hf
    exact ⟨h.nodup, h.lt_nextId, hf⟩
  | flushNothing | flushFail | flushSkip | flushFinish | flushRelease =>
    exact ⟨h.nodup, h.lt_nextId, trivial⟩
  | flushApply hpc hhead =>
    -- The memtable leaves the version here, and the flusher's reference with it.
    obtain ⟨rest, hq⟩ := head?_eq_some_iff.mp hhead
    have htail : t.immutables.tail = rest := by rw [hq, tail_cons]
    rw [htail]
    exact ⟨(h.nodup_tail hq).1, fun id hid ↦ h.lt_nextId id (mem_live_of_tail hq hid),
      (h.nodup_tail hq).2, h.lt_nextId _ (front_mem_live hq)⟩
  | _ => exact { h with }

theorem wellFormed_initial (sstables : List (Sst (Write Batch))) (nextLsn : ℕ) :
    (initial sstables nextLsn).WellFormed where
  nodup := nodup_singleton 0
  lt_nextId := fun _ hid ↦ mem_singleton.mp hid ▸ Nat.zero_lt_one
  flusher := trivial

variable {w : Write Batch}

/-- What was written stays where it was when live memtables only grow and no SST is dropped. -/
theorem Contained.mono (h : t.Contained w) (hlive : ∀ id ∈ t.live, id ∈ t'.live)
    (hheap : ∀ id ∈ t.live, w ∈ (t.heap id).chunks → w ∈ (t'.heap id).chunks)
    (hssts : ∀ s ∈ t.sstables, s ∈ t'.sstables) : t'.Contained w := by
  rcases h with ⟨id, hid, hw⟩ | ⟨s, hs, hw⟩
  · exact .inl ⟨id, hlive id hid, hheap id hid hw⟩
  · exact .inr ⟨s, hssts s hs, hw⟩

theorem Contained.freeze (hwf : t.WellFormed) (h : t.Contained w) : t.freeze.Contained w := by
  refine h.mono (fun id ↦ mem_freeze_live) (fun id hid hw ↦ ?_) fun s hs ↦ by rwa [freeze_sstables]
  rwa [freeze_heap_of_lt (hwf.lt_nextId id hid)]

/-- Replacing a memtable keeps what is contained, if it keeps the chunks or is not live. -/
theorem Contained.setMem {mem : ℕ} {m : MemTable Batch} (h : t.Contained w)
    (hm : mem ∈ t.live → w ∈ (t.heap mem).chunks → w ∈ m.chunks) :
    (t.setMem mem m).Contained w := by
  refine h.mono (fun _ ↦ id) (fun id hid hw ↦ ?_) fun _ ↦ id
  by_cases heq : id = mem
  · subst heq
    rw [setMem_heap_self]
    exact hm hid hw
  · rw [setMem_heap_of_ne _ _ _ heq]
    exact hw

end Table

end MonoTS
