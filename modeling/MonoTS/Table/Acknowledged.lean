import MonoTS.Table.Live

/-!
# Acknowledged writes under concurrent flushes

A put inserts into the memtable it cloned from the version, and the version can move on between the
two: `FLUSH TABLE` freezes without the write lock. When the flush has already taken its snapshot of
that memtable, the insertion succeeds and the batch is cleared with the memtable.

`InsertsLive` rules out exactly that insertion, and then no acknowledged write is ever out of the
version. The three parts of the argument are separate: every step keeps what is contained as long as
a written snapshot is current (`Contained.trans`), the snapshot stays current if insertions are live
(`SnapshotCurrent.trans`), and a write is contained from its insertion on.
-/

open Transition List

namespace MonoTS

namespace Table

variable {Batch : Type*} {shape : BatchShape Batch} (t : Table Batch)

/-- A flush has written its snapshot of the memtable and not yet updated the version. -/
def snapshotTaken (mem : ℕ) : Bool :=
  match t.flusher with
  | .written m _ => m == mem
  | _ => false

/-- An insertion goes to a memtable of the version of which no flush holds a snapshot. -/
def InsertsLive : TableAction Batch → Prop
  | .putInsert _ =>
    match t.writer with
    | .recorded _ mem => mem ∈ t.live ∧ t.snapshotTaken mem = false
    | _ => True
  | _ => True

instance (a : TableAction Batch) : Decidable (t.InsertsLive a) :=
  decidable_of_iff ((match a, t.writer with
    | .putInsert _, .recorded _ mem => decide (mem ∈ t.live ∧ t.snapshotTaken mem = false)
    | _, _ => true) = true) (by
      unfold InsertsLive
      cases a <;> cases t.writer <;> simp)

instance [DecidableEq Batch] (t : Table Batch) (w : Write Batch) : Decidable (t.Contained w) :=
  inferInstanceAs (Decidable
    ((∃ id ∈ t.live, w ∈ (t.heap id).chunks) ∨ ∃ s ∈ t.sstables, w ∈ s.contents))

/-- The SST that a flush is about to install holds all of the memtable. -/
def SnapshotCurrent : Prop :=
  ∀ mem sst, t.flusher = .written mem sst → ∀ w ∈ (t.heap mem).chunks, w ∈ sst.contents

variable {t t' : Table Batch} {a : TableAction Batch} {accounting : MemTable.Accounting}

variable {write : Write Batch}

theorem InsertsLive.mem_live {mem : ℕ}
    (h : t.InsertsLive (.putInsert accounting)) (hw : t.writer = .recorded write mem) :
    mem ∈ t.live := by
  simp only [InsertsLive, hw] at h
  exact h.1

theorem InsertsLive.ne_written {mem m : ℕ} {sst : Sst (Write Batch)}
    (h : t.InsertsLive (.putInsert accounting)) (hw : t.writer = .recorded write mem)
    (hf : t.flusher = .written m sst) : m ≠ mem := by
  simp only [InsertsLive, hw, snapshotTaken, hf, beq_eq_false_iff_ne] at h
  exact h.2

/-! ## One step -/

/-- **No step takes a write out of the version**, provided the snapshot it installs is current. -/
theorem Contained.trans {w : Write Batch} (h : t.Contained w) (hwf : t.WellFormed)
    (hsnap : t.SnapshotCurrent) (ht : Trans shape t a t') : t'.Contained w := by
  cases ht with
  | putRecord => exact h.setMem fun _ hmem ↦ by rwa [MemTable.recordLsn_chunks]
  | putInsertOk _ hi | putInsertErr _ hi => exact h.setMem fun _ ↦ MemTable.mem_insertForTable hi
  | putSwitch | putSwitchFail | bulkBegin | reclaimFreeze | flushAllFreeze => exact h.freeze hwf
  | bulkPublish =>
    exact h.mono (fun _ ↦ id) (fun _ _ ↦ id) fun s hs ↦ mem_append_left _ hs
  | flushDropEmpty hf hq he =>
    rcases h with ⟨id, hid, hmem⟩ | hs
    · rw [live, hq, mem_cons, mem_cons] at hid
      rcases hid with hid | hid | hid
      · exact .inl ⟨id, mem_cons.mpr (.inl hid), hmem⟩
      · -- The dropped memtable is the empty one.
        subst hid
        rw [List.isEmpty_iff.mp he] at hmem
        cases hmem
      · exact .inl ⟨id, mem_cons_of_mem _ hid, hmem⟩
    · exact .inr hs
  | @flushApply mem sst hf hhead =>
    obtain ⟨_, hq⟩ := head?_eq_some_iff.mp hhead
    rcases h with ⟨id, hid, hmem⟩ | ⟨s, hs, hmem⟩
    · rw [live, hq, mem_cons, mem_cons] at hid
      rcases hid with hid | hid | hid
      · exact .inl ⟨id, mem_cons.mpr (.inl hid), hmem⟩
      · -- What was in the memtable is in the SST that takes its place.
        subst hid
        exact .inr ⟨sst, mem_append_right _ mem_cons_self, hsnap _ _ hf w hmem⟩
      · refine .inl ⟨id, mem_cons_of_mem _ ?_, hmem⟩
        rwa [hq]
    · exact .inr ⟨s, mem_append_left _ hs, hmem⟩
  | flushRelease hf =>
    have hrefs := hwf.flusher
    rw [FlusherRefs, hf] at hrefs
    exact h.setMem fun hlive _ ↦ absurd hlive hrefs.1
  | _ => exact h

theorem SnapshotCurrent.trans (h : t.SnapshotCurrent) (hwf : t.WellFormed)
    (hok : t.InsertsLive a) (ht : Trans shape t a t') : t'.SnapshotCurrent := by
  cases ht with
  | flushFront | flushSpan | flushNothing | flushFail | flushApply | flushSkip | flushRelease =>
    rintro _ _ ⟨⟩
  | flushFinish => rintro _ _ ⟨⟩
  | flushWrite =>
    rintro _ _ ⟨⟩ w hw
    exact hw
  | @putRecord _ mem =>
    intro m sst hf w hmem
    refine h m sst hf w ?_
    by_cases heq : m = mem
    · subst heq
      rwa [setMem_heap_self, MemTable.recordLsn_chunks] at hmem
    · rwa [setMem_heap_of_ne _ _ _ heq] at hmem
  | putInsertOk hw hi | putInsertErr hw hi =>
    intro m sst hf w hmem
    rw [setMem_heap_of_ne _ _ _ (hok.ne_written hw hf)] at hmem
    exact h m sst hf w hmem
  | putSwitch | putSwitchFail | bulkBegin | reclaimFreeze | flushAllFreeze =>
    intro m sst hf w hmem
    have hf' : t.flusher = .written m sst := t.freeze_flusher ▸ hf
    have hrefs := hwf.flusher
    rw [FlusherRefs, hf'] at hrefs
    obtain ⟨_, hq⟩ := head?_eq_some_iff.mp hrefs
    rw [freeze_heap_of_lt (hwf.lt_nextId m (front_mem_live hq))] at hmem
    exact h m sst hf' w hmem
  | _ => exact h

/-- The writes of which rows are expected: those acknowledged, and the one whose put is about to
return. -/
structure Acknowledged (shape : BatchShape Batch) (t : Table Batch) : Prop where
  acked : ∀ w ∈ t.acked, shape.numRows w.2 ≠ 0 → t.Contained w
  inserted : ∀ w rotate, t.writer = .inserted w rotate → shape.numRows w.2 ≠ 0 → t.Contained w

theorem Acknowledged.trans (h : t.Acknowledged shape) (hwf : t.WellFormed)
    (hsnap : t.SnapshotCurrent) (hok : t.InsertsLive a) (ht : Trans shape t a t') :
    t'.Acknowledged shape := by
  have hkeep : ∀ w, t.Contained w → t'.Contained w := fun w hw ↦ hw.trans hwf hsnap ht
  have hack : ∀ w ∈ t.acked, shape.numRows w.2 ≠ 0 → t'.Contained w :=
    fun w hw hrows ↦ hkeep w (h.acked w hw hrows)
  have hins : ∀ w rotate, t.writer = .inserted w rotate → shape.numRows w.2 ≠ 0 → t'.Contained w :=
    fun w rotate hw hrows ↦ hkeep w (h.inserted w rotate hw hrows)
  cases ht with
  | bulkReturn => exact ⟨hack, by rintro _ _ ⟨⟩⟩
  | putSwitchFail | bulkBegin => exact ⟨t.freeze_acked ▸ hack, by rintro _ _ ⟨⟩⟩
  | putSwitch hw =>
    refine ⟨t.freeze_acked ▸ hack, ?_⟩
    rintro _ _ ⟨⟩
    exact hins _ _ hw
  | reclaimFreeze | flushAllFreeze =>
    exact ⟨t.freeze_acked ▸ hack, t.freeze_writer ▸ hins⟩
  | allocateElsewhere | flushDropEmpty | flushFront | flushSpan | flushNothing | flushWrite =>
    exact ⟨hack, hins⟩
  | flushFail | flushApply | flushSkip | flushRelease | flushFinish => exact ⟨hack, hins⟩
  | putInsertOk hw hi =>
    refine ⟨hack, ?_⟩
    rintro w rotate ⟨⟩ hrows
    refine .inl ⟨_, hok.mem_live hw, ?_⟩
    rw [setMem_heap_self]
    exact MemTable.mem_of_insertForTable_ok hrows hi
  | putReturn hw =>
    refine ⟨fun w hmem hrows ↦ ?_, by rintro _ _ ⟨⟩⟩
    rcases mem_append.mp hmem with hmem | hmem
    · exact hack w hmem hrows
    · rw [mem_singleton.mp hmem] at hrows ⊢
      exact hins _ _ hw hrows
  | _ => exact ⟨hack, by rintro _ _ ⟨⟩⟩

/-! ## Every run -/

/-- **No acknowledged write disappears.** In every interleaving of puts with flushes, freezes and
bulk loads in which each insertion goes to a memtable of the version that no flush has snapshotted,
the rows of every acknowledged write are in a memtable of the version or in an SST. -/
theorem acked_contained_of_insertsLive {sstables : List (Sst (Write Batch))} {nextLsn : ℕ}
    (h : Reaches (guarded InsertsLive (step shape)) (initial sstables nextLsn) t) :
    ∀ w ∈ t.acked, shape.numRows w.2 ≠ 0 → t.Contained w := by
  suffices hinv : t.WellFormed ∧ t.SnapshotCurrent ∧ t.Acknowledged shape from hinv.2.2.acked
  refine h.invariant (I := fun t ↦ t.WellFormed ∧ t.SnapshotCurrent ∧ t.Acknowledged shape) ?_ ?_
  · refine ⟨wellFormed_initial _ _, ?_, ?_, ?_⟩
    · rintro _ _ ⟨⟩
    · rintro _ ⟨⟩
    · rintro _ _ ⟨⟩
  · rintro s a s' ⟨hwf, hsnap, hack⟩ hstep
    obtain ⟨hok, hstep⟩ := guarded_eq_some.mp hstep
    have ht := trans_of_step shape hstep
    exact ⟨hwf.trans ht, hsnap.trans hwf hok ht, hack.trans hwf hsnap hok ht⟩

/-- A flush of the whole table between two puts. -/
theorem acked_contained_after_flush_all :
    ∃ t, Reaches (guarded InsertsLive (step rowsShape)) (initial [] 1) t ∧
      t.acked = [(1, 3), (2, 5)] ∧ t.Contained (1, 3) ∧ t.Contained (2, 5) := by
  have hrun : Reaches (guarded InsertsLive (step rowsShape)) (initial [] 1) _ :=
    reaches_of_run (put 3 ++ .flushAllFreeze :: flush ++ put 5) rfl
  exact ⟨_, hrun, rfl, acked_contained_of_insertsLive hrun (1, 3) (by decide) (by decide),
    acked_contained_of_insertsLive hrun (2, 5) (by decide) (by decide)⟩

/-- The second put clones the memtable, then `FLUSH TABLE` freezes, writes, installs and releases
it, then the put inserts and returns `Ok`. -/
theorem acked_write_lost_to_flush :
    ∃ t, Reaches (step rowsShape) (initial [] 1) t ∧
      (2, 5) ∈ t.acked ∧ rowsShape.numRows 5 ≠ 0 ∧ ¬ t.Contained (2, 5) := by
  have hrun : Reaches (step rowsShape) (initial [] 1) _ :=
    reaches_of_run (put 3 ++ [TableAction.putAppend 5, .putClone, .flushAllFreeze] ++ flush ++
      [TableAction.putRecord, .putInsert (.reserved false), .putReturn]) rfl
  exact ⟨_, hrun, by decide, by decide, by decide⟩

end Table

end MonoTS
