import MonoTS.Compaction.Merge
import MonoTS.Compaction.Pick

/-!
# Concurrent compaction passes

A pass takes a snapshot of the index, picks a run and merges it, and then replaces the run in the
index as it is by then. Between the snapshot and the replacement other passes may replace their own
runs, and flushes and bulk loads insert files. The positions of the picked run are those of the
snapshot, so a file that is inserted before the end of the run makes `replace_range` remove other
files than the ones that were merged.

What keeps a pass right is that the index agrees with its snapshot up to the end of the picked run.
Updates at later positions preserve this, whatever they do (`Intact`).
-/

open Transition List

namespace MonoTS

variable {ρ : Type*}

/-- The settings of a table's compactor. -/
structure Compactor where
  dataDir : String
  thresholdBytes : ℕ
  strategy : CompactionStrategy
  maxMergeFiles : ℕ

/-- Pick a run of the index. -/
def Compactor.pick (c : Compactor) (files : List (SstFile ρ)) : Option (ℕ × ℕ) :=
  pickCompaction (files.map fun f ↦ f.toSstMeta) c.strategy c.thresholdBytes c.maxMergeFiles

variable {start len : ℕ}

theorem Compactor.le_length_of_pick {c : Compactor} {files : List (SstFile ρ)}
    (h : c.pick files = some (start, len)) : start + len ≤ files.length := by
  have := (mergeable_of_pick h).le_length
  rwa [length_map] at this

/-- Where an execution of `run_compaction_pass` is. -/
inductive Pass (ρ : Type*) where
  | idle
  | snapshotted (files : List (SstFile ρ))
  /-- The run `(start, len)` of the snapshot has been merged. -/
  | merged (files : List (SstFile ρ)) (start len : ℕ) (file : SstFile ρ)

/-- A table's index and the passes at work on it. -/
structure Passes (ρ : Type*) where
  index : List (SstFile ρ)
  passes : List (Pass ρ)

/-- A step of a pass, or an insertion. -/
inductive PassAction (ρ : Type*) where
  /-- `FileIndex::insert` by a flush or a bulk load. -/
  | insert (file : SstFile ρ)
  | snapshot (pass : ℕ)
  /-- Pick and merge, at a time and with a size of the output. -/
  | merge (pass : ℕ) (nowMs : ℤ) (fileSize : ℕ)
  /-- Reading an input or writing the output failed. -/
  | mergeFail (pass : ℕ)
  | replace (pass : ℕ)

namespace Passes

variable (search : BinarySearch) (c : Compactor)

def initial (index : List (SstFile ρ)) (count : ℕ) : Passes ρ := ⟨index, List.replicate count .idle⟩

def setPass (s : Passes ρ) (i : ℕ) (p : Pass ρ) : Passes ρ := { s with passes := s.passes.set i p }

/-- Pick a run of the snapshot and merge it. Nothing to pick and an error both end the pass. -/
def pickAndMerge (files : List (SstFile ρ)) (nowMs : ℤ) (fileSize : ℕ) : Pass ρ :=
  match c.pick files with
  | none => .idle
  | some (start, len) =>
    match mergeFiles c.dataDir nowMs fileSize (runOf files start len) with
    | .ok file => .merged files start len file
    | .error _ => .idle

def step (s : Passes ρ) : PassAction ρ → Option (Passes ρ)
  | .insert file => some { s with index := FileIndex.insert search s.index file }
  | .snapshot i =>
    match s.passes[i]? with
    | some .idle => some (s.setPass i (.snapshotted s.index))
    | _ => none
  | .merge i nowMs fileSize =>
    match s.passes[i]? with
    | some (.snapshotted files) => some (s.setPass i (pickAndMerge c files nowMs fileSize))
    | _ => none
  | .mergeFail i =>
    match s.passes[i]? with
    | some (.snapshotted _) => some (s.setPass i .idle)
    | _ => none
  | .replace i =>
    match s.passes[i]? with
    | some (.merged _ start len file) =>
      (FileIndex.replaceRange start len file s.index).map fun index ↦ ⟨index, s.passes.set i .idle⟩
    | _ => none

/-! ## The run a pass works on -/

end Passes

namespace Pass

variable (c : Compactor)

/-- The snapshot of a pass and the run it has picked or is going to pick. -/
def target : Pass ρ → Option (List (SstFile ρ) × ℕ × ℕ)
  | .idle => none
  | .snapshotted files => (c.pick files).map fun (start, len) ↦ (files, start, len)
  | .merged files start len _ => some (files, start, len)

/-- The position behind the run; `0` without one. -/
def runEnd (p : Pass ρ) : ℕ := ((p.target c).map fun (_, start, len) ↦ start + len).getD 0

variable {files : List (SstFile ρ)}

theorem runEnd_of_target {c : Compactor} {p : Pass ρ}
    (h : p.target c = some (files, start, len)) : p.runEnd c = start + len := by
  rw [runEnd, h]
  rfl

variable (index : List (SstFile ρ))

/-- The index agrees with the snapshot up to the end of the run. -/
def Intact (p : Pass ρ) : Prop :=
  ∀ files start len, p.target c = some (files, start, len) →
    start + len ≤ files.length ∧ index.take (start + len) = files.take (start + len)

variable {c}

theorem intact_idle : Intact c index .idle := fun _ _ _ h ↦ by cases h

theorem intact_snapshotted : Intact c index (.snapshotted index) := by
  intro files start len h
  obtain ⟨⟨_, _⟩, hpick, heq⟩ := Option.map_eq_some_iff.mp h
  cases heq
  exact ⟨Compactor.le_length_of_pick hpick, rfl⟩

variable {index : List (SstFile ρ)}

theorem Intact.pickAndMerge (h : Intact c index (.snapshotted files)) (nowMs : ℤ) (fileSize : ℕ) :
    Intact c index (Passes.pickAndMerge c files nowMs fileSize) := by
  rw [Passes.pickAndMerge]
  split
  · exact intact_idle index
  · next start len hpick =>
    split
    · intro files' start' len' heq
      cases heq
      exact h files start len (by rw [target, hpick]; rfl)
    · exact intact_idle index

/-- **An update behind the run keeps the pass intact.** -/
theorem Intact.of_take {index' : List (SstFile ρ)} {p : Pass ρ} {n : ℕ} (h : Intact c index p)
    (hend : p.runEnd c ≤ n) (htake : index'.take n = index.take n) : Intact c index' p := by
  intro files start len htarg
  obtain ⟨hlen, heq⟩ := h files start len htarg
  rw [runEnd_of_target htarg] at hend
  refine ⟨hlen, ?_⟩
  rw [← heq, ← min_eq_left hend, ← take_take, htake, take_take]

theorem Intact.split {file : SstFile ρ}
    (h : Intact c index (.merged files start len file)) : start + len ≤ index.length ∧
      index = index.take start ++ (runOf files start len ++ index.drop (start + len)) := by
  obtain ⟨_, htake⟩ := h files start len rfl
  have hrun : runOf index start len = runOf files start len := by
    rw [runOf, runOf, take_drop, take_drop, htake]
  constructor
  · have := congrArg List.length htake
    simp only [length_take] at this
    omega
  · rw [← hrun]
    exact split_run index start len

end Pass

namespace Passes

variable (search : BinarySearch) (c : Compactor)

/-- The index is updated only behind the runs of the other passes. -/
def UpdatesBehind (s : Passes ρ) : PassAction ρ → Prop
  | .insert file =>
    ∀ p ∈ s.passes, p.runEnd c ≤ search.position (s.index.map fun f ↦ f.minTs) file.minTs
  | .replace i =>
    match s.passes[i]? with
    | some (.merged _ start _ _) => ∀ p ∈ s.passes.set i .idle, p.runEnd c ≤ start
    | _ => True
  | _ => True

instance (s : Passes ρ) (a : PassAction ρ) : Decidable (s.UpdatesBehind search c a) := by
  unfold UpdatesBehind
  split
  · infer_instance
  · split <;> infer_instance
  · infer_instance

variable {search c} {s s' : Passes ρ} {a : PassAction ρ}

theorem intact_setPass {i : ℕ} {p : Pass ρ} (h : ∀ q ∈ s.passes, q.Intact c s.index)
    (hp : p.Intact c s.index) : ∀ q ∈ (s.setPass i p).passes, q.Intact c s.index := by
  intro q hq
  rcases mem_or_eq_of_mem_set hq with hq | rfl
  · exact h q hq
  · exact hp

/-- **Every step keeps every pass intact**, if it updates the index only behind their runs. -/
theorem intact_step (h : ∀ p ∈ s.passes, p.Intact c s.index) (hok : s.UpdatesBehind search c a)
    (hstep : s.step search c a = some s') : ∀ p ∈ s'.passes, p.Intact c s'.index := by
  cases a with
  | insert =>
    cases hstep
    intro p hp
    exact (h p hp).of_take (hok p hp) (take_insertIdx_eq_take_of_le _ _ _ _ le_rfl)
  | snapshot =>
    simp only [step] at hstep
    split at hstep
    · cases hstep
      exact intact_setPass h (Pass.intact_snapshotted _)
    · cases hstep
  | merge =>
    simp only [step] at hstep
    split at hstep
    · next files hi =>
      cases hstep
      exact intact_setPass h ((h _ (mem_of_getElem? hi)).pickAndMerge _ _)
    · cases hstep
  | mergeFail =>
    simp only [step] at hstep
    split at hstep
    · cases hstep
      exact intact_setPass h (Pass.intact_idle _)
    · cases hstep
  | replace =>
    simp only [step] at hstep
    split at hstep
    · next files start len file hi =>
      have hlen := (h _ (mem_of_getElem? hi)).split.1
      rw [FileIndex.replaceRange_eq (by omega)] at hstep
      cases hstep
      intro p hp
      have hp' : p.Intact c s.index := by
        rcases mem_or_eq_of_mem_set hp with hp | rfl
        · exact h p hp
        · exact Pass.intact_idle _
      have hend : p.runEnd c ≤ start := by
        simp only [UpdatesBehind, hi] at hok
        exact hok p hp
      refine hp'.of_take hend ?_
      rw [take_append_of_le_length (by simp; omega), take_take, min_self]
    · cases hstep

theorem intact_of_reaches {index : List (SstFile ρ)} {count : ℕ}
    (h : Reaches (guarded (UpdatesBehind search c) (step search c)) (initial index count) s) :
    ∀ p ∈ s.passes, p.Intact c s.index := by
  refine h.invariant (I := fun s ↦ ∀ p ∈ s.passes, p.Intact c s.index) ?_ ?_
  · intro p hp
    obtain rfl := eq_of_mem_replicate hp
    exact Pass.intact_idle _
  · intro s a s' hs hstep
    obtain ⟨hok, hstep⟩ := guarded_eq_some.mp hstep
    exact intact_step hs hok hstep

/-- **A replacement exchanges exactly the inputs of the pass for the merged file**, in every run
whose steps update the index only behind the runs of the other passes. -/
theorem replace_exchanges_inputs [DecidableEq ρ] {index : List (SstFile ρ)} {count : ℕ}
    (h : Reaches (guarded (UpdatesBehind search c) (step search c)) (initial index count) s)
    {i : ℕ} {files : List (SstFile ρ)} {start len : ℕ} {file : SstFile ρ}
    (hi : s.passes[i]? = some (.merged files start len file)) :
    ((runOf files start len : List (SstFile ρ)) : Multiset (SstFile ρ)) ≤ s.index ∧
    ∃ s', s.step search c (.replace i) = some s' ∧
      (s'.index : Multiset (SstFile ρ)) =
        file ::ₘ
          ((s.index : Multiset (SstFile ρ)) - (runOf files start len : List (SstFile ρ))) := by
  obtain ⟨_, hsplit⟩ := (intact_of_reaches h _ (mem_of_getElem? hi)).split
  have hidx : (s.index : Multiset (SstFile ρ)) =
      (s.index.take start ++ s.index.drop (start + len) : List (SstFile ρ)) +
        (runOf files start len : List (SstFile ρ)) := by
    rw [Multiset.add_comm, Multiset.coe_add, Multiset.coe_eq_coe]
    nth_rewrite 1 [hsplit]
    exact perm_append_comm_assoc _ _ _
  have hstep : s.step search c (.replace i) =
      some ⟨s.index.take start ++ file :: s.index.drop (start + len), s.passes.set i .idle⟩ := by
    simp only [step, hi, FileIndex.replaceRange_eq (show start ≤ s.index.length by omega),
      Option.map_some]
  refine ⟨hidx ▸ Multiset.le_add_left _ _, _, hstep, ?_⟩
  rw [hidx, Multiset.add_sub_cancel_right, Multiset.cons_coe, Multiset.coe_eq_coe]
  exact perm_middle

/-! ## An insertion before the picked run -/

def sizeTiered : Compactor := ⟨"t", 100, .sizeTiered, 8⟩

/-- The files of the index when the pass starts. -/
def twoFiles : List (SstFile ℕ) :=
  [sampleFile 1 (10, 1) (11, 1) (by decide), sampleFile 2 (20, 2) (21, 2) (by decide)]

/-- A file that is flushed while the pass merges. -/
def flushedAt (ts : ℤ) : SstFile ℕ := sampleFile 3 (ts, 3) (ts + 1, 3) (Int.lt_succ ts)

/-- A flush that ends after the merged files leaves the pass intact. -/
theorem replace_after_late_flush :
    ∃ s, Reaches (guarded (UpdatesBehind firstNotLess sizeTiered) (step firstNotLess sizeTiered))
      (initial twoFiles 1) s ∧
    s.passes[0]? = some (.merged twoFiles 0 2 (mergedFile "t" 9 20 twoFiles)) ∧
    ∃ s', s.step firstNotLess sizeTiered (.replace 0) = some s' ∧
      (s'.index : Multiset (SstFile ℕ)) = mergedFile "t" 9 20 twoFiles ::ₘ
        ((s.index : Multiset (SstFile ℕ)) - (runOf twoFiles 0 2 : List (SstFile ℕ))) := by
  have hrun : Reaches (guarded (UpdatesBehind firstNotLess sizeTiered)
      (step firstNotLess sizeTiered)) (initial twoFiles 1) _ :=
    reaches_of_run [.snapshot 0, .merge 0 9 20, .insert (flushedAt 30)] rfl
  exact ⟨_, hrun, rfl, (replace_exchanges_inputs hrun (i := 0) rfl).2⟩

/-- The flushed file is inserted before the run, and is removed in place of one of the inputs. -/
theorem replace_removes_flushed_file :
    ∃ s, Reaches (step firstNotLess sizeTiered) (initial twoFiles 1) s ∧
    s.passes[0]? = some (.merged twoFiles 0 2 (mergedFile "t" 9 20 twoFiles)) ∧
    flushedAt 5 ∈ s.index ∧
    ∃ s', s.step firstNotLess sizeTiered (.replace 0) = some s' ∧
      flushedAt 5 ∉ s'.index ∧
      (s'.index : Multiset (SstFile ℕ)) ≠ mergedFile "t" 9 20 twoFiles ::ₘ
        ((s.index : Multiset (SstFile ℕ)) - (runOf twoFiles 0 2 : List (SstFile ℕ))) := by
  have hrun : Reaches (step firstNotLess sizeTiered) (initial twoFiles 1) _ :=
    reaches_of_run [.snapshot 0, .merge 0 9 20, .insert (flushedAt 5)] rfl
  exact ⟨_, hrun, rfl, by decide +kernel, _, rfl, by decide +kernel, by decide +kernel⟩

end Passes

end MonoTS
