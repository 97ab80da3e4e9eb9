import MonoTS.Stream.Progress
import MonoTS.Table.Reopen

/-!
# What the cursors of the streams keep in the WAL

A stream that lags behind reads the WAL. The registry of cursors therefore pins it: a WAL file may
be deleted only once the smallest cursor has passed its largest LSN, and every file if there is no
cursor. Storage learns the smallest cursor through the retention handle of the table.

The machine is the table that evolves, with bulk loads, together with the registry. Files are
deleted behind a flush and after a sink has committed, by `gc_sealed_wal_files`, which asks the
handle, and at the end of recovery by `gc_sealed_wal_files_at`, which does not. So recovery deletes
what an SST covers, pinned or not. `contract_iff` says that the runs in which every deletion honours
the cursors are those in which recovery finds no pinned file that is covered.
-/

open Transition List Option

namespace MonoTS

open Evolving

variable {Value : Type}

/-- `can_gc_lsn` of the retention handle. -/
def CaptureProgressRegistry.canGcLsn (r : CaptureProgressRegistry) (maxLsn : ℕ) : Bool :=
  if r.minRetainedLsn = retentionUnpinned then true else maxLsn ≤ r.minRetainedLsn

/-- A table with the registry that pins its WAL. -/
structure PinnedTable (Value : Type) where
  table : Evolving Value
  registry : CaptureProgressRegistry

/-- A step of the table or of the registry. -/
inductive PinnedAction (Value : Type) where
  /-- A step of the table that does not concern the registry. -/
  | table (action : EvolvingAction Value)
  | bulkLoad (action : TableAction (RecordBatch Value))
  /-- The SST of the next partition cannot be written, and recovery passes over it. -/
  | recoverFail (count : ℕ)
  /-- `destroy_wal_for_memtable` behind a flush. -/
  | flushGc
  /-- `gc_retained_wal`, when a sink has committed. -/
  | gcRetainedWal
  /-- A crash, with what the commit log has in its file by then. -/
  | crash (written : ℕ)
  | register (io : CommitIo) (progressId : String) (startLsn : ℕ)
  | advanceWith (io : CommitIo) (progressId : String) (lsn : ℕ) (durability : CommitDurability)
  | remove (io : CommitIo) (progressId : String)

namespace PinnedTable

/-- The batch frames of the WAL files, newest file last. -/
def files (s : PinnedTable Value) : List (List (Write (RecordBatch Value))) :=
  s.table.durable.files

variable (s : PinnedTable Value)

/-- The collection leaves out a file with this largest LSN. -/
def retained (hi : ℕ) : Bool := !s.registry.canGcLsn hi

/-- The steps of the table that are steps here as they are. A crash reopens the registry as well and
a collection asks it; and LSNs are numbers of 64 bits. -/
def admits : EvolvingAction Value → Bool
  | .durable .crash | .durable (.flushGc _) => false
  | .durable (.table (.putAppend _)) => s.table.durable.table.nextLsn < 2 ^ 64
  | _ => true

def withDurable (durable : Durable (RecordBatch Value)) : PinnedTable Value :=
  { s with table := { s.table with durable } }

def step (config : ReopenConfig Value) (s : PinnedTable Value) :
    PinnedAction Value → Option (PinnedTable Value)
  | .table a =>
    if s.admits a then (s.table.step config a).map fun table ↦ { s with table } else none
  | .bulkLoad a =>
    match s.table.durable.phase, s.table.alter with
    | .running, .idle =>
      if a.isBulk then
        (s.table.durable.table.step s.table.schema.shape a).map fun table ↦
          s.withDurable { s.table.durable with table }
      else none
    | _, _ => none
  | .recoverFail count =>
    match s.table.failed, s.table.durable.phase with
    | none, .replaying (_ :: todo) =>
      some (s.withDurable { s.table.durable with phase := .replaying (todo.drop count) })
    | _, _ => none
  | .flushGc =>
    (s.table.step config (.durable (.flushGc s.retained))).map fun table ↦ { s with table }
  | .gcRetainedWal => some (s.withDurable (s.table.durable.collect s.retained))
  | .crash written =>
    if s.registry.commit.written ≤ written then
      (s.table.step config (.durable .crash)).map fun table ↦
        { table
          registry := .open (.open s.registry.commit.path (s.registry.commit.entries.take written))
            s.registry.defaultDurability }
    else none
  | .register io progressId startLsn =>
    some { s with registry := (s.registry.register io progressId startLsn).2 }
  | .advanceWith io progressId lsn durability =>
    some { s with registry := (s.registry.advanceWith io progressId lsn durability).2 }
  | .remove io progressId => some { s with registry := (s.registry.remove io progressId).2 }

/-- The files that a step deletes. -/
def deleted : PinnedAction Value → List (List (Write (RecordBatch Value)))
  | .flushGc | .gcRetainedWal => (s.table.durable.gc s.retained).2
  | .table (.durable .recoverGc) => (s.table.durable.gc fun _ ↦ false).2
  | _ => []

/-- **The retention contract**, for one step. -/
def HonoursCursors (a : PinnedAction Value) : Prop :=
  ∀ file ∈ s.deleted a, maxLsnInFrames file ≤ s.registry.minRetainedLsn

/-- Recovery finds no file that is sealed, covered by an SST, and pinned. -/
def RecoversUnpinned : PinnedAction Value → Prop
  | .table (.durable .recoverGc) => ∀ file ∈ s.files.dropLast,
    (∃ sst ∈ s.table.durable.table.sstables, sst.coversLsn (maxLsnInFrames file) = true) →
      maxLsnInFrames file ≤ s.registry.minRetainedLsn
  | _ => True

def initial (schema : Schema) (registry : CaptureProgressRegistry) : PinnedTable Value where
  table := .initial schema
  registry := registry

end PinnedTable

/-! ## What a step does to the WAL files -/

/-- What can become of the WAL files in one step. -/
inductive WalChange {Batch : Type*} (d : Durable Batch) : List (List (Write Batch)) → Prop
  | same : WalChange d d.files
  | append (batch : Batch) (hlsn : d.table.nextLsn < 2 ^ 64) :
    WalChange d (appendFrame d.files (d.table.nextLsn, batch))
  | rotate : WalChange d (d.files ++ [[]])

namespace Durable

variable {Batch : Type*} {shape : BatchShape Batch} {d d' : Durable Batch}

theorem walChange_of_step {a : DurableAction Batch} (h : d.step shape a = some d')
    (hlsn : ∀ batch, a = .table (.putAppend batch) → d.table.nextLsn < 2 ^ 64) :
    WalChange d d'.files ∨ (∃ retained, a = .flushGc retained ∧ d'.files = (d.gc retained).1) ∨
      a = .recoverGc ∧ d'.files = (d.gc fun _ ↦ false).1 := by
  cases moves_of_step shape h with
  | table =>
    refine .inl ?_
    simp only [walAfter]
    split
    · exact .append _ (hlsn _ rfl)
    · exact .same
  | rotateWal => exact .inl .rotate
  | flushGc => exact .inr (.inl ⟨_, rfl, rfl⟩)
  | recoverGc => exact .inr (.inr ⟨rfl, rfl⟩)
  | _ => exact .inl .same

end Durable

theorem Evolving.walChange_of_step {config : ReopenConfig Value} {s s' : Evolving Value}
    {a : EvolvingAction Value} (h : s.step config a = some s')
    (hlsn : ∀ batch, a = .durable (.table (.putAppend batch)) → s.durable.table.nextLsn < 2 ^ 64) :
    WalChange s.durable s'.durable.files ∨
      (∃ retained, a = .durable (.flushGc retained) ∧
        s'.durable.files = (s.durable.gc retained).1) ∨
      a = .durable .recoverGc ∧ s'.durable.files = (s.durable.gc fun _ ↦ false).1 := by
  cases a with
  | durable a =>
    by_cases hcr : a = .crash
    · subst hcr
      cases h
      exact .inl .same
    by_cases hflu : ∃ count, a = .recoverFlush count
    · obtain ⟨count, rfl⟩ := hflu
      cases h
    rw [step.eq_3 config s a hcr fun count heq ↦ hflu ⟨count, heq⟩] at h
    split_ifs at h
    obtain ⟨d, hd, rfl⟩ := map_eq_some_iff.mp h
    rcases Durable.walChange_of_step hd fun batch heq ↦ hlsn batch (congrArg _ heq) with
      hsame | ⟨retained, rfl, hfs⟩ | ⟨rfl, hfs⟩
    · exact .inl hsame
    · exact .inr (.inl ⟨retained, rfl, hfs⟩)
    · exact .inr (.inr ⟨rfl, hfs⟩)
  | alterFreeze =>
    simp only [step] at h
    split at h
    · obtain ⟨d, hd, rfl⟩ := map_eq_some_iff.mp h
      rcases Durable.walChange_of_step hd (by rintro _ ⟨⟩) with hsame | ⟨_, ⟨⟩, _⟩ | ⟨⟨⟩, _⟩
      exact .inl hsame
    · cases h
  | recoverPart =>
    simp only [step] at h
    split at h
    · split at h
      · obtain ⟨_, hd, rfl⟩ := map_eq_some_iff.mp h
        rcases Durable.walChange_of_step hd (by rintro _ ⟨⟩) with hsame | ⟨_, ⟨⟩, _⟩ | ⟨⟨⟩, _⟩
        exact .inl hsame
      · cases h
        exact .inl .same
    · cases h
  | addColumn =>
    simp only [step] at h
    split at h
    · split at h <;> cases h <;> exact .inl .same
    · cases h
  | alterDrained | evolve | alterFail | alterPersist | alterDone =>
    simp only [step] at h
    split at h <;> cases h
    all_goals exact .inl .same

namespace PinnedTable

variable {config : ReopenConfig Value} {s s' : PinnedTable Value} {a : PinnedAction Value}

/-- **One step and the WAL files**: what a collection drops is deleted, and no other step deletes
any. -/
theorem walChange_of_step (h : s.step config a = some s') :
    WalChange s.table.durable s'.files ∨ ∃ retained,
      s.deleted a = (s.table.durable.gc retained).2 ∧
        s'.files = (s.table.durable.gc retained).1 := by
  cases a with
  | table a =>
    simp only [step] at h
    split_ifs at h with hadm
    obtain ⟨table, htab, rfl⟩ := map_eq_some_iff.mp h
    have hlsn : ∀ batch, a = .durable (.table (.putAppend batch)) →
        s.table.durable.table.nextLsn < 2 ^ 64 := by
      rintro batch rfl
      exact of_decide_eq_true hadm
    rcases walChange_of_step htab hlsn with hsame | ⟨_, rfl, _⟩ | ⟨rfl, hfs⟩
    · exact .inl hsame
    · cases hadm
    · exact .inr ⟨_, rfl, hfs⟩
  | flushGc =>
    obtain ⟨table, htab, rfl⟩ := map_eq_some_iff.mp h
    rcases walChange_of_step htab (by rintro _ ⟨⟩) with
      hsame | ⟨_, ⟨⟩, hfs⟩ | ⟨⟨⟩, _⟩
    · exact .inl hsame
    · exact .inr ⟨_, rfl, hfs⟩
  | gcRetainedWal =>
    cases h
    exact .inr ⟨_, rfl, rfl⟩
  | crash =>
    simp only [step] at h
    split_ifs at h
    obtain ⟨table, htab, rfl⟩ := map_eq_some_iff.mp h
    rcases walChange_of_step htab (by rintro _ ⟨⟩) with hsame | ⟨_, ⟨⟩, _⟩ | ⟨⟨⟩, _⟩
    exact .inl hsame
  | bulkLoad =>
    simp only [step] at h
    split at h
    · split_ifs at h
      obtain ⟨_, -, rfl⟩ := map_eq_some_iff.mp h
      exact .inl .same
    · cases h
  | recoverFail =>
    simp only [step] at h
    split at h <;> cases h
    exact .inl .same
  | register | advanceWith | remove =>
    cases h
    exact .inl .same

variable {file : List (Write (RecordBatch Value))}

/-! ## The contract -/

/-- The LSNs in the WAL have 64 bits. -/
def LsnsFit (s : PinnedTable Value) : Prop := ∀ w ∈ s.files.flatten, w.1 < 2 ^ 64

theorem LsnsFit.step (hfit : s.LsnsFit) (h : s.step config a = some s') : s'.LsnsFit := by
  intro w hw
  rcases walChange_of_step h with hchan | ⟨_, -, hfs⟩
  · generalize s'.files = files' at hchan hw
    cases hchan with
    | same => exact hfit w hw
    | append batch hlsn =>
      rcases mem_appendFrame.mp hw with hw | rfl
      · exact hfit w hw
      · exact hlsn
    | rotate =>
      rw [flatten_append, flatten_singleton, append_nil] at hw
      exact hfit w hw
  · rw [hfs] at hw
    obtain ⟨file, hfile, hw⟩ := mem_flatten.mp hw
    have hmem := (mem_of_mem_gcSealedWalFiles hfile).resolve_left not_mem_nil
    exact hfit w (mem_flatten.mpr ⟨file, hmem, hw⟩)

theorem LsnsFit.maxLsn_lt (hfit : s.LsnsFit) (hfile : file ∈ s.files) :
    maxLsnInFrames file < 2 ^ 64 := by
  refine Nat.lt_of_le_pred (by decide) (max_le_of_forall_le _ _ fun l hl ↦ ?_)
  obtain ⟨w, hw, rfl⟩ := List.mem_map.mp hl
  exact Nat.le_pred_of_lt (hfit w (mem_flatten.mpr ⟨file, hfile, hw⟩))

theorem retained_eq_false_iff {hi : ℕ} (h : hi < 2 ^ 64) :
    s.retained hi = false ↔ hi ≤ s.registry.minRetainedLsn := by
  rw [retained, Bool.not_eq_false', CaptureProgressRegistry.canGcLsn]
  split_ifs with hunp
  · rw [hunp]
    exact iff_of_true rfl (Nat.le_pred_of_lt h)
  · exact decide_eq_true_iff

theorem le_of_dropped (hfit : s.LsnsFit) (hfile : file ∈ (s.table.durable.gc s.retained).2) :
    maxLsnInFrames file ≤ s.registry.minRetainedLsn := by
  rcases Nat.eq_zero_or_pos (maxLsnInFrames file) with hzero | hpos
  · exact hzero.symm ▸ Nat.zero_le _
  · obtain ⟨hmem, hret, -⟩ := (mem_dropped_iff hpos).mp hfile
    exact (retained_eq_false_iff (hfit.maxLsn_lt (dropLast_subset _ hmem))).mp hret

theorem honoursCursors_iff (hfit : s.LsnsFit) : s.HonoursCursors a ↔ s.RecoversUnpinned a := by
  unfold RecoversUnpinned
  split
  · -- recovery collects without asking the handle
    constructor
    · intro h file hfile hcov
      rcases Nat.eq_zero_or_pos (maxLsnInFrames file) with hzero | hpos
      · exact hzero.symm ▸ Nat.zero_le _
      · exact h file ((mem_dropped_iff hpos).mpr ⟨hfile, rfl, hcov⟩)
    · intro h file hfile
      rcases Nat.eq_zero_or_pos (maxLsnInFrames file) with hzero | hpos
      · exact hzero.symm ▸ Nat.zero_le _
      · obtain ⟨hmem, -, hcov⟩ := (mem_dropped_iff hpos).mp hfile
        exact h file hmem hcov
  · next hoth =>
    refine iff_of_true ?_ trivial
    unfold HonoursCursors deleted
    split
    · exact fun file hfile ↦ le_of_dropped hfit hfile
    · exact fun file hfile ↦ le_of_dropped hfit hfile
    · exact absurd rfl hoth
    · exact forall_mem_nil _

/-- **The retention contract holds in exactly the runs in which recovery finds no pinned file that
is covered.** For every sequence of steps of a table and of its registry. -/
theorem contract_iff (config : ReopenConfig Value) (schema : Schema)
    (registry : CaptureProgressRegistry) (actions : List (PinnedAction Value)) :
    Along (step config) HonoursCursors (initial schema registry) actions ↔
      Along (step config) RecoversUnpinned (initial schema registry) actions := by
  have hinit : (initial schema registry : PinnedTable Value).LsnsFit := by
    intro w hw
    cases hw
  refine along_iff (I := LsnsFit) (fun s a s' hfit hstep ↦ ?_) actions hinit
  exact ⟨hfit.step hstep, honoursCursors_iff hfit⟩

/-- A registry with one stream, which has not acknowledged anything yet. -/
def laggingRegistry : CaptureProgressRegistry :=
  (CaptureProgressRegistry.register (.open (.open "commit.wal" []) .async) .done "s::log::t" 0).2

/-- A put, the next WAL file, a crash, and recovery up to its collection. -/
def restartBehindPut : List (PinnedAction ℕ) :=
  (putRow oldRow ++ [EvolvingAction.durable .rotateWal]).map .table ++
    [.crash 1, .table (.recoverPart 0 0)]

/-- **Recovery deletes a file that the stream still needs.** -/
theorem recovery_deletes_pinned_file :
    ∃ s, Reaches (step Evolving.smallMemory) (initial Evolving.timeSchema laggingRegistry) s ∧
      s.registry.minRetainedLsn = 0 ∧
      (s.step smallMemory (.table (.durable .recoverGc))).isSome ∧
      s.deleted (.table (.durable .recoverGc)) = [[(1, oldRow)]] ∧
      ¬ s.HonoursCursors (.table (.durable .recoverGc)) := by
  refine exists_reaches_of restartBehindPut (p := fun s ↦ s.registry.minRetainedLsn = 0 ∧
    (s.step smallMemory (.table (.durable .recoverGc))).isSome ∧
    s.deleted (.table (.durable .recoverGc)) = [[(1, oldRow)]]) (by decide +kernel) ?_
  rintro s - ⟨hmin, hsome, hdel⟩
  refine ⟨hmin, hsome, hdel, fun h ↦ ?_⟩
  have hle := h [(1, oldRow)] (hdel ▸ mem_singleton_self _)
  rw [hmin] at hle
  cases hle

end PinnedTable

end MonoTS
