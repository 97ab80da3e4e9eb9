import MonoTS.Table.Strata
import MonoTS.Wal.Collect
import MonoTS.Wal.Walk

/-!
# Crashes and the reclamation of WAL files

The table together with what is on disk: the numbered WAL files, newest last, each with its batch
frames in order, and the manifest that the catalog has persisted. A flush updates the index in
memory, collects the sealed WAL files the index covers, and only then has the manifest persisted; a
restart's recovery does the same. A crash keeps the WAL files and the manifest, and what the index
knew beyond the manifest is gone.

So there is a window in which frames are gone from the WAL on the strength of an SST that only the
lost index knows. `exposed` says that the window is open: a file was dropped that the manifest does
not cover. In runs without a crash in the window, and without a freeze that takes a memtable away
from under a put, every acknowledged write is in the manifest or in a WAL frame behind it, and in
the index after recovery.
-/

open Transition List

namespace MonoTS

open Table

variable {Batch : Type*}

/-! ## WAL files -/

/-- The largest LSN of the batch frames. -/
def maxLsnInFrames (frames : List (Write Batch)) : ℕ := (frames.map Prod.fst).foldr max 0

variable {w : Write Batch}

theorem le_maxLsnInFrames {frames : List (Write Batch)} (h : w ∈ frames) :
    w.1 ≤ maxLsnInFrames frames :=
  le_max_of_le (mem_map_of_mem h) le_rfl

/-- Append a frame to the newest file. -/
def appendFrame : List (List (Write Batch)) → Write Batch → List (List (Write Batch))
  | [], w => [[w]]
  | [active], w => [active ++ [w]]
  | file :: next :: files, w => file :: appendFrame (next :: files) w

theorem mem_appendFrame {files : List (List (Write Batch))} {w x : Write Batch} :
    x ∈ (appendFrame files w).flatten ↔ x ∈ files.flatten ∨ x = w := by
  fun_induction appendFrame files w with
  | case1 | case2 => simp
  | case3 file next files w ih =>
    rw [flatten_cons, mem_append, ih, flatten_cons (l := file), mem_append, or_assoc]

/-! ## Tracked writes -/

namespace Table

variable {shape : BatchShape Batch} {t t' : Table Batch} {a : TableAction Batch} {w : Write Batch}

/-- The write was inserted, and its put has returned or will return `Ok`. -/
def Settled (t : Table Batch) (w : Write Batch) : Prop :=
  w ∈ t.acked ∨ ∃ rotate, t.writer = .inserted w rotate

/-- The write was appended to the WAL by a put that has not failed. -/
def Tracked (t : Table Batch) (w : Write Batch) : Prop :=
  t.unstored = some w ∨ t.Settled w

section

variable (ht : Trans shape t a t')

include ht

theorem settled_of_trans (hw : t'.Settled w) :
    t.Settled w ∨ ∃ accounting mem m rotate, t.writer = .recorded w mem ∧
      (t.heap mem).insertForTable shape w accounting = (m, .ok rotate) ∧
      t' = { t.setMem mem m with writer := .inserted w rotate } := by
  have hkeep (hack : t'.acked = t.acked)
      (hpc : ∀ rotate, t'.writer = .inserted w rotate → ∃ rotate, t.writer = .inserted w rotate) :
      t.Settled w := by
    rcases hw with hw | ⟨rotate, hw⟩
    · exact .inl (hack ▸ hw)
    · exact .inr (hpc rotate hw)
  cases ht with
  | putAppend | putClone | putRecord | putInsertErr => exact .inl (hkeep rfl (by rintro _ ⟨⟩))
  | bulkRefused | bulkAllocate | bulkPublish | bulkReturn =>
    exact .inl (hkeep rfl (by rintro _ ⟨⟩))
  | putSwitchFail | bulkBegin => exact .inl (hkeep t.freeze_acked (by rintro _ ⟨⟩))
  | reclaimFreeze | flushAllFreeze =>
    exact .inl (hkeep t.freeze_acked fun rotate hpc ↦ ⟨rotate, t.freeze_writer ▸ hpc⟩)
  | putSwitch hpc => exact .inl (hkeep t.freeze_acked (by rintro _ ⟨⟩; exact ⟨true, hpc⟩))
  | putReturn hpc =>
    rcases hw with hw | ⟨rotate, hw⟩
    · rcases mem_append.mp hw with hw | hw
      · exact .inl (.inl hw)
      · rw [mem_singleton.mp hw]
        exact .inl (.inr ⟨false, hpc⟩)
    · cases hw
  | putInsertOk hpc hi =>
    rcases hw with hw | ⟨rotate, hw⟩
    · exact .inl (.inl hw)
    · cases hw
      exact .inr ⟨_, _, _, _, hpc, hi, rfl⟩
  | _ => exact .inl (hkeep rfl fun rotate hpc ↦ ⟨rotate, hpc⟩)

theorem unstored_of_trans (hw : t'.unstored = some w) :
    t.unstored = some w ∨ ∃ batch, a = .putAppend batch ∧ w = (t.nextLsn, batch) := by
  cases ht with
  | putAppend batch => exact .inr ⟨batch, rfl, (Option.some.inj hw).symm⟩
  | putClone hpc | putRecord hpc => exact .inl (by simpa only [unstored, hpc] using hw)
  | putInsertOk | putInsertErr | putSwitch | putSwitchFail | putReturn | bulkBegin | bulkRefused
  | bulkAllocate | bulkPublish | bulkReturn => cases hw
  | reclaimFreeze | flushAllFreeze => exact .inl (by simpa only [unstored, freeze_writer] using hw)
  | _ => exact .inl hw

/-- A put tracks its own write, and a step tracks no other. -/
theorem tracked_of_trans (hw : t'.Tracked w) :
    t.Tracked w ∨ ∃ batch, a = .putAppend batch ∧ w = (t.nextLsn, batch) := by
  rcases hw with hw | hw
  · exact (unstored_of_trans ht hw).imp_left .inl
  · rcases settled_of_trans ht hw with hw | ⟨_, _, _, _, hpc, -, -⟩
    · exact .inl (.inr hw)
    · exact .inl (.inl (by simp only [unstored, hpc]))

end

theorem Coupled.settled_trans (h : t.Coupled) (hs : ∀ w, t.Settled w → t.layers.Placed shape w)
    (ht : Trans shape t a t') : ∀ w, t'.Settled w → t'.layers.Placed shape w := by
  intro w hw
  rcases settled_of_trans ht hw with hw | ⟨_, _, _, _, hpc, hi, rfl⟩
  · exact h.placed_trans ht (hs w hw)
  · exact h.placed_insert hpc hi fun hrows ↦ MemTable.mem_of_insertForTable_ok hrows hi

theorem sstables_trans (ht : Trans shape t a t') : ∀ s ∈ t.sstables, s ∈ t'.sstables := by
  intro s hs
  cases ht with
  | putSwitch | putSwitchFail | bulkBegin | reclaimFreeze | flushAllFreeze =>
    exact t.freeze_sstables.symm ▸ hs
  | bulkPublish | flushApply => exact mem_append_left _ hs
  | _ => exact hs

theorem Coupled.tracked_in_sst (h : t.Coupled) (hs : ∀ w, t.Settled w → t.layers.Placed shape w)
    (hw : t.Tracked w) (hrows : shape.numRows w.2 ≠ 0) :
    (∃ s ∈ t.sstables, w ∈ s.contents) ∨ maxLsnInSstMetas t.sstables < w.1 := by
  rcases hw with hu | hset
  · exact .inr (h.lt_of_unstored hu)
  · rcases le_or_gt w.1 (maxLsnInSstMetas t.sstables) with hle | hlt
    · obtain ⟨s, hmem, hhold⟩ := (hs w hset).in_sst h.strata hle
      exact .inl ⟨s, hmem, hhold.rows hrows⟩
    · exact .inr hlt

end Table

/-! ## The durable table -/

/-- Where a restart stands: the frames still to be rebuilt, then WAL files collected, then done. -/
inductive Phase (Batch : Type*) where
  | running
  | replaying (todo : List (Write Batch))
  | collected
  | ready

/-- A table with its files. -/
structure Durable (Batch : Type*) where
  table : Table Batch
  /-- The batch frames of the numbered WAL files, newest file last. -/
  files : List (List (Write Batch))
  /-- The SSTs the catalog has persisted. -/
  manifest : List (Sst (Write Batch))
  /-- The writes acknowledged before the last crash. -/
  acked : List (Write Batch)
  phase : Phase Batch
  /-- The flush in progress has collected WAL files. -/
  flushCollected : Bool
  /-- Since the manifest was persisted, a WAL file was dropped whose LSNs it does not cover. -/
  exposed : Bool

/-- A step of the table, a crash or recovery. -/
inductive DurableAction (Batch : Type*) where
  /-- A step of the table; bulk loads have a log of their own and are left out. When a flush
  finishes without the manifest being persisted, collecting or persisting has failed. -/
  | table (action : TableAction Batch)
  /-- The WAL starts its next numbered file. -/
  | rotateWal
  /-- Collect sealed WAL files after a flush; captures may hold some back. -/
  | flushGc (retained : ℕ → Bool)
  | flushPersist
  | crash
  /-- Rebuild the next frames into an SST. -/
  | recoverFlush (count : ℕ)
  | recoverGc
  | recoverPersist
  | recoverPersistFail
  | start

def TableAction.isBulk : TableAction Batch → Bool
  | .bulkBegin _ | .bulkAllocate | .bulkPublish | .bulkReturn => true
  | _ => false

namespace Durable

variable (shape : BatchShape Batch) (d : Durable Batch)

/-- The WAL after a step of the table. -/
def walAfter : TableAction Batch → List (List (Write Batch))
  | .putAppend batch => appendFrame d.files (d.table.nextLsn, batch)
  | _ => d.files

/-- The WAL files that a collection leaves, and those it drops. -/
def gc (retained : ℕ → Bool) : List (List (Write Batch)) × List (List (Write Batch)) :=
  gcSealedWalFiles maxLsnInFrames (fun f ↦ !f.isEmpty) retained d.table.sstables [] d.files

/-- Drop the sealed files that the index covers. -/
def collect (retained : ℕ → Bool) : Durable Batch :=
  { d with
    files := (d.gc retained).1
    exposed := d.exposed || (d.gc retained).2.any fun f ↦
      0 < maxLsnInFrames f && !(d.manifest.any fun s ↦ s.coversLsn (maxLsnInFrames f)) }

/-- Persist the index. -/
def persist : Durable Batch :=
  { d with manifest := d.table.sstables, exposed := false }

variable (frames : List (Write Batch))

/-- The span of a run of frames. -/
def recoverSpan : MemTable Batch :=
  frames.foldl (fun m w ↦ m.recordLsn w.1) .new

/-- The memtable that recovery rebuilds from a run of frames. -/
def recoverMem : MemTable Batch :=
  { recoverSpan frames with
    chunks := frames.filter fun w ↦ shape.numRows w.2 ≠ 0 }

/-- Open the table from what is on disk: the index is the manifest, the allocator starts behind
every LSN found, and the frames the manifest does not cover are to be rebuilt. -/
def restart : Durable Batch :=
  let sstMaxLsn := maxLsnInSstMetas d.manifest
  { d with
    table := .initial d.manifest (max (maxLsnInFrames d.files.flatten) sstMaxLsn + 1)
    acked := d.acked ++ d.table.acked
    phase := .replaying (d.files.flatten.filter fun w ↦
      batchNeedsRecover w.1 sstMaxLsn (!d.manifest.isEmpty))
    flushCollected := false }

/-- Whether the flush has collected files, after a step of the table. -/
def collectedAfter : TableAction Batch → Bool
  | .flushFinish => false
  | _ => d.flushCollected

def step (d : Durable Batch) : DurableAction Batch → Option (Durable Batch)
  | .table a =>
    match d.phase with
    | .running =>
      if a.isBulk then none
      else
        (d.table.step shape a).map fun t ↦
          { d with table := t, files := d.walAfter a, flushCollected := d.collectedAfter a }
    | _ => none
  | .rotateWal =>
    match d.phase with
    | .running => some { d with files := d.files ++ [[]] }
    | _ => none
  | .flushGc retained =>
    match d.phase, d.table.flusher, d.flushCollected with
    | .running, .released _, false => some { d.collect retained with flushCollected := true }
    | _, _, _ => none
  | .flushPersist =>
    match d.phase, d.table.flusher, d.flushCollected with
    | .running, .released _, true =>
      some { d.persist with table := { d.table with flusher := .idle }, flushCollected := false }
    | _, _, _ => none
  | .crash => some d.restart
  | .recoverFlush count =>
    match d.phase with
    | .replaying (w :: todo) =>
      let part := recoverMem shape (w :: todo.take count)
      let sstables := if part.isEmpty then d.table.sstables else d.table.sstables ++ [part.toSst]
      some
        { d with
          table := { d.table with sstables := sstables }
          phase := .replaying (todo.drop count) }
    | _ => none
  | .recoverGc =>
    match d.phase with
    | .replaying [] => some { d.collect fun _ ↦ false with phase := .collected }
    | _ => none
  | .recoverPersist =>
    match d.phase with
    | .collected => some { d.persist with phase := .ready }
    | _ => none
  | .recoverPersistFail =>
    match d.phase with
    | .collected => some { d with phase := .ready }
    | _ => none
  | .start =>
    match d.phase with
    | .ready => some { d with phase := .running }
    | _ => none

/-- Everything a step can do. -/
inductive Moves (d : Durable Batch) : DurableAction Batch → Durable Batch → Prop
  | table {a t} (hph : d.phase = .running) (hbulk : a.isBulk = false)
    (ht : Table.Trans shape d.table a t) : Moves d (.table a)
      { d with table := t, files := d.walAfter a, flushCollected := d.collectedAfter a }
  | rotateWal (hph : d.phase = .running) : Moves d .rotateWal { d with files := d.files ++ [[]] }
  | flushGc {retained} (hph : d.phase = .running) :
    Moves d (.flushGc retained) { d.collect retained with flushCollected := true }
  | flushPersist {sst} (hph : d.phase = .running) (hfl : d.table.flusher = .released sst) :
    Moves d .flushPersist
      { d.persist with table := { d.table with flusher := .idle }, flushCollected := false }
  | crash : Moves d .crash d.restart
  | recoverFlush {w todo count} (hph : d.phase = .replaying (w :: todo)) :
    Moves d (.recoverFlush count) <|
      let part := recoverMem shape (w :: todo.take count)
      let sstables := if part.isEmpty then d.table.sstables else d.table.sstables ++ [part.toSst]
      { d with
        table := { d.table with sstables := sstables }
        phase := .replaying (todo.drop count) }
  | recoverGc (hph : d.phase = .replaying []) :
    Moves d .recoverGc { d.collect fun _ ↦ false with phase := .collected }
  | recoverPersist (hph : d.phase = .collected) :
    Moves d .recoverPersist { d.persist with phase := .ready }
  | recoverPersistFail (hph : d.phase = .collected) :
    Moves d .recoverPersistFail { d with phase := .ready }
  | start (hph : d.phase = .ready) : Moves d .start { d with phase := .running }

theorem moves_of_step {d d' : Durable Batch} {a : DurableAction Batch}
    (h : d.step shape a = some d') : Moves shape d a d' := by
  cases a <;> simp only [step] at h
  case table =>
    split at h
    · next hph =>
      obtain ⟨hbulk, h⟩ := Option.ite_none_left_eq_some.mp h
      obtain ⟨_, ht, rfl⟩ := Option.map_eq_some_iff.mp h
      exact .table hph (Bool.not_eq_true _ ▸ hbulk) (trans_of_step shape ht)
    · cases h
  case crash =>
    cases h
    exact .crash
  all_goals
    split at h <;> cases h
    constructor <;> assumption

/-- A new table. -/
def initial : Durable Batch where
  table := .initial [] 1
  files := [[]]
  manifest := []
  acked := []
  phase := .running
  flushCollected := false
  exposed := false

/-- A crash finds no WAL file dropped that the manifest does not cover, and a freeze does not take
the memtable away from under a put. -/
def CrashSafe : DurableAction Batch → Prop
  | .crash => d.exposed = false
  | .table a => d.table.FreezesLocked a
  | _ => True

instance (a : DurableAction Batch) : Decidable (d.CrashSafe a) := by
  unfold CrashSafe
  split <;> infer_instance

/-! ## What is safe on disk -/

variable {shape} {d d' : Durable Batch} {w : Write Batch}

/-- The write survives a crash: the manifest has it, or recovery will find its frame. -/
def Safe (d : Durable Batch) (w : Write Batch) : Prop :=
  (∃ s ∈ d.manifest, w ∈ s.contents) ∨
    w ∈ d.files.flatten ∧ maxLsnInSstMetas d.manifest < w.1

theorem mem_collect (retained : ℕ → Bool) (hw : w ∈ d.files.flatten) :
    w ∈ (d.collect retained).files.flatten ∨ w.1 ≤ maxLsnInSstMetas d.table.sstables := by
  obtain ⟨f, hf, hwf⟩ := mem_flatten.mp hw
  rcases Nat.eq_zero_or_pos w.1 with hzero | hpos
  · exact .inr (hzero.trans_le (Nat.zero_le _))
  have hgc : f ∈ (d.gc retained).1 ∨ f ∈ (d.gc retained).2 := mem_gcSealedWalFiles (.inr hf)
  rcases hgc with hkept | hdrop
  · exact .inl (mem_flatten.mpr ⟨f, hkept, hwf⟩)
  · have hle := le_maxLsnInFrames hwf
    obtain ⟨_, hs, hcov⟩ := covered_of_dropped hdrop (hpos.trans_le hle)
    exact .inr ((hle.trans (Sst.coversLsn_iff.mp hcov).2.2).trans (le_maxLsnInSstMetas hs))

variable {retained : ℕ → Bool} {todo frames : List (Write Batch)}

/-- A collection that does not open the window drops no frame behind the manifest. -/
theorem Safe.collect (h : d.Safe w) (hexp : (d.collect retained).exposed = false) :
    (d.collect retained).Safe w := by
  rcases h with h | ⟨hw, hlt⟩
  · exact .inl h
  obtain ⟨f, hf, hwf⟩ := mem_flatten.mp hw
  have hgc : f ∈ (d.gc retained).1 ∨ f ∈ (d.gc retained).2 := mem_gcSealedWalFiles (.inr hf)
  rcases hgc with hkept | hdrop
  · exact .inr ⟨mem_flatten.mpr ⟨f, hkept, hwf⟩, hlt⟩
  · have hle := le_maxLsnInFrames hwf
    have hpos : 0 < maxLsnInFrames f := ((Nat.zero_le _).trans_lt hlt).trans_le hle
    have hcov := any_eq_false.mp (Bool.or_eq_false_iff.mp hexp).2 f hdrop
    rw [Bool.and_eq_true, not_and, decide_eq_true_eq, Bool.not_eq_true', Bool.not_eq_false,
      any_eq_true] at hcov
    obtain ⟨_, hs, hcov⟩ := hcov hpos
    -- The manifest reaches the file's last LSN, and so this write's.
    have hmax := (hle.trans (Sst.coversLsn_iff.mp hcov).2.2).trans (le_maxLsnInSstMetas hs)
    exact absurd hlt hmax.not_gt

theorem exposed_of_collect (h : (d.collect retained).exposed = false) :
    d.exposed = false := (Bool.or_eq_false_iff.mp h).1

/-! ## The invariant -/

/-- While the table runs. -/
structure Running (shape : BatchShape Batch) (d : Durable Batch) : Prop where
  coupled : d.table.Coupled
  settled : ∀ w, d.table.Settled w → d.table.layers.Placed shape w
  sub : ∀ s ∈ d.manifest, s ∈ d.table.sstables
  retained : ∀ w, d.table.Tracked w →
    w ∈ d.files.flatten ∨ w.1 ≤ maxLsnInSstMetas d.table.sstables
  durable : d.exposed = false → ∀ w, d.table.Tracked w ∨ w ∈ d.acked →
    shape.numRows w.2 ≠ 0 → d.Safe w
  old : ∀ w ∈ d.acked, shape.numRows w.2 ≠ 0 → ∃ s ∈ d.table.sstables, w ∈ s.contents

/-- While a restart rebuilds frames. -/
structure Replaying (shape : BatchShape Batch) (d : Durable Batch) (todo : List (Write Batch)) :
    Prop where
  fresh : d.table = .initial d.table.sstables d.table.nextLsn
  next_pos : 0 < d.table.nextLsn
  sst_lt : ∀ s ∈ d.table.sstables, s.maxLsn < d.table.nextLsn
  todo_lt : ∀ w ∈ todo, w.1 < d.table.nextLsn
  sub : ∀ s ∈ d.manifest, s ∈ d.table.sstables
  durable : d.exposed = false → ∀ w ∈ d.acked, shape.numRows w.2 ≠ 0 → d.Safe w
  old : ∀ w ∈ d.acked, shape.numRows w.2 ≠ 0 →
    (∃ s ∈ d.table.sstables, w ∈ s.contents) ∨ w ∈ todo

/-- The invariant of the durable table. -/
def Inv (shape : BatchShape Batch) (d : Durable Batch) : Prop :=
  match d.phase with
  | .running => d.Running shape
  | .replaying todo => d.Replaying shape todo
  | .collected | .ready => d.Replaying shape []

theorem inv_running (hph : d.phase = .running) : d.Inv shape ↔ d.Running shape := by
  rw [Inv, hph]

theorem inv_replaying (hph : d.phase = .replaying todo) : d.Inv shape ↔ d.Replaying shape todo := by
  rw [Inv, hph]

theorem inv_collected (hph : d.phase = .collected) : d.Inv shape ↔ d.Replaying shape [] := by
  rw [Inv, hph]

theorem inv_ready (hph : d.phase = .ready) : d.Inv shape ↔ d.Replaying shape [] := by
  rw [Inv, hph]

theorem Running.inv (h : d.Running shape) (hph : d.phase = .running) : d.Inv shape :=
  (inv_running hph).mpr h

/-! ### Running -/

theorem Running.trans {a : TableAction Batch} {t : Table Batch} (h : d.Running shape)
    (hbulk : a.isBulk = false) (hlock : d.table.FreezesLocked a)
    (ht : Table.Trans shape d.table a t) :
    Running shape
      { d with table := t, files := d.walAfter a, flushCollected := d.collectedAfter a } := by
  have hseal : d.table.BulkSealed a := by
    unfold Table.BulkSealed
    split
    · cases hbulk
    · trivial
  have hmono := maxLsnInSstMetas_mono (sstables_trans ht)
  have hfs : ∀ w ∈ d.files.flatten, w ∈ (d.walAfter a).flatten := by
    intro w hw
    unfold walAfter
    split
    · exact mem_appendFrame.mpr (.inl hw)
    · exact hw
  have hnew : ∀ batch, a = .putAppend batch →
      (d.table.nextLsn, batch) ∈ (d.walAfter a).flatten := by
    rintro batch rfl
    exact mem_appendFrame.mpr (.inr rfl)
  have hnext : maxLsnInSstMetas d.manifest < d.table.nextLsn :=
    maxLsnInSstMetas_lt h.coupled.strata.next_pos fun s hs ↦
      h.coupled.strata.sst_lt_next s (h.sub s hs)
  have hsafe : ∀ w, d.Safe w → (∃ s ∈ d.manifest, w ∈ s.contents) ∨
      w ∈ (d.walAfter a).flatten ∧ maxLsnInSstMetas d.manifest < w.1 :=
    fun w hw ↦ hw.imp_right fun hw ↦ ⟨hfs w hw.1, hw.2⟩
  refine ⟨h.coupled.trans hlock hseal ht, h.coupled.settled_trans h.settled ht,
    fun s hs ↦ sstables_trans ht s (h.sub s hs), ?_, ?_, ?_⟩
  · intro w hw
    rcases tracked_of_trans ht hw with hw | ⟨batch, ha, rfl⟩
    · exact (h.retained w hw).imp (hfs w) fun hle ↦ hle.trans hmono
    · exact .inl (hnew batch ha)
  · intro hexp w hw hrows
    rcases hw with hw | hw
    · rcases tracked_of_trans ht hw with hw | ⟨batch, ha, rfl⟩
      · exact hsafe w (h.durable hexp w (.inl hw) hrows)
      · exact .inr ⟨hnew batch ha, hnext⟩
    · exact hsafe w (h.durable hexp w (.inr hw) hrows)
  · intro w hw hrows
    obtain ⟨s, hs, hmem⟩ := h.old w hw hrows
    exact ⟨s, sstables_trans ht s hs, hmem⟩

theorem Running.rotateWal (h : d.Running shape) :
    Running shape { d with files := d.files ++ [[]] } := by
  have hfs : (d.files ++ [[]]).flatten = d.files.flatten := by
    rw [flatten_append, flatten_singleton, append_nil]
  refine ⟨h.coupled, h.settled, h.sub, fun w hw ↦ hfs.symm ▸ h.retained w hw, ?_, h.old⟩
  intro hexp w hw hrows
  exact (h.durable hexp w hw hrows).imp_right fun hw ↦ ⟨hfs.symm ▸ hw.1, hw.2⟩

theorem Running.collect (h : d.Running shape) (retained : ℕ → Bool) :
    Running shape { d.collect retained with flushCollected := true } where
  __ := h
  retained := by
    intro w hw
    rcases h.retained w hw with hfile | hle
    · exact mem_collect retained hfile
    · exact .inr hle
  durable := fun hexp w hw hrows ↦
    (h.durable (exposed_of_collect hexp) w hw hrows).collect hexp

/-- Once the index is persisted, every tracked write is safe. -/
theorem Running.persist (h : d.Running shape) : d.persist.Running shape where
  __ := h
  sub := fun _ ↦ id
  durable := by
    intro _ w hw hrows
    rcases hw with hw | hw
    · rcases h.coupled.tracked_in_sst h.settled hw hrows with hsst | hlt
      · exact .inl hsst
      · exact .inr ⟨(h.retained w hw).resolve_right hlt.not_ge, hlt⟩
    · exact .inl (h.old w hw hrows)

/-! ### Restarting -/

/-- What is safe on disk is in the index of a restarted table, or among the frames to rebuild. -/
theorem replaying_restart
    (hsafe : d.exposed = false → ∀ w ∈ d.acked ++ d.table.acked, shape.numRows w.2 ≠ 0 → d.Safe w)
    (hexp : d.exposed = false) :
    Replaying shape d.restart (d.files.flatten.filter fun w ↦
      batchNeedsRecover w.1 (maxLsnInSstMetas d.manifest) (!d.manifest.isEmpty)) where
  fresh := rfl
  next_pos := Nat.succ_pos _
  sst_lt := fun s hs ↦ Nat.lt_succ_of_le ((le_maxLsnInSstMetas hs).trans (le_max_right _ _))
  todo_lt := fun w hw ↦ Nat.lt_succ_of_le
    ((le_maxLsnInFrames (mem_filter.mp hw).1).trans (le_max_left _ _))
  sub := fun _ ↦ id
  durable := hsafe
  old := by
    intro w hw hrows
    refine (hsafe hexp w hw hrows).imp_right fun ⟨hfile, hlt⟩ ↦ ?_
    refine mem_filter.mpr ⟨hfile, ?_⟩
    rw [batchNeedsRecover, if_pos ((Nat.zero_le _).trans_lt hlt)]
    exact decide_eq_true hlt

theorem Running.restart (h : d.Running shape) (hexp : d.exposed = false) : d.restart.Inv shape := by
  refine replaying_restart (fun hexp w hw ↦ h.durable hexp w ?_) hexp
  rcases mem_append.mp hw with hw | hw
  · exact .inr hw
  · exact .inl (.inr (.inl hw))

theorem Replaying.restart (h : d.Replaying shape todo) (hexp : d.exposed = false) :
    d.restart.Inv shape := by
  refine replaying_restart (fun hexp w hw ↦ h.durable hexp w ?_) hexp
  rwa [h.fresh, show (Table.initial d.table.sstables d.table.nextLsn).acked = [] from rfl,
    append_nil] at hw

/-! ### Recovering -/

theorem recoverSpan_lt {n : ℕ} (hn : 0 < n) (h : ∀ w ∈ frames, w.1 < n) :
    (recoverSpan frames).baseLsn < n ∧ (recoverSpan frames).maxLsn < n := by
  suffices hfold : ∀ m : MemTable Batch, m.baseLsn < n ∧ m.maxLsn < n →
      (frames.foldl (fun m w ↦ m.recordLsn w.1) m).baseLsn < n ∧
        (frames.foldl (fun m w ↦ m.recordLsn w.1) m).maxLsn < n from hfold .new ⟨hn, hn⟩
  induction frames with
  | nil => exact fun m hm ↦ hm
  | cons w frames ih =>
    intro m hm
    refine ih (fun x hx ↦ h x (mem_cons_of_mem _ hx)) _ ?_
    have hlt := h w mem_cons_self
    show (m.recordLsn w.1).baseLsn < n ∧ (m.recordLsn w.1).maxLsn < n
    unfold MemTable.recordLsn
    split_ifs
    · exact hm
    · exact ⟨hlt, max_lt hm.2 hlt⟩
    · exact ⟨hm.1, max_lt hm.2 hlt⟩

theorem recoverMem_toSst_lt {n : ℕ} (hn : 0 < n) (h : ∀ w ∈ frames, w.1 < n) :
    (recoverMem shape frames).toSst.maxLsn < n := by
  obtain ⟨hbase, hmax⟩ := recoverSpan_lt hn h
  show (recoverMem shape frames).lsnSpan.2 < n
  unfold MemTable.lsnSpan
  split_ifs
  · exact hn
  · exact hbase
  · exact hmax

theorem Replaying.recoverFlush (h : d.Replaying shape (w :: todo)) (count : ℕ) :
    let part := recoverMem shape (w :: todo.take count)
    let sstables := if part.isEmpty then d.table.sstables else d.table.sstables ++ [part.toSst]
    Replaying shape
      { d with
        table := { d.table with sstables := sstables }
        phase := .replaying (todo.drop count) } (todo.drop count) := by
  intro part sstables
  have hsplit : w :: todo = (w :: todo.take count) ++ todo.drop count := by
    rw [cons_append, take_append_drop]
  have hpart : ∀ x ∈ w :: todo.take count, x.1 < d.table.nextLsn := fun x hx ↦
    h.todo_lt x (hsplit ▸ mem_append_left _ hx)
  have hmono : ∀ s ∈ d.table.sstables, s ∈ sstables := by
    intro s hs
    show s ∈ if part.isEmpty = true then _ else _
    split_ifs
    · exact hs
    · exact mem_append_left _ hs
  refine ⟨congrArg (fun t ↦ { t with sstables := sstables }) h.fresh, h.next_pos, ?_, ?_,
    fun s hs ↦ hmono s (h.sub s hs), h.durable, ?_⟩
  · show ∀ s ∈ if part.isEmpty = true then _ else _, _
    split_ifs
    · exact h.sst_lt
    · exact forall_mem_append.mpr ⟨h.sst_lt,
        forall_mem_singleton.mpr (recoverMem_toSst_lt h.next_pos hpart)⟩
  · exact fun x hx ↦ h.todo_lt x (hsplit ▸ mem_append_right _ hx)
  · intro x hx hrows
    rcases h.old x hx hrows with ⟨s, hs, hmem⟩ | hmem
    · exact .inl ⟨s, hmono s hs, hmem⟩
    · rw [hsplit, mem_append] at hmem
      rcases hmem with hmem | hmem
      · -- A write with rows makes the partition's memtable one that is flushed.
        have hch : x ∈ part.chunks := mem_filter.mpr ⟨hmem, decide_eq_true hrows⟩
        have hfull : ¬ part.isEmpty = true := fun he ↦ by
          rw [List.isEmpty_iff.mp he] at hch
          cases hch
        refine .inl ⟨part.toSst, ?_, hch⟩
        show _ ∈ if part.isEmpty = true then _ else _
        rw [if_neg hfull]
        exact mem_append_right _ mem_cons_self
      · exact .inr hmem

theorem Replaying.collect (h : d.Replaying shape todo) (retained : ℕ → Bool) :
    Replaying shape { d.collect retained with phase := .collected } todo where
  __ := h
  durable := fun hexp w hw hrows ↦
    (h.durable (exposed_of_collect hexp) w hw hrows).collect hexp

section

variable (h : d.Replaying shape [])

include h

theorem Replaying.all_in_index (hw : w ∈ d.acked)
    (hrows : shape.numRows w.2 ≠ 0) : ∃ s ∈ d.table.sstables, w ∈ s.contents :=
  (h.old w hw hrows).resolve_right not_mem_nil

theorem Replaying.persist : Replaying shape { d.persist with phase := .ready } [] where
  __ := h
  sub := fun _ ↦ id
  durable := fun _ _ hw hrows ↦ .inl (h.all_in_index hw hrows)

theorem Replaying.start : Running shape { d with phase := .running } := by
  have hquiet : ∀ w, ¬ d.table.Tracked w := by
    intro w hw
    rw [h.fresh] at hw
    rcases hw with hw | hw | ⟨_, hw⟩ <;> cases hw
  refine ⟨?_, fun w hw ↦ absurd (.inr hw) (hquiet w), h.sub, fun w hw ↦ absurd hw (hquiet w), ?_,
    fun w hw hrows ↦ h.all_in_index hw hrows⟩
  · show d.table.Coupled
    rw [h.fresh]
    exact coupled_initial h.next_pos h.sst_lt
  · intro hexp w hw hrows
    exact h.durable hexp w (hw.resolve_left (hquiet w)) hrows

end

/-! ## Every run -/

theorem Inv.restart (h : d.Inv shape) (hexp : d.exposed = false) : d.restart.Inv shape := by
  cases hph : d.phase with
  | running => exact ((inv_running hph).mp h).restart hexp
  | replaying => exact ((inv_replaying hph).mp h).restart hexp
  | collected => exact ((inv_collected hph).mp h).restart hexp
  | ready => exact ((inv_ready hph).mp h).restart hexp

/-- **One step keeps the invariant**, if it is not a crash in the window. -/
theorem Inv.step {a : DurableAction Batch} (h : d.Inv shape) (hsafe : d.CrashSafe a)
    (hstep : d.step shape a = some d') : d'.Inv shape := by
  cases moves_of_step shape hstep with
  | table hph hbulk ht => exact (((inv_running hph).mp h).trans hbulk hsafe ht).inv hph
  | rotateWal hph => exact ((inv_running hph).mp h).rotateWal.inv hph
  | flushGc hph => exact (((inv_running hph).mp h).collect _).inv hph
  | flushPersist hph hfl =>
    have hfin : Table.Trans shape d.table .flushFinish _ := .flushFinish hfl
    have hlock : d.table.FreezesLocked .flushFinish := trivial
    have hrun := ((inv_running hph).mp h).trans rfl hlock hfin
    exact hrun.persist.inv hph
  | crash => exact h.restart hsafe
  | recoverFlush hph =>
    exact (inv_replaying rfl).mpr (((inv_replaying hph).mp h).recoverFlush _)
  | recoverGc hph => exact (inv_collected rfl).mpr (((inv_replaying hph).mp h).collect _)
  | recoverPersist hph => exact (inv_ready rfl).mpr ((inv_collected hph).mp h).persist
  | recoverPersistFail hph =>
    have hrep := (inv_collected hph).mp h
    exact (inv_ready rfl).mpr { hrep with }
  | start hph => exact (inv_running rfl).mpr ((inv_ready hph).mp h).start

theorem inv_initial : (initial : Durable Batch).Inv shape := by
  have hquiet : ∀ w, ¬ (initial : Durable Batch).table.Tracked w := by
    rintro w (hw | hw | ⟨_, hw⟩) <;> cases hw
  refine (inv_running rfl).mpr ⟨coupled_initial Nat.one_pos (forall_mem_nil _),
    fun w hw ↦ absurd (.inr hw) (hquiet w), fun _ ↦ id, fun w hw ↦ absurd hw (hquiet w), ?_,
    forall_mem_nil _⟩
  rintro - w (hw | hw)
  · exact absurd hw (hquiet w)
  · cases hw

/-- Two puts into two WAL files, flushed together up to the point where files are collected. -/
def putsAndFlush : List (DurableAction ℕ) :=
  (put 3).map .table ++ .rotateWal :: (put 5).map .table ++
    [.table .flushAllFreeze, .table .flushFront, .table .flushSpan, .table .flushWrite,
      .table .flushApply, .table .flushRelease]

/-- Recovery of what one WAL frame holds. -/
def recoverOne : List (DurableAction ℕ) :=
  [.recoverFlush 0, .recoverGc, .recoverPersist]

end Durable

end MonoTS
