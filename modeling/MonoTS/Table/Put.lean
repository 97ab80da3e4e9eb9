import MonoTS.Table.Sst
import MonoTS.Wal.Walk

/-!
# One put, from its checks to its result

`put_batch` checks whether the table accepts writes, takes an LSN, appends the batch to the WAL and
only then stores it in the memtable. The steps behind the append can fail: the schema is compared in
the memtable, the memory is reserved after the rows have been stored, a full memtable is switched,
and a reclaim may be tried at the end. Nothing takes the frame or the rows back.

Here the call runs alone, with the answers of everything around it as an input: the disk, the memory
that all tables have charged at each moment it is looked at, the WAL writer, the sequence of
memtable ids and the reclaims. A reclaim moves rows from memory to an SST, which changes neither
what a scan sees nor what a restart finds, so only its result is kept.

`put_without_trace_iff` says which failed puts leave no trace.
-/

open List

namespace MonoTS

variable {Batch : Type*}

/-! ## The memory controller -/

/-- The limits of the memory. -/
structure MemoryController where
  limitBytes : ℕ
  softThresholdBytes : ℕ

namespace MemoryController

variable (memory : MemoryController) (usedBytes : ℕ)

def atOrOverLimit : Bool := memory.limitBytes ≤ usedBytes

def atOrOverSoftThreshold : Bool :=
  0 < memory.softThresholdBytes && memory.softThresholdBytes ≤ usedBytes

def memoryLimitError : TsdbError := .memoryLimitExceeded usedBytes memory.limitBytes

def ensureWriteAllowed : Result Unit :=
  if memory.atOrOverLimit usedBytes then .error (memory.memoryLimitError usedBytes) else .ok ()

def tryReserve (bytes : ℕ) : Bool :=
  bytes = 0 || saturatingAdd usedBytes bytes ≤ memory.limitBytes

/-- `sync_charged_to_ram(true)` for a memtable with this footprint and this charge. -/
def syncChargedToRam (ram charged maxSize : ℕ) : MemTable.Accounting :=
  if charged < ram ∧ memory.tryReserve usedBytes (ram - charged) = false then
    .overLimit usedBytes memory.limitBytes
  else .reserved (maxSize ≤ ram)

end MemoryController

/-! ## The table -/

/-- What becomes of an append to the WAL. -/
inductive WalAppend where
  | written
  /-- The call fails and nothing reaches the file. -/
  | refused (e : TsdbError)
  /-- The call fails behind the write, for instance in its sync. -/
  | failed (e : TsdbError)

/-- The answers a put gets from its surroundings. -/
structure PutEnv where
  diskBefore : Result Unit
  usedBefore : ℕ
  reclaimBefore : Result Unit
  usedUnderLock : ℕ
  diskUnderLock : Result Unit
  walAppend : WalAppend
  usedAtInsert : ℕ
  nextId : Result Unit
  memtableEnd : Result Unit
  usedAfter : ℕ
  reclaimAfter : Result Unit

/-- The table as a put sees it. -/
structure PutState (Batch : Type*) where
  name : String
  /-- `pending_open` is set. -/
  starting : Bool
  walActive : Bool
  /-- Replication is attached, so that there are LSNs. -/
  replicated : Bool
  nextLsn : ℕ
  /-- The batch frames in the WAL files. -/
  wal : List (Write Batch)
  mutable : MemTable Batch
  /-- The bytes charged for the mutable memtable. -/
  charged : ℕ
  immutables : List (MemTable Batch)
  sstables : List (Sst (Write Batch))

/-- What is fixed for a table: its batches, the footprint of what a memtable stores, the size at
which a memtable is switched, and the memory limits. -/
structure PutConfig (Batch : Type*) where
  shape : BatchShape Batch
  ram : List (Write Batch) → ℕ
  maxSize : ℕ
  memory : MemoryController

namespace PutState

section

variable (config : PutConfig Batch) (env : PutEnv) (t : PutState Batch)

def requireWal : Result Unit :=
  if t.walActive then .ok ()
  else .error (.storage s!"table {t.name} WAL is not active yet (call recover_disk first)")

def ensureWriteReady : Result Unit :=
  if t.starting then
    .error (.storage s!"table {t.name} is still Starting (disk recovery not finished)")
  else t.requireWal

def requireReplication : Result Unit :=
  if t.replicated then .ok ()
  else .error (.storage
    "LSN required: attach replication before writing (engine.register_table does this)")

/-- Everything in front of the LSN. -/
def checkReady : Result Unit := do
  t.ensureWriteReady
  env.diskBefore
  if config.memory.atOrOverLimit env.usedBefore then env.reclaimBefore
  t.requireWal
  config.memory.ensureWriteAllowed env.usedUnderLock
  env.diskUnderLock
  t.requireReplication

/-- Record the LSN and store the batch. The charge follows the footprint only if the reservation
succeeds. -/
def insert (w : Write Batch) : Result Bool × PutState Batch :=
  let m := t.mutable.recordLsn w.1
  let ram := config.ram (m.chunks ++ [w])
  let accounting :=
    config.memory.syncChargedToRam env.usedAtInsert ram t.charged config.maxSize
  match m.insertForTable config.shape w accounting with
  | (mutable, .error e) => (.error e, { t with mutable })
  | (mutable, .ok rotate) =>
    (.ok rotate, { t with
      mutable
      charged := if config.shape.numRows w.2 = 0 then t.charged else ram })

/-- Freeze the mutable memtable and write the marker to the WAL. -/
def switchMemtable : Result Unit × PutState Batch :=
  match env.nextId with
  | .error e => (.error e, t)
  | .ok () =>
    if t.mutable.isEmpty then (.ok (), t)
    else
      (env.memtableEnd,
        { t with mutable := .new, charged := 0, immutables := t.immutables ++ [t.mutable] })

/-- The part of a put behind the WAL append. -/
def store (w : Write Batch) : Result Unit × PutState Batch :=
  match t.insert config env w with
  | (.error e, t) => (.error e, t)
  | (.ok rotate, t) =>
    match if rotate then t.switchMemtable env else (.ok (), t) with
    | (.error e, t) => (.error e, t)
    | (.ok (), t) =>
      (if config.memory.atOrOverSoftThreshold env.usedAfter then env.reclaimAfter else .ok (), t)

def putBatch (batch : Batch) : Result Unit × PutState Batch :=
  match t.checkReady config env with
  | .error e => (.error e, t)
  | .ok () =>
    let w := (t.nextLsn, batch)
    let t := { t with nextLsn := t.nextLsn + 1 }
    match env.walAppend with
    | .refused e => (.error e, t)
    | .failed e => (.error e, { t with wal := t.wal ++ [w] })
    | .written => store config env { t with wal := t.wal ++ [w] } w

end

/-! ## What is left behind -/

/-- A scan sees the write. -/
def Visible (t : PutState Batch) (w : Write Batch) : Prop :=
  w ∈ t.mutable.chunks ∨ (∃ m ∈ t.immutables, w ∈ m.chunks) ∨ ∃ s ∈ t.sstables, w ∈ s.contents

/-- A restart finds the write, in an SST or in a WAL frame that the SSTs do not cover. -/
def Recovered (t : PutState Batch) (w : Write Batch) : Prop :=
  (∃ s ∈ t.sstables, w ∈ s.contents) ∨
    w ∈ t.wal ∧ batchNeedsRecover w.1 (maxLsnInSstMetas t.sstables) (!t.sstables.isEmpty) = true

/-- Both see the same rows as before. -/
def SameRows (shape : BatchShape Batch) (t t' : PutState Batch) : Prop :=
  ∀ w, shape.numRows w.2 ≠ 0 →
    (t'.Visible w ↔ t.Visible w) ∧ (t'.Recovered w ↔ t.Recovered w)

variable (config : PutConfig Batch) (env : PutEnv)

/-- A put that fails leaves no trace. -/
def LeavesNoTrace (t : PutState Batch) (batch : Batch) : Prop :=
  ∀ e, (t.putBatch config env batch).1 = .error e →
    SameRows config.shape t (t.putBatch config env batch).2

/-- The put fails in front of the WAL, or the WAL does not take the frame. -/
def RefusedBeforeWal (t : PutState Batch) : Prop :=
  t.starting = true ∨ t.walActive = false ∨ env.diskBefore ≠ .ok () ∨
    (config.memory.atOrOverLimit env.usedBefore = true ∧ env.reclaimBefore ≠ .ok ()) ∨
    config.memory.atOrOverLimit env.usedUnderLock = true ∨ env.diskUnderLock ≠ .ok () ∨
    t.replicated = false ∨ ∃ e, env.walAppend = .refused e

/-- The memory for the memtable with the new rows is there. -/
def Reserves (t : PutState Batch) (batch : Batch) : Prop :=
  let ram := config.ram (t.mutable.chunks ++ [(t.nextLsn, batch)])
  t.charged < ram → config.memory.tryReserve env.usedAtInsert (ram - t.charged) = true

/-- Nothing fails from the WAL append on: the append, the comparison of the schemas, the
reservation, the switch if the memtable is full, and the reclaim if the soft threshold is reached.
-/
structure Accepted (config : PutConfig Batch) (env : PutEnv) (t : PutState Batch) (batch : Batch) :
    Prop where
  written : env.walAppend = .written
  schema : config.shape.matchesSchema batch = true
  reserves : t.Reserves config env batch
  switched : config.maxSize ≤ config.ram (t.mutable.chunks ++ [(t.nextLsn, batch)]) →
    env.nextId = .ok () ∧ env.memtableEnd = .ok ()
  reclaimed : config.memory.atOrOverSoftThreshold env.usedAfter = true → env.reclaimAfter = .ok ()

section

variable {config : PutConfig Batch} {env : PutEnv} {t t' : PutState Batch} {batch : Batch}

theorem bind_eq_ok_iff {x : Result Unit} {f : Unit → Result Unit} :
    x >>= f = .ok () ↔ x = .ok () ∧ f () = .ok () :=
  Result.bind_eq_ok.trans ⟨fun ⟨(), h⟩ ↦ h, fun h ↦ ⟨(), h⟩⟩

theorem checkReady_eq_ok_iff : t.checkReady config env = .ok () ↔
    t.starting = false ∧ t.walActive = true ∧ env.diskBefore = .ok () ∧
      (config.memory.atOrOverLimit env.usedBefore = true → env.reclaimBefore = .ok ()) ∧
      config.memory.atOrOverLimit env.usedUnderLock = false ∧ env.diskUnderLock = .ok () ∧
      t.replicated = true := by
  have hrdy : t.ensureWriteReady = .ok () ↔ t.starting = false ∧ t.walActive = true := by
    rw [ensureWriteReady, requireWal]
    cases t.starting <;> cases t.walActive <;> simp
  have hwal : t.requireWal = .ok () ↔ t.walActive = true := by
    rw [requireWal]
    cases t.walActive <;> simp
  have hall : config.memory.ensureWriteAllowed env.usedUnderLock = .ok () ↔
      config.memory.atOrOverLimit env.usedUnderLock = false := by
    rw [MemoryController.ensureWriteAllowed]
    cases config.memory.atOrOverLimit env.usedUnderLock <;> simp
  have hrepl : t.requireReplication = .ok () ↔ t.replicated = true := by
    rw [requireReplication]
    cases t.replicated <;> simp
  rw [checkReady]
  cases hlim : config.memory.atOrOverLimit env.usedBefore with
  | true =>
    simp only [bind_eq_ok_iff, hrdy, hwal, hall, hrepl, if_true]
    constructor
    · rintro ⟨⟨hst, hact⟩, hdisk, hrecl, -, hrest⟩
      exact ⟨hst, hact, hdisk, fun _ ↦ hrecl, hrest⟩
    · rintro ⟨hst, hact, hdisk, hrecl, hrest⟩
      exact ⟨⟨hst, hact⟩, hdisk, hrecl trivial, hact, hrest⟩
  | false =>
    simp only [bind_eq_ok_iff, hrdy, hwal, hall, hrepl, Bool.false_eq_true, if_false]
    constructor
    · rintro ⟨⟨hst, hact⟩, hdisk, -, hrest⟩
      exact ⟨hst, hact, hdisk, nofun, hrest⟩
    · rintro ⟨hst, hact, hdisk, -, hrest⟩
      exact ⟨⟨hst, hact⟩, hdisk, hact, hrest⟩

theorem refusedBeforeWal_iff : t.RefusedBeforeWal config env ↔
    t.checkReady config env ≠ .ok () ∨ ∃ e, env.walAppend = .refused e := by
  rw [RefusedBeforeWal, ne_eq (checkReady _ _ _), checkReady_eq_ok_iff]
  simp only [not_and_or, Classical.not_imp, or_assoc, Bool.not_eq_true, Bool.not_eq_false, ne_eq]

theorem putBatch_of_refused (h : t.RefusedBeforeWal config env) (batch : Batch) :
    ∃ lsn, t.nextLsn ≤ lsn ∧ (t.putBatch config env batch).2 = { t with nextLsn := lsn } := by
  rw [putBatch]
  cases hpass : t.checkReady config env with
  | error => exact ⟨t.nextLsn, le_rfl, rfl⟩
  | ok _ =>
    obtain ⟨_, he⟩ := (refusedBeforeWal_iff.mp h).resolve_left (not_not_intro hpass)
    rw [he]
    exact ⟨t.nextLsn + 1, Nat.le_succ _, rfl⟩

/-- A put that is not refused has its frame in the WAL. It fails there, or goes on to store the
batch. -/
theorem putBatch_of_not_refused (h : ¬ t.RefusedBeforeWal config env) (batch : Batch) :
    (∃ e, env.walAppend = .failed e ∧ t.putBatch config env batch
      = (.error e, { t with nextLsn := t.nextLsn + 1, wal := t.wal ++ [(t.nextLsn, batch)] })) ∨
    (env.walAppend = .written ∧ t.putBatch config env batch
      = store config env { t with nextLsn := t.nextLsn + 1, wal := t.wal ++ [(t.nextLsn, batch)] }
          (t.nextLsn, batch)) := by
  obtain ⟨hpass, htaken⟩ := not_or.mp (mt refusedBeforeWal_iff.mpr h)
  rw [putBatch, not_not.mp hpass]
  cases hwal : env.walAppend with
  | written => exact .inr ⟨rfl, rfl⟩
  | refused e => exact absurd ⟨e, hwal⟩ htaken
  | failed e => exact .inl ⟨e, rfl, rfl⟩

/-- The WAL, the SSTs and the next LSN are as before. -/
structure SameFiles (t t' : PutState Batch) : Prop where
  wal : t'.wal = t.wal
  sstables : t'.sstables = t.sstables
  nextLsn : t'.nextLsn = t.nextLsn

variable (env) in
theorem sameFiles_switchMemtable (t : PutState Batch) : t.SameFiles (t.switchMemtable env).2 := by
  rw [switchMemtable]
  cases env.nextId with
  | error => exact ⟨rfl, rfl, rfl⟩
  | ok =>
    dsimp only
    split_ifs <;> exact ⟨rfl, rfl, rfl⟩

variable (config env) in
theorem sameFiles_insert (t : PutState Batch) (w : Write Batch) :
    t.SameFiles (t.insert config env w).2 := by
  rw [insert]
  cases (t.mutable.recordLsn w.1).insertForTable config.shape w _ with
  | mk m r => cases r <;> exact ⟨rfl, rfl, rfl⟩

variable (config env) in
theorem sameFiles_store (t : PutState Batch) (w : Write Batch) :
    t.SameFiles (t.store config env w).2 := by
  have hins := sameFiles_insert config env t w
  rw [store]
  cases hi : t.insert config env w with
  | mk r t' =>
    rw [hi] at hins
    cases r with
    | error => exact hins
    | ok rotate =>
      cases rotate with
      | false => exact hins
      | true =>
        have hswap := sameFiles_switchMemtable env t'
        simp only [if_true]
        cases hs : t'.switchMemtable env with
        | mk r t'' =>
          rw [hs] at hswap
          have hboth : t.SameFiles t'' := ⟨hswap.wal.trans hins.wal,
            hswap.sstables.trans hins.sstables, hswap.nextLsn.trans hins.nextLsn⟩
          cases r <;> exact hboth

variable {w : Write Batch}

theorem insert_eq (hrows : config.shape.numRows w.2 ≠ 0) :
    t.insert config env w =
      if config.shape.matchesSchema w.2 = false then
        (.error (.schema "memtable batch schema mismatch with table schema"),
          { t with mutable := t.mutable.recordLsn w.1 })
      else
        let ram := config.ram (t.mutable.chunks ++ [w])
        let stored :=
          { t with mutable :=
              { t.mutable.recordLsn w.1 with chunks := t.mutable.chunks ++ [w] } }
        if t.charged < ram ∧
            config.memory.tryReserve env.usedAtInsert (ram - t.charged) = false then
          (.error (config.memory.memoryLimitError env.usedAtInsert), stored)
        else (.ok (config.maxSize ≤ ram), { stored with charged := ram }) := by
  rw [insert]
  simp only [MemTable.insertForTable, hrows, if_false, MemTable.recordLsn_chunks,
    MemoryController.syncChargedToRam]
  split_ifs <;> rfl

theorem store_eq_ok_iff (hrows : config.shape.numRows w.2 ≠ 0) :
    (t.store config env w).1 = .ok () ↔
      config.shape.matchesSchema w.2 = true ∧
      (t.charged < config.ram (t.mutable.chunks ++ [w]) → config.memory.tryReserve env.usedAtInsert
        (config.ram (t.mutable.chunks ++ [w]) - t.charged) = true) ∧
      (config.maxSize ≤ config.ram (t.mutable.chunks ++ [w]) →
        env.nextId = .ok () ∧ env.memtableEnd = .ok ()) ∧
      (config.memory.atOrOverSoftThreshold env.usedAfter = true → env.reclaimAfter = .ok ()) := by
  rw [store, insert_eq hrows]
  cases hsch : config.shape.matchesSchema w.2 with
  | false => simp
  | true =>
    simp only [Bool.true_eq_false, if_false, true_and]
    generalize config.ram (t.mutable.chunks ++ [w]) = ram
    by_cases hover : t.charged < ram ∧
        config.memory.tryReserve env.usedAtInsert (ram - t.charged) = false
    · rw [if_pos hover]
      simp [hover.1, hover.2]
    · rw [if_neg hover]
      have hres : t.charged < ram →
          config.memory.tryReserve env.usedAtInsert (ram - t.charged) = true := by
        intro hlt
        by_contra hfalse
        exact hover ⟨hlt, Bool.eq_false_iff.mpr hfalse⟩
      rw [and_iff_right hres]
      have hsoft : (if config.memory.atOrOverSoftThreshold env.usedAfter = true then
            env.reclaimAfter else .ok ()) = .ok () ↔
          (config.memory.atOrOverSoftThreshold env.usedAfter = true →
            env.reclaimAfter = .ok ()) := by
        by_cases hused : config.memory.atOrOverSoftThreshold env.usedAfter = true <;> simp [hused]
      by_cases hfull : config.maxSize ≤ ram
      · -- The memtable that is switched holds the new batch, so it is not empty.
        simp only [hfull, decide_true, if_true, switchMemtable, MemTable.isEmpty]
        cases env.nextId with
        | error => simp
        | ok => cases env.memtableEnd <;> simp [hsoft]
      · simp [hfull, hsoft]

/-- No LSN of the table is in use for a write to come. -/
structure Fresh (t : PutState Batch) : Prop where
  pos : 0 < t.nextLsn
  wal : ∀ w ∈ t.wal, w.1 < t.nextLsn
  sst : ∀ s ∈ t.sstables, s.maxLsn < t.nextLsn ∧ ∀ w ∈ s.contents, w.1 < t.nextLsn

theorem Fresh.not_recovered (h : t.Fresh) (batch : Batch) : ¬ t.Recovered (t.nextLsn, batch) := by
  rintro (⟨s, hs, hw⟩ | ⟨hw, -⟩)
  · exact Nat.lt_irrefl _ ((h.sst s hs).2 _ hw)
  · exact Nat.lt_irrefl _ (h.wal _ hw)

/-- The frame of a put is found by a restart. -/
theorem Fresh.recovered (h : t.Fresh) {batch : Batch} (hwal : (t.nextLsn, batch) ∈ t'.wal)
    (hsst : t'.sstables = t.sstables) : t'.Recovered (t.nextLsn, batch) := by
  refine .inr ⟨hwal, ?_⟩
  rw [batchNeedsRecover, if_pos h.pos, hsst, decide_eq_true_eq]
  exact maxLsnInSstMetas_lt h.pos fun s hs ↦ (h.sst s hs).1

/-- A frame without rows is no trace. -/
theorem sameRows_of_frame {shape : BatchShape Batch} {frames : List (Write Batch)}
    (hfr : ∀ w ∈ frames, shape.numRows w.2 = 0) (hmut : t'.mutable.chunks = t.mutable.chunks)
    (himm : t'.immutables = t.immutables) (hsst : t'.sstables = t.sstables)
    (hwal : t'.wal = t.wal ++ frames) : SameRows shape t t' := by
  intro w hrows
  have hmem : w ∈ t'.wal ↔ w ∈ t.wal := by
    rw [hwal, mem_append]
    exact or_iff_left fun hw ↦ hrows (hfr w hw)
  rw [Visible, Visible, Recovered, Recovered, hmut, himm, hsst, hmem]
  exact ⟨Iff.rfl, Iff.rfl⟩

theorem store_of_no_rows (hrows : config.shape.numRows w.2 = 0) :
    (t.store config env w).2 = { t with mutable := t.mutable.recordLsn w.1 } := by
  simp only [store, insert, MemTable.insertForTable, hrows, if_true, Bool.false_eq_true, if_false]

theorem putBatch_frame (h : ¬ t.RefusedBeforeWal config env) (batch : Batch) :
    SameFiles { t with nextLsn := t.nextLsn + 1, wal := t.wal ++ [(t.nextLsn, batch)] }
      (t.putBatch config env batch).2 := by
  obtain ⟨_, -, hput⟩ | ⟨-, hput⟩ := putBatch_of_not_refused h batch
  · rw [hput]
    exact ⟨rfl, rfl, rfl⟩
  · rw [hput]
    exact sameFiles_store config env _ _

/-- A put with rows that is not refused succeeds exactly if nothing fails from then on. -/
theorem putBatch_eq_ok_iff (h : ¬ t.RefusedBeforeWal config env)
    (hrows : config.shape.numRows batch ≠ 0) :
    (t.putBatch config env batch).1 = .ok () ↔ t.Accepted config env batch := by
  obtain ⟨_, hwal, hput⟩ | ⟨hwal, hput⟩ := putBatch_of_not_refused h batch
  · rw [hput]
    constructor
    · intro hok
      cases hok
    · intro hacc
      have hwr := hacc.written
      rw [hwal] at hwr
      cases hwr
  · rw [hput, store_eq_ok_iff (w := (t.nextLsn, batch)) hrows]
    constructor
    · rintro ⟨hsch, hres, hswap, hrecl⟩
      exact ⟨hwal, hsch, hres, hswap, hrecl⟩
    · intro hacc
      exact ⟨hacc.schema, hacc.reserves, hacc.switched, hacc.reclaimed⟩

/-- **A put that fails leaves no trace exactly if it fails in front of the WAL append, or in the
append before the frame reaches the file, or if its batch has no rows.** A put that succeeds has
nothing to answer for. -/
theorem put_without_trace_iff (config : PutConfig Batch) (env : PutEnv) (t : PutState Batch)
    (h : t.Fresh) (batch : Batch) :
    t.LeavesNoTrace config env batch ↔
      t.RefusedBeforeWal config env ∨ config.shape.numRows batch = 0 ∨
        t.Accepted config env batch := by
  by_cases href : t.RefusedBeforeWal config env
  · refine iff_of_true (fun e _ ↦ ?_) (.inl href)
    obtain ⟨_, -, hput⟩ := putBatch_of_refused href batch
    rw [hput]
    exact fun w _ ↦ ⟨Iff.rfl, Iff.rfl⟩
  · by_cases hrows : config.shape.numRows batch = 0
    · refine iff_of_true (fun e _ ↦ ?_) (.inr (.inl hrows))
      have hfr : ∀ w ∈ [(t.nextLsn, batch)], config.shape.numRows w.2 = 0 := by
        intro w hw
        rw [mem_singleton.mp hw]
        exact hrows
      obtain ⟨e, -, hput⟩ | ⟨-, hput⟩ := putBatch_of_not_refused href batch
      · rw [hput]
        exact sameRows_of_frame hfr rfl rfl rfl rfl
      · rw [hput, store_of_no_rows hrows]
        exact sameRows_of_frame hfr (MemTable.recordLsn_chunks ..) rfl rfl rfl
    · rw [← putBatch_eq_ok_iff href hrows]
      constructor
      · intro htrace
        refine .inr (.inr ?_)
        cases hres : (t.putBatch config env batch).1 with
        | ok => rfl
        | error e =>
          -- The frame is in the WAL, and a restart finds it.
          obtain ⟨hwal, hsst, -⟩ := putBatch_frame href batch
          have hmem : (t.nextLsn, batch) ∈ (t.putBatch config env batch).2.wal := by
            rw [hwal]
            exact mem_append_right _ (mem_singleton_self _)
          have hsame := (htrace e hres (t.nextLsn, batch) hrows).2
          exact absurd (hsame.mp (h.recovered hmem hsst)) (h.not_recovered batch)
      · rintro (h' | h' | hok) e herr
        · exact absurd h' href
        · exact absurd h' hrows
        · rw [hok] at herr
          cases herr

end

/-! ## A table with little memory left -/

/-- A batch is given by its number of rows, and a row takes eight bytes. -/
def smallConfig : PutConfig ℕ where
  shape := ⟨id, fun _ ↦ true⟩
  ram := fun chunks ↦ 8 * (chunks.map Prod.snd).sum
  maxSize := 64
  memory := ⟨100, 0⟩

/-- Everything works, and other tables have charged this much memory. -/
def busyEnv (usedUnderLock usedAtInsert : ℕ) : PutEnv where
  diskBefore := .ok ()
  usedBefore := 0
  reclaimBefore := .ok ()
  usedUnderLock
  diskUnderLock := .ok ()
  walAppend := .written
  usedAtInsert
  nextId := .ok ()
  memtableEnd := .ok ()
  usedAfter := 0
  reclaimAfter := .ok ()

def emptyTable : PutState ℕ := ⟨"t", false, true, true, 1, [], .new, 0, [], []⟩

theorem fresh_emptyTable : emptyTable.Fresh :=
  ⟨Nat.one_pos, fun _ hw ↦ absurd hw not_mem_nil, fun _ hs ↦ absurd hs not_mem_nil⟩

/-- A put that finds the memory used up leaves no trace. -/
theorem put_over_limit_without_trace :
    (emptyTable.putBatch smallConfig (busyEnv 100 100) 2).1
        = .error (.memoryLimitExceeded 100 100) ∧
      emptyTable.LeavesNoTrace smallConfig (busyEnv 100 100) 2 :=
  ⟨by decide,
    (put_without_trace_iff smallConfig (busyEnv 100 100) emptyTable fresh_emptyTable 2).mpr
    (.inl (.inr (.inr (.inr (.inr (.inl rfl))))))⟩

/-- **A put whose sixteen bytes do not fit into the ten that are left fails, and its rows are there
for every scan.** -/
theorem put_over_limit_leaves_rows :
    (emptyTable.putBatch smallConfig (busyEnv 90 90) 2).1 = .error (.memoryLimitExceeded 90 100) ∧
      ¬ emptyTable.LeavesNoTrace smallConfig (busyEnv 90 90) 2 := by
  have hres : (emptyTable.putBatch smallConfig (busyEnv 90 90) 2).1
      = .error (.memoryLimitExceeded 90 100) := by decide
  refine ⟨hres, fun htrace ↦ ?_⟩
  have hvis : (emptyTable.putBatch smallConfig (busyEnv 90 90) 2).2.Visible (1, 2) :=
    .inl (by decide)
  have hbef := (htrace _ hres (1, 2) (by decide)).1.mp hvis
  rcases hbef with hw | ⟨_, hm, -⟩ | ⟨_, hs, -⟩
  · exact absurd hw not_mem_nil
  · exact absurd hm not_mem_nil
  · exact absurd hs not_mem_nil

end PutState

end MonoTS
