import MonoTS.Common
import MonoTS.DashMap
import MonoTS.Lib.Transition

/-!
# The cursors of the streams

How far a stream has come is kept twice: `CaptureProgressRegistry` has the cursors in memory, which
pin the WAL, and `WalCommitLog` has them in a file, from which the next start restores them. The
file is a sequence of records, an id with an LSN each; the cursor of an id is the largest LSN since
its last tombstone.

A writer buffers what is appended. When it cannot write to the file, what is left stays in the
buffer and is written with the next record, so that the file is at any time a part of the sequence
of all records, and `written` says how much of it. A record that is cut off while it goes into the
buffer is `torn`: the scan of a restart stops there.

The registry moves the cursor in memory before it calls the log. When the log fails, the cursor in
memory is ahead of the file, and the next call with the same LSN finds nothing to do and returns
`Ok` (`retry_not_durable`). While every record reaches the file, the two agree
(`acknowledged_durable`).
-/

open Transition List

namespace MonoTS

/-! ## The commit log -/

/-- What the sequence of records consists of. -/
inductive CommitEntry where
  | record (progressId : String) (lsn : ℕ)
  /-- A record that failed while it was put into the buffer. -/
  | torn

/-- `TOMBSTONE_LSN`. -/
def tombstoneLsn : ℕ := 2 ^ 64 - 1

/-- Whether a commit is synced. -/
inductive CommitDurability where
  | async
  | sync

/-- The complete records; the scan stops at the first one it cannot read. -/
def readable : List CommitEntry → List (String × ℕ)
  | [] => []
  | .torn :: _ => []
  | .record id lsn :: rest => (id, lsn) :: readable rest

/-- What the scan does with a record. -/
def applyCommit (latest : DashMap ℕ) (record : String × ℕ) : DashMap ℕ :=
  if record.2 = tombstoneLsn then latest.erase record.1
  else latest.insert record.1 (max ((latest.lookup record.1).getD 0) record.2)

/-- `scan_and_recover`: the cursors in a file. -/
def scanAndRecover (file : List CommitEntry) : DashMap ℕ :=
  (readable file).foldl applyCommit ∅

/-- The log of the cursors. -/
structure WalCommitLog where
  path : String
  memoryState : DashMap ℕ
  /-- Everything that was appended since the file was created. -/
  entries : List CommitEntry
  /-- How many of them are in the file; the others are in the buffer. -/
  written : ℕ
  /-- How many of them are known to be on disk. -/
  synced : ℕ
  dirty : Bool

/-- What the file system does with an append. -/
inductive CommitIo where
  | done
  /-- A write into the buffer fails; `written` entries are in the file afterwards. -/
  | writeFails (op e : String) (written : ℕ)
  | flushFails (e : String) (written : ℕ)
  | syncFails (e : String)
  deriving DecidableEq, Repr

namespace WalCommitLog

/-- Open the log on a file. A tail that cannot be read is cut off. -/
def «open» (path : String) (file : List CommitEntry) : WalCommitLog where
  path := path
  memoryState := scanAndRecover file
  entries := (readable file).map fun r ↦ CommitEntry.record r.1 r.2
  written := (readable file).length
  synced := (readable file).length
  dirty := false

variable (log : WalCommitLog)

def ioErr (op e : String) : TsdbError :=
  .storage s!"commit WAL {op} ({log.path}): {e}"

def appendRecordPhysical (io : CommitIo) (progressId : String) (lsn : ℕ)
    (durability : CommitDurability) : Result Unit × WalCommitLog :=
  let appended := { log with entries := log.entries ++ [CommitEntry.record progressId lsn] }
  match io, durability with
  | .writeFails op e written, _ =>
    (.error (log.ioErr op e), { log with entries := log.entries ++ [.torn], written })
  | _, .async => (.ok (), { appended with dirty := true })
  | .flushFails e written, .sync => (.error (log.ioErr "flush" e), { appended with written })
  | .syncFails e, .sync =>
    (.error (log.ioErr "sync_data" e), { appended with written := appended.entries.length })
  | .done, .sync =>
    (.ok (), { appended with
      written := appended.entries.length, synced := appended.entries.length, dirty := false })

def commit (log : WalCommitLog) (io : CommitIo) (progressId : String) (lsn : ℕ)
    (durability : CommitDurability) : Result Unit × WalCommitLog :=
  if lsn = tombstoneLsn then
    (.error (.storage "commit: TOMBSTONE_LSN is reserved for remove"), log)
  else if (log.memoryState.lookup progressId).any (lsn ≤ ·) then (.ok (), log)
  else
    match log.appendRecordPhysical io progressId lsn durability with
    | (.error e, log) => (.error e, log)
    | (.ok (), log) =>
      (.ok (), { log with
        memoryState := log.memoryState.insert progressId
          (max ((log.memoryState.lookup progressId).getD 0) lsn) })

def remove (io : CommitIo) (progressId : String) : Result Unit × WalCommitLog :=
  match log.appendRecordPhysical io progressId tombstoneLsn .sync with
  | (.error e, log) => (.error e, log)
  | (.ok (), log) => (.ok (), { log with memoryState := log.memoryState.erase progressId })

/-- The cursors that a restart finds in the file. -/
def reopened : DashMap ℕ := scanAndRecover (log.entries.take log.written)

end WalCommitLog

/-! ## The registry -/

/-- `RETENTION_UNPINNED`. -/
def retentionUnpinned : ℕ := 2 ^ 64 - 1

/-- The cursors of all streams. -/
structure CaptureProgressRegistry where
  progresses : DashMap ℕ
  commit : WalCommitLog
  defaultDurability : CommitDurability

namespace CaptureProgressRegistry

def «open» (commit : WalCommitLog) (defaultDurability : CommitDurability) :
    CaptureProgressRegistry :=
  ⟨commit.memoryState, commit, defaultDurability⟩

variable (r : CaptureProgressRegistry) (io : CommitIo) (progressId : String) (lsn : ℕ)

variable (durability : CommitDurability)

/-- Call the log for a cursor that has been set. -/
def commitWith : Result Unit × CaptureProgressRegistry :=
  let result := r.commit.commit io progressId lsn durability
  (result.1, { r with commit := result.2 })

def setCursor : CaptureProgressRegistry :=
  { r with progresses := r.progresses.insert progressId lsn }

def register (startLsn : ℕ) : Result Unit × CaptureProgressRegistry :=
  match r.progresses.lookup progressId with
  | some _ => (.ok (), r)
  | none => (r.setCursor progressId startLsn).commitWith io progressId startLsn r.defaultDurability

/-- The part of `advance_with` that moves the cursor in memory; true when the log is to be
called. -/
def advanceCursor : Bool × CaptureProgressRegistry :=
  let entry := (r.progresses.lookup progressId).getD 0
  if entry < lsn then (true, r.setCursor progressId lsn)
  else (false, { r with progresses := r.progresses.orDefault progressId 0 })

def advanceWith : Result Unit × CaptureProgressRegistry :=
  match r.advanceCursor progressId lsn with
  | (true, r) => r.commitWith io progressId lsn durability
  | (false, r) => (.ok (), r)

/-- The part of `remove` in memory. -/
def forget : CaptureProgressRegistry :=
  { r with progresses := r.progresses.erase progressId }

/-- The part of `remove` in the log. -/
def removeCommit : Result Unit × CaptureProgressRegistry :=
  let result := r.commit.remove io progressId
  (result.1, { r with commit := result.2 })

def remove : Result Unit × CaptureProgressRegistry :=
  (r.forget progressId).removeCommit io progressId

def minRetainedLsn : ℕ := r.progresses.entries.foldl (fun m e ↦ min m e.2) retentionUnpinned

end CaptureProgressRegistry

/-! ## Reading the file back -/

section

variable {id : String} {lsn : ℕ} {entries : List CommitEntry}

theorem readable_append (h : CommitEntry.torn ∉ entries) :
    readable (entries ++ [.record id lsn]) = readable entries ++ [(id, lsn)] := by
  induction entries with
  | nil => rfl
  | cons e entries ih =>
    obtain ⟨he, hent⟩ := not_or.mp (mt mem_cons.mpr h)
    cases e with
    | torn => exact absurd rfl he
    | record => exact congrArg (_ :: ·) (ih hent)

theorem readable_map_record (records : List (String × ℕ)) :
    readable (records.map fun r ↦ CommitEntry.record r.1 r.2) = records := by
  induction records with
  | nil => rfl
  | cons r records ih => exact congrArg (r :: ·) ih

theorem scanAndRecover_append (h : CommitEntry.torn ∉ entries) :
    scanAndRecover (entries ++ [.record id lsn])
      = applyCommit (scanAndRecover entries) (id, lsn) := by
  rw [scanAndRecover, readable_append h, foldl_append]
  rfl

variable (latest : DashMap ℕ)

theorem lookup_applyCommit_ne {id' : String} (h : id' ≠ id) :
    (applyCommit latest (id, lsn)).lookup id' = latest.lookup id' := by
  rw [applyCommit]
  split_ifs
  · exact AList.lookup_erase_ne h
  · exact AList.lookup_insert_ne h

theorem lookup_applyCommit_self (h : lsn ≠ tombstoneLsn) :
    (applyCommit latest (id, lsn)).lookup id = some (max ((latest.lookup id).getD 0) lsn) := by
  rw [applyCommit, if_neg h]
  exact AList.lookup_insert _

theorem lookup_applyCommit_tombstone :
    (applyCommit latest (id, tombstoneLsn)).lookup id = none := by
  rw [applyCommit, if_pos rfl]
  exact AList.lookup_erase ..

end

/-! ## Logs that are in the file -/

/-- The append writes its record to the file, whether or not it can be synced. -/
def CommitIo.Writes : CommitIo → Prop
  | .done | .syncFails _ => True
  | .writeFails _ _ _ | .flushFails _ _ => False

instance : DecidablePred CommitIo.Writes
  | .done | .syncFails _ => .isTrue trivial
  | .writeFails _ _ _ | .flushFails _ _ => .isFalse id

namespace WalCommitLog

/-- The cursor that a restart finds, 0 if there is none. -/
def cursor (log : WalCommitLog) (id : String) : ℕ := (log.reopened.lookup id).getD 0

/-- The file has every record, and the log does not take a cursor for larger than it is there. -/
structure InFile (log : WalCommitLog) : Prop where
  complete : CommitEntry.torn ∉ log.entries
  written : log.written = log.entries.length
  memory : ∀ id m, log.memoryState.lookup id = some m → m ≤ log.cursor id

variable {log : WalCommitLog}

theorem InFile.reopened_eq (h : log.InFile) : log.reopened = scanAndRecover log.entries := by
  rw [reopened, h.written, take_length]

theorem InFile.append (h : log.InFile) {io : CommitIo} (hio : io.Writes) (id : String) (lsn : ℕ) :
    let log' := (log.appendRecordPhysical io id lsn .sync).2
    CommitEntry.torn ∉ log'.entries ∧ log'.written = log'.entries.length ∧
      log'.reopened = applyCommit log.reopened (id, lsn) ∧ log'.memoryState = log.memoryState := by
  have htorn : CommitEntry.torn ∉ log.entries ++ [.record id lsn] := by
    rw [mem_append, mem_singleton]
    exact not_or.mpr ⟨h.complete, nofun⟩
  have hscan : scanAndRecover ((log.entries ++ [CommitEntry.record id lsn]).take
      (log.entries ++ [CommitEntry.record id lsn]).length)
      = applyCommit log.reopened (id, lsn) := by
    rw [take_length, scanAndRecover_append h.complete, h.reopened_eq]
  cases io with
  | done | syncFails => exact ⟨htorn, rfl, hscan, rfl⟩
  | writeFails | flushFails => exact hio.elim

theorem cursor_of_applyCommit {log' : WalCommitLog} {id : String} {lsn : ℕ}
    (h : log'.reopened = applyCommit log.reopened (id, lsn)) (hlsn : lsn ≠ tombstoneLsn)
    (id' : String) : log.cursor id' ≤ log'.cursor id' ∧ lsn ≤ log'.cursor id := by
  have hself : log'.cursor id = max (log.cursor id) lsn := by
    rw [cursor, h, lookup_applyCommit_self _ hlsn]
    rfl
  refine ⟨?_, hself ▸ le_max_right _ _⟩
  by_cases hid : id' = id
  · rw [hid, hself]
    exact le_max_left _ _
  · rw [cursor, cursor, h, lookup_applyCommit_ne _ hid]

/-- **After a commit that writes its record the cursor is in the file**, also when the log finds
that it has it already. No cursor gets smaller. -/
theorem InFile.commit (h : log.InFile) {io : CommitIo} (hio : io.Writes) (id : String) {lsn : ℕ}
    (hlsn : lsn ≠ tombstoneLsn) :
    let log' := (log.commit io id lsn .sync).2
    log'.InFile ∧ (∀ id', log.cursor id' ≤ log'.cursor id') ∧ lsn ≤ log'.cursor id := by
  intro log'
  by_cases hmem : (log.memoryState.lookup id).any (lsn ≤ ·)
  · -- the log returns early: what it believes to have is in the file
    have hlog : log' = log := by
      simp only [log', WalCommitLog.commit, if_neg hlsn, if_pos hmem]
    obtain ⟨m, hm, hle⟩ := (Option.any_eq_true ..).mp hmem
    rw [hlog]
    exact ⟨h, fun _ ↦ le_rfl, (of_decide_eq_true hle).trans (h.memory id m hm)⟩
  · obtain ⟨htorn, hwr, hreop, hst⟩ := h.append hio id lsn
    have hcur := cursor_of_applyCommit hreop hlsn
    simp only [log', WalCommitLog.commit, if_neg hlsn, if_neg hmem]
    rcases hres : log.appendRecordPhysical io id lsn .sync with ⟨_ | _, _⟩
    · -- the record is written and its sync fails: the file is ahead of the memory
      rw [hres] at htorn hwr hcur hst
      refine ⟨⟨htorn, hwr, fun id' m hm ↦ ?_⟩, fun id' ↦ (hcur id').1, (hcur id).2⟩
      rw [hst] at hm
      exact (h.memory id' m hm).trans (hcur id').1
    · rw [hres] at htorn hwr hcur hst
      refine ⟨⟨htorn, hwr, fun id' m hm ↦ ?_⟩, fun id' ↦ (hcur id').1, (hcur id).2⟩
      dsimp only at hm hst
      rw [hst] at hm
      by_cases hid : id' = id
      · subst hid
        rw [AList.lookup_insert] at hm
        cases hm
        refine max_le ?_ (hcur id').2
        rcases hold : log.memoryState.lookup id' with _ | old
        · exact Nat.zero_le _
        · exact (h.memory id' old hold).trans (hcur id').1
      · rw [AList.lookup_insert_ne hid] at hm
        exact (h.memory id' m hm).trans (hcur id').1

/-- A removal takes the cursor of its id out of the file and leaves the others. -/
theorem InFile.remove (h : log.InFile) (id : String) :
    let log' := (log.remove .done id).2
    log'.InFile ∧ ∀ id', id' ≠ id → log'.cursor id' = log.cursor id' := by
  have hdone : CommitIo.done.Writes := trivial
  obtain ⟨htorn, hwr, hreop, _⟩ := h.append hdone id tombstoneLsn
  have hcur : ∀ id', id' ≠ id → (log.remove .done id).2.cursor id' = log.cursor id' := by
    intro id' hid
    rw [cursor, cursor, ← lookup_applyCommit_ne log.reopened hid, ← hreop]
    rfl
  refine ⟨⟨htorn, hwr, fun id' m hm ↦ ?_⟩, hcur⟩
  by_cases hid : id' = id
  · subst hid
    have hnone : (log.remove .done id').2.memoryState.lookup id' = none := AList.lookup_erase ..
    rw [hnone] at hm
    cases hm
  · rw [hcur id' hid]
    refine h.memory id' m ?_
    rw [← AList.lookup_erase_ne hid]
    exact hm

end WalCommitLog

/-! ## Sequences of calls -/

/-- A call of the registry, with what the file system does. -/
inductive RegistryCall where
  | register (progressId : String) (startLsn : ℕ) (io : CommitIo)
  | advanceWith (progressId : String) (lsn : ℕ) (io : CommitIo)
  | remove (progressId : String) (io : CommitIo)

namespace CaptureProgressRegistry

variable (r : CaptureProgressRegistry)

/-- Every commit is synced. -/
def call : RegistryCall → Result Unit × CaptureProgressRegistry
  | .register progressId startLsn io => r.register io progressId startLsn
  | .advanceWith progressId lsn io => r.advanceWith io progressId lsn .sync
  | .remove progressId io => r.remove io progressId

def step (c : RegistryCall) : Option CaptureProgressRegistry :=
  some (r.call c).2

/-- The record of the call reaches the file, and its LSN is not that of a tombstone. A removal has
to succeed: when only its sync fails, the log goes on to believe that it has the cursor. -/
def Written (_ : CaptureProgressRegistry) : RegistryCall → Prop
  | .register _ startLsn io => startLsn ≠ tombstoneLsn ∧ io.Writes
  | .advanceWith _ lsn io => lsn ≠ tombstoneLsn ∧ io.Writes
  | .remove _ io => io = .done

instance (c : RegistryCall) : Decidable (r.Written c) := by
  unfold Written
  split <;> infer_instance

/-- No cursor in memory is ahead of the file. -/
structure Inv (r : CaptureProgressRegistry) : Prop where
  log : r.commit.InFile
  progress : ∀ id p, r.progresses.lookup id = some p → p ≤ r.commit.cursor id
  durability : r.defaultDurability = .sync

variable {r : CaptureProgressRegistry} {id : String} {lsn : ℕ} {io : CommitIo}

theorem lookup_setCursor {id' : String} {p : ℕ}
    (h : (r.setCursor id lsn).progresses.lookup id' = some p) :
    id' = id ∧ p = lsn ∨ r.progresses.lookup id' = some p := by
  rw [setCursor] at h
  by_cases hid : id' = id
  · subst hid
    rw [AList.lookup_insert] at h
    exact .inl ⟨rfl, (Option.some.inj h).symm⟩
  · rw [AList.lookup_insert_ne hid] at h
    exact .inr h

section

variable (h : r.Inv) (hlsn : lsn ≠ tombstoneLsn) (hio : io.Writes)

include h hlsn hio

theorem Inv.setCursor_commit :
    ((r.setCursor id lsn).commitWith io id lsn .sync).2.Inv ∧
      lsn ≤ ((r.setCursor id lsn).commitWith io id lsn .sync).2.commit.cursor id := by
  obtain ⟨hlog, hmono, hle⟩ := h.log.commit hio id hlsn
  refine ⟨⟨hlog, fun id' p hp ↦ ?_, h.durability⟩, hle⟩
  rcases lookup_setCursor hp with ⟨rfl, rfl⟩ | hp
  · exact hle
  · exact (h.progress id' p hp).trans (hmono id')

theorem Inv.register : (r.register io id lsn).2.Inv := by
  rw [CaptureProgressRegistry.register]
  split
  · exact h
  · rw [h.durability]
    exact (h.setCursor_commit hlsn hio).1

/-- **An advance puts the cursor into the file**, or finds it there. -/
theorem Inv.advanceWith :
    (r.advanceWith io id lsn .sync).2.Inv ∧
      lsn ≤ (r.advanceWith io id lsn .sync).2.commit.cursor id := by
  rw [CaptureProgressRegistry.advanceWith, advanceCursor]
  by_cases hlt : (r.progresses.lookup id).getD 0 < lsn
  · rw [if_pos hlt]
    exact h.setCursor_commit hlsn hio
  · rw [if_neg hlt]
    have hold : (r.progresses.lookup id).getD 0 ≤ r.commit.cursor id := by
      rcases hp : r.progresses.lookup id with _ | p
      · exact Nat.zero_le _
      · exact h.progress id p hp
    refine ⟨{ h with progress := fun id' p hp ↦ ?_ }, (Nat.le_of_not_lt hlt).trans hold⟩
    dsimp only at hp
    rw [DashMap.lookup_orDefault] at hp
    split_ifs at hp with hid
    · subst hid
      exact (Option.some.inj hp) ▸ hold
    · exact h.progress id' p hp

end

theorem Inv.remove (h : r.Inv) : (r.remove .done id).2.Inv := by
  obtain ⟨hlog, hoth⟩ := h.log.remove id
  refine ⟨hlog, fun id' p hp ↦ ?_, h.durability⟩
  have hp : (r.progresses.erase id).lookup id' = some p := hp
  by_cases hid : id' = id
  · subst hid
    rw [AList.lookup_erase] at hp
    cases hp
  · rw [AList.lookup_erase_ne hid] at hp
    exact (h.progress id' p hp).trans (hoth id' hid).ge

theorem Inv.step {r' : CaptureProgressRegistry} {c : RegistryCall} (h : r.Inv) (hok : r.Written c)
    (hstep : r.step c = some r') : r'.Inv := by
  cases hstep
  cases c with
  | register => exact h.register hok.1 hok.2
  | advanceWith => exact (h.advanceWith hok.1 hok.2).1
  | remove progressId io =>
    obtain rfl : io = .done := hok
    exact h.remove

theorem inv_open (path : String) (file : List CommitEntry) :
    («open» (.open path file) .sync).Inv := by
  have hread := readable_map_record (readable file)
  have hreop : (WalCommitLog.open path file).reopened = scanAndRecover file := by
    rw [WalCommitLog.reopened, WalCommitLog.open, ← length_map
      (fun r : String × ℕ ↦ CommitEntry.record r.1 r.2), take_length, scanAndRecover, hread]
    rfl
  have hmry : ∀ id m, (scanAndRecover file).lookup id = some m →
      m ≤ (WalCommitLog.open path file).cursor id := by
    intro id m hm
    rw [WalCommitLog.cursor, hreop, hm]
    exact le_rfl
  refine ⟨⟨?_, ?_, hmry⟩, hmry, rfl⟩
  · intro hmem
    obtain ⟨_, -, hr⟩ := mem_map.mp hmem
    cases hr
  · exact (length_map _).symm

theorem minRetainedLsn_le {p : ℕ} (h : r.progresses.lookup id = some p) : r.minRetainedLsn ≤ p := by
  have hle := (foldl_min_le retentionUnpinned (r.progresses.entries.map Sigma.snd)).2 p
    (mem_map_of_mem (AList.mem_lookup_iff.mp h))
  rwa [foldl_map] at hle

/-- **A cursor that was acknowledged is in the file while every record reaches it.** In every
sequence of such calls on a registry that was opened on any file, an `advance_with` that returns
`Ok` leaves a file from which at least its LSN is restored, and `min_retained_lsn` is never above
the cursor that would be restored for a registered id. -/
theorem acknowledged_durable {path : String} {file : List CommitEntry}
    (h : Reaches (guarded Written step) («open» (.open path file) .sync) r) :
    (∀ id lsn io, r.Written (.advanceWith id lsn io) → (r.advanceWith io id lsn .sync).1 = .ok () →
      lsn ≤ (r.advanceWith io id lsn .sync).2.commit.cursor id) ∧
    ∀ id c, (r.progresses.lookup id).isSome → r.commit.reopened.lookup id = some c →
      r.minRetainedLsn ≤ c := by
  have hinv : r.Inv := h.invariant_guarded (I := Inv) (inv_open path file) fun _ _ _ hs ↦ hs.step
  refine ⟨fun id lsn io hok _ ↦ (hinv.advanceWith hok.1 hok.2).2, fun id c hreg hc ↦ ?_⟩
  obtain ⟨p, hp⟩ := Option.isSome_iff_exists.mp hreg
  have hle := hinv.progress id p hp
  rw [WalCommitLog.cursor, hc] at hle
  exact (minRetainedLsn_le hp).trans hle

/-- A cursor is registered and advanced. -/
theorem advance_durable : ∃ r, Reaches (guarded Written step)
      («open» (.open "commit.wal" []) .sync) r ∧
    (r.advanceWith .done "s::log::t" 5 .sync).1 = .ok () ∧
    5 ≤ (r.advanceWith .done "s::log::t" 5 .sync).2.commit.cursor "s::log::t" := by
  have hrun : Reaches (guarded Written step) («open» (.open "commit.wal" []) .sync) _ :=
    reaches_of_run [.register "s::log::t" 0 .done] rfl
  have hok : (((«open» (.open "commit.wal" []) .sync).register .done "s::log::t" 0).2.advanceWith
      .done "s::log::t" 5 .sync).1 = .ok () := rfl
  exact ⟨_, hrun, hok, (acknowledged_durable hrun).1 _ _ _ ⟨by decide, trivial⟩ hok⟩

/-- The commit of a cursor fails because the disk is full, and is tried again: the second call
returns `Ok` and writes nothing. -/
theorem retry_not_durable : ∃ r, Reaches step («open» (.open "commit.wal" []) .sync) r ∧
    (r.advanceWith .done "s::log::t" 5 .sync).1 = .ok () ∧
    (r.advanceWith .done "s::log::t" 5 .sync).2.commit.reopened.lookup "s::log::t" = some 0 ∧
    (r.advanceWith .done "s::log::t" 5 .sync).2.minRetainedLsn = 5 := by
  have hrun : Reaches step («open» (.open "commit.wal" []) .sync) _ :=
    reaches_of_run [.register "s::log::t" 0 .done,
      .advanceWith "s::log::t" 5 (.flushFails "No space left on device" 1)] rfl
  refine ⟨_, hrun, ?_, ?_, ?_⟩
  all_goals decide +kernel

end CaptureProgressRegistry

end MonoTS
