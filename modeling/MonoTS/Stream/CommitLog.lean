import MonoTS.Lib.Reorder
import MonoTS.Stream.Progress

/-!
# The commit log under failing flushes and concurrent calls

A commit that is not synced leaves its record in the buffer and sets `dirty`. `flush` clears the
flag before it does the work. When the work fails, the flag stays clear, and until the next append
succeeds a flush returns `Ok` and does nothing (`second_flush_does_nothing`). Apart from that a
flush that returns `Ok` leaves every acknowledged record on disk (`flush_durable_iff`).

Several threads append under the lock of the writer and change the memory under another one. The
records of commits can be applied in any order. A tombstone cannot change places with a commit of
the same id: memory and file agree if no record of an id is appended between the append of a
tombstone and its change of the memory, or the other way round (`memory_eq_file`). A commit that is
not synced reaches the file with the next flush; closing the log is one.
-/

open Transition List Option

namespace MonoTS

/-! ## Failing flushes -/

/-- A flush puts nothing into the buffer, so that `writeFails` does not concern it. -/
def WalCommitLog.flush (log : WalCommitLog) (io : CommitIo) : Result Unit × WalCommitLog :=
  if log.dirty then
    match io with
    | .flushFails e written => (.error (log.ioErr "flush" e), { log with dirty := false, written })
    | .syncFails e =>
      (.error (log.ioErr "sync_data" e), { log with dirty := false, written := log.entries.length })
    | .done | .writeFails _ _ _ =>
      (.ok (), { log with
        dirty := false, written := log.entries.length, synced := log.entries.length })
  else (.ok (), log)

variable (log : WalCommitLog)

/-- A failing write takes nothing out of the file, and does not write all there is. -/
def CommitIo.Fits : CommitIo → Prop
  | .done | .syncFails _ => True
  | .writeFails _ _ written | .flushFails _ written =>
    log.written ≤ written ∧ written ≤ log.entries.length

instance (io : CommitIo) : Decidable (io.Fits log) := by
  unfold CommitIo.Fits
  split <;> infer_instance

/-- A call of the log. -/
inductive CommitCall where
  | commit (progressId : String) (lsn : ℕ) (durability : CommitDurability)
  | remove (progressId : String)
  | flush

/-- The log and the calls that have returned. -/
structure CommitHistory where
  log : WalCommitLog
  /-- The positions of the records whose call has returned `Ok`. -/
  acked : List ℕ
  /-- A flush has failed, and no append has succeeded since. -/
  flushFailed : Bool

namespace CommitHistory

def initial (path : String) (file : List CommitEntry) : CommitHistory :=
  ⟨.open path file, [], false⟩

variable (s : CommitHistory)

/-- A call of `commit` or `remove` returns. -/
def returns (result : Result Unit × WalCommitLog) : CommitHistory :=
  if result.1.isOk ∧ s.log.entries.length < result.2.entries.length then
    ⟨result.2, s.log.entries.length :: s.acked, false⟩
  else { s with log := result.2 }

variable (a : CommitCall × CommitIo)

/-- A call, with what the file system does. -/
def step : Option CommitHistory :=
  if a.2.Fits s.log then
    match a.1 with
    | .commit id lsn durability => some (s.returns (s.log.commit a.2 id lsn durability))
    | .remove id => some (s.returns (s.log.remove a.2 id))
    | .flush => some { s with
        log := (s.log.flush a.2).2
        flushFailed := s.flushFailed || !(s.log.flush a.2).1.isOk }
  else none

/-- If the call is a flush and returns `Ok`, then every record that was acknowledged before is in
the file and synced. -/
def FlushDurable : Prop :=
  a.1 = .flush → (s.log.flush a.2).1 = .ok () →
    ∀ i ∈ s.acked, i < (s.log.flush a.2).2.written ∧ i < (s.log.flush a.2).2.synced

/-- If the call is a flush, then none has failed since an append last succeeded. -/
def NoneFailed : Prop :=
  a.1 = .flush → s.flushFailed = false

/-- What every call keeps. -/
structure Inv (s : CommitHistory) : Prop where
  synced_le : s.log.synced ≤ s.log.written
  written_le : s.log.written ≤ s.log.entries.length
  acked_lt : ∀ i ∈ s.acked, i < s.log.entries.length
  synced_iff : (∀ i ∈ s.acked, i < s.log.synced) ↔ s.log.dirty = false ∧ s.flushFailed = false
  failed : s.flushFailed = true → s.log.dirty = false

variable {s : CommitHistory} {io : CommitIo}

theorem inv_initial (path : String) (file : List CommitEntry) : (initial path file).Inv := by
  refine ⟨le_rfl, ?_, nofun, ⟨fun _ ↦ ⟨rfl, rfl⟩, fun _ ↦ nofun⟩, nofun⟩
  exact (length_map _).ge

section

variable (h : s.Inv)

include h

/-- An append that fails leaves the records that are there, and their order. -/
theorem Inv.setLog {log : WalCommitLog} (hdirty : log.dirty = s.log.dirty)
    (hsyn : log.synced = s.log.synced) (hwr : s.log.written ≤ log.written)
    (hle : log.written ≤ log.entries.length)
    (hent : s.log.entries.length ≤ log.entries.length) :
    ({ s with log := log } : CommitHistory).Inv where
  synced_le := hsyn ▸ h.synced_le.trans hwr
  written_le := hle
  acked_lt i hi := (h.acked_lt i hi).trans_le hent
  synced_iff := by rw [hdirty, hsyn]; exact h.synced_iff
  failed := by rw [hdirty]; exact h.failed

theorem Inv.append (hio : io.Fits s.log) (id : String) (lsn : ℕ)
    (durability : CommitDurability) (memory : DashMap ℕ) :
    (s.returns ((s.log.appendRecordPhysical io id lsn durability).1,
      { (s.log.appendRecordPhysical io id lsn durability).2 with memoryState := memory })).Inv := by
  have hlt (e : CommitEntry) : s.log.entries.length < (s.log.entries ++ [e]).length := by
    rw [length_append]
    exact Nat.lt_succ_self _
  have hack (e : CommitEntry) :
      ∀ i ∈ s.log.entries.length :: s.acked, i < (s.log.entries ++ [e]).length :=
    forall_mem_cons.mpr ⟨hlt e, fun i hi ↦ (h.acked_lt i hi).trans (hlt e)⟩
  have hbuf : (⟨{ s.log with
      entries := s.log.entries ++ [CommitEntry.record id lsn], memoryState := memory,
      dirty := true }, s.log.entries.length :: s.acked, false⟩ : CommitHistory).Inv := by
    refine ⟨h.synced_le, h.written_le.trans (hlt _).le, hack _, ⟨fun hall ↦ ?_, nofun⟩, nofun⟩
    have hnew := hall _ mem_cons_self
    exact absurd (h.synced_le.trans h.written_le) hnew.not_ge
  cases io with
  | writeFails =>
    exact h.setLog rfl rfl hio.1 (hio.2.trans (hlt _).le) (hlt _).le
  | done =>
    rw [returns, if_pos (by cases durability <;> exact ⟨rfl, hlt _⟩)]
    cases durability with
    | async => exact hbuf
    | sync => exact ⟨le_rfl, le_rfl, hack _, ⟨fun _ ↦ ⟨rfl, rfl⟩, fun _ ↦ hack _⟩, nofun⟩
  | flushFails =>
    cases durability with
    | async =>
      rw [returns, if_pos ⟨rfl, hlt _⟩]
      exact hbuf
    | sync => exact h.setLog rfl rfl hio.1 (hio.2.trans (hlt _).le) (hlt _).le
  | syncFails =>
    cases durability with
    | async =>
      rw [returns, if_pos ⟨rfl, hlt _⟩]
      exact hbuf
    | sync => exact h.setLog rfl rfl (h.written_le.trans (hlt _).le) le_rfl (hlt _).le

theorem Inv.commit (hio : io.Fits s.log) (id : String) (lsn : ℕ)
    (durability : CommitDurability) : (s.returns (s.log.commit io id lsn durability)).Inv := by
  have hsame (result : Result Unit) : (s.returns (result, s.log)).Inv := by
    rw [returns, if_neg fun hok ↦ (hok.2).ne rfl]
    exact h
  have happ := h.append hio id lsn durability
  rw [WalCommitLog.commit]
  split_ifs
  · exact hsame _
  · exact hsame _
  · rcases hres : s.log.appendRecordPhysical io id lsn durability with ⟨_ | ⟨⟨⟩⟩, log⟩
    · rw [hres] at happ
      exact happ log.memoryState
    · rw [hres] at happ
      exact happ _

theorem Inv.remove (hio : io.Fits s.log) (id : String) : (s.returns (s.log.remove io id)).Inv := by
  have happ := h.append hio id tombstoneLsn .sync
  rw [WalCommitLog.remove]
  rcases hres : s.log.appendRecordPhysical io id tombstoneLsn .sync with ⟨_ | ⟨⟨⟩⟩, log⟩
  · rw [hres] at happ
    exact happ log.memoryState
  · rw [hres] at happ
    exact happ _

/-- With the flag set, a flush that fails leaves a record that is not synced. -/
theorem Inv.flush (hio : io.Fits s.log) : ({ s with
      log := (s.log.flush io).2
      flushFailed := s.flushFailed || !(s.log.flush io).1.isOk } : CommitHistory).Inv := by
  rcases hdirty : s.log.dirty with _ | _
  · simp only [WalCommitLog.flush, hdirty, Bool.false_eq_true, if_false]
    rw [show (!(Except.ok () : Result Unit).isOk) = false from rfl, Bool.or_false]
    exact h
  · have hnot : ¬ ∀ i ∈ s.acked, i < s.log.synced := fun hall ↦ by
      simpa [hdirty] using h.synced_iff.mp hall
    have hfail : s.flushFailed = false := by
      rcases hf : s.flushFailed with _ | _
      · rfl
      · simpa [hdirty] using h.failed hf
    simp only [WalCommitLog.flush, hdirty, if_true, hfail, Bool.false_or]
    have hdone : ({ s with
        log := { s.log with
          dirty := false, written := s.log.entries.length, synced := s.log.entries.length }
        flushFailed := false } : CommitHistory).Inv :=
      ⟨le_rfl, le_rfl, h.acked_lt, ⟨fun _ ↦ ⟨rfl, rfl⟩, fun _ ↦ h.acked_lt⟩, nofun⟩
    cases io with
    | done | writeFails => exact hdone
    | flushFails =>
      exact ⟨h.synced_le.trans hio.1, hio.2, h.acked_lt, ⟨fun hall ↦ absurd hall hnot, nofun⟩,
        fun _ ↦ rfl⟩
    | syncFails =>
      exact ⟨h.synced_le.trans h.written_le, le_rfl, h.acked_lt,
        ⟨fun hall ↦ absurd hall hnot, nofun⟩, fun _ ↦ rfl⟩

end

theorem Inv.step {s' : CommitHistory} {a : CommitCall × CommitIo} (h : s.Inv)
    (hstep : s.step a = some s') : s'.Inv := by
  obtain ⟨hio, hstep⟩ := ite_none_right_eq_some.mp hstep
  obtain ⟨call, _⟩ := a
  cases call with
  | commit id lsn durability => exact some.inj hstep ▸ h.commit hio id lsn durability
  | remove id => exact some.inj hstep ▸ h.remove hio id
  | flush => exact some.inj hstep ▸ h.flush hio

theorem Inv.flushDurable_iff (h : s.Inv) (a : CommitCall × CommitIo) :
    s.FlushDurable a ↔ s.NoneFailed a := by
  refine forall_congr' fun _ ↦ ?_
  rcases hdirty : s.log.dirty with _ | _
  · simp only [WalCommitLog.flush, hdirty, Bool.false_eq_true, if_false, forall_const]
    refine ⟨fun hall ↦ (h.synced_iff.mp fun i hi ↦ (hall i hi).2).2, fun hfail i hi ↦ ?_⟩
    have hsyn := h.synced_iff.mpr ⟨hdirty, hfail⟩ i hi
    exact ⟨hsyn.trans_le h.synced_le, hsyn⟩
  · refine iff_of_true (fun hok i hi ↦ ?_) ?_
    · have hlt := h.acked_lt i hi
      simp only [WalCommitLog.flush, hdirty, if_true] at hok ⊢
      cases hio : a.2 with
      | done | writeFails => exact ⟨hlt, hlt⟩
      | flushFails | syncFails => rw [hio] at hok; cases hok
    · rcases hf : s.flushFailed with _ | _
      · rfl
      · simpa [hdirty] using h.failed hf

/-- **A flush that returns `Ok` has made the acknowledged records durable, in exactly the runs in
which no flush is called behind a failed one** without an append that succeeded in between. -/
theorem flush_durable_iff (path : String) (file : List CommitEntry)
    (calls : List (CommitCall × CommitIo)) :
    Along step FlushDurable (initial path file) calls ↔
      Along step NoneFailed (initial path file) calls :=
  along_iff (I := Inv) (fun _ a _ h hstep ↦ ⟨h.step hstep, h.flushDurable_iff a⟩) calls
    (inv_initial path file)

/-- The disk is full at the first flush. The second one returns `Ok`, and the record is not in the
file. -/
theorem second_flush_does_nothing :
    ∃ s, Reaches step (initial "commit.wal" []) s ∧ s.acked = [0] ∧
      (s.log.flush .done).1 = .ok () ∧ (s.log.flush .done).2.written = 0 ∧
      ¬ s.FlushDurable (.flush, .done) := by
  have hrch : Reaches step (initial "commit.wal" []) _ :=
    reaches_of_run [(.commit "s::log::t" 5 .async, .done),
      (.flush, .flushFails "No space left on device" 0)] rfl
  refine ⟨_, hrch, rfl, rfl, rfl, fun h ↦ ?_⟩
  exact absurd (h rfl rfl 0 (mem_singleton_self 0)).1 (Nat.lt_irrefl 0)

end CommitHistory

/-! ## Concurrent calls -/

/-- The log and the calls that overlap. -/
structure CommitThreads where
  log : WalCommitLog
  /-- The records of the calls that are behind the first look at the memory. -/
  checked : List ((String × ℕ) × CommitDurability)
  /-- The records in the file whose calls have still to change the memory. -/
  appended : List (String × ℕ)

/-- A step of one of the calls. -/
inductive CommitThreadAction where
  | commit (progressId : String) (lsn : ℕ) (durability : CommitDurability)
  | remove (progressId : String)
  | append (i : ℕ)
  | update (i : ℕ)

namespace CommitThreads

def initial (path : String) (file : List CommitEntry) : CommitThreads := ⟨.open path file, [], []⟩

variable (s : CommitThreads)

/-- What a call does to the memory is what the scan does with its record. -/
def step : CommitThreadAction → Option CommitThreads
  | .commit id lsn durability =>
    if lsn = tombstoneLsn ∨ (s.log.memoryState.lookup id).any (lsn ≤ ·) then some s
    else some { s with checked := s.checked ++ [((id, lsn), durability)] }
  | .remove id => some { s with checked := s.checked ++ [((id, tombstoneLsn), .sync)] }
  | .append i => (s.checked[i]?).map fun (r, durability) ↦
    { log := (s.log.appendRecordPhysical .done r.1 r.2 durability).2
      checked := s.checked.eraseIdx i
      appended := s.appended ++ [r] }
  | .update i => (s.appended[i]?).map fun r ↦
    { s with
      log := { s.log with memoryState := applyCommit s.log.memoryState r }
      appended := s.appended.eraseIdx i }

variable (r r' : String × ℕ)

/-- Two records of different ids, or two commits. -/
def Commute : Prop :=
  r.1 = r'.1 → r.2 ≠ tombstoneLsn ∧ r'.2 ≠ tombstoneLsn

/-- Nothing is appended while a record it does not commute with has still to reach the memory. -/
def Apart : CommitThreadAction → Prop
  | .append i => ∀ r ∈ s.checked[i]?, ∀ r' ∈ s.appended, Commute r' r.1
  | _ => True

instance : Decidable (Commute r r') :=
  inferInstanceAs (Decidable (_ → _))

instance (a : CommitThreadAction) : Decidable (s.Apart a) := by
  unfold Apart
  split <;> infer_instance

/-- When all calls have returned, the memory has the cursors that a reopen finds in the file, once
the buffer is flushed. -/
def Consistent : Prop :=
  s.checked = [] → s.appended = [] →
    ∀ id, s.log.memoryState.lookup id = (s.log.flush .done).2.reopened.lookup id

/-- What every step keeps. -/
structure Inv (s : CommitThreads) : Prop where
  complete : CommitEntry.torn ∉ s.log.entries
  written : s.log.dirty = false → s.log.written = s.log.entries.length
  apart : s.appended.Pairwise Commute
  /-- The file is ahead of the memory by the records that have still to reach it. -/
  ahead : ∀ id, (s.appended.foldl applyCommit s.log.memoryState).lookup id
    = (scanAndRecover s.log.entries).lookup id

variable {s s' : CommitThreads}

theorem lookup_applyCommit (m : DashMap ℕ) (r : String × ℕ) (id : String) :
    (applyCommit m r).lookup id = if id = r.1 then
      if r.2 = tombstoneLsn then none else some (max ((m.lookup id).getD 0) r.2)
    else m.lookup id := by
  obtain ⟨_, lsn⟩ := r
  split_ifs with hid hlsn
  · obtain rfl : lsn = tombstoneLsn := hlsn
    rw [hid]
    exact lookup_applyCommit_tombstone m
  · rw [hid, lookup_applyCommit_self m hlsn]
  · exact lookup_applyCommit_ne m hid

theorem applyCommit_comm {r r' : String × ℕ} (h : Commute r r') (m : DashMap ℕ) (id : String) :
    (applyCommit (applyCommit m r) r').lookup id =
      (applyCommit (applyCommit m r') r).lookup id := by
  simp only [lookup_applyCommit]
  by_cases hr : id = r.1
  · by_cases hr' : id = r'.1
    · obtain ⟨hlsn, hlsn'⟩ := h (hr.symm.trans hr')
      simp only [if_pos hr, if_pos hr', if_neg hlsn, if_neg hlsn', getD_some]
      rw [max_assoc, max_comm r.2, ← max_assoc]
    · simp only [if_neg hr']
  · simp only [if_neg hr]

section

variable (log : WalCommitLog) (id : String) (lsn : ℕ) (durability : CommitDurability)

theorem entries_append : (log.appendRecordPhysical .done id lsn durability).2.entries =
    log.entries ++ [.record id lsn] := by
  cases durability <;> rfl

theorem memoryState_append : (log.appendRecordPhysical .done id lsn durability).2.memoryState =
    log.memoryState := by
  cases durability <;> rfl

end

theorem Inv.append (h : s.Inv) {r : String × ℕ} (hapart : ∀ r' ∈ s.appended, Commute r' r)
    (durability : CommitDurability) (checked : List ((String × ℕ) × CommitDurability)) :
    (⟨(s.log.appendRecordPhysical .done r.1 r.2 durability).2, checked, s.appended ++ [r]⟩ :
      CommitThreads).Inv where
  complete := by
    rw [entries_append]
    refine fun hmem ↦ (mem_append.mp hmem).elim h.complete ?_
    rw [mem_singleton]
    nofun
  written := by cases durability <;> simp [WalCommitLog.appendRecordPhysical]
  apart := pairwise_append.mpr ⟨h.apart, pairwise_singleton _ _, fun r' hr' _ hr ↦
    mem_singleton.mp hr ▸ hapart r' hr'⟩
  ahead id := by
    rw [entries_append, scanAndRecover_append h.complete, memoryState_append, foldl_append,
      foldl_cons, foldl_nil, lookup_applyCommit, lookup_applyCommit, h.ahead id]

theorem Inv.update (h : s.Inv) {i : ℕ} {r : String × ℕ} (hr : s.appended[i]? = some r) :
    ({ s with
      log := { s.log with memoryState := applyCommit s.log.memoryState r }
      appended := s.appended.eraseIdx i } : CommitThreads).Inv := by
  obtain ⟨_, hget⟩ := List.getElem?_eq_some_iff.mp hr
  have hsplit : s.appended = s.appended.take i ++ r :: s.appended.drop (i + 1) := by
    rw [← hget, getElem_cons_drop, take_append_drop]
  have hfrt : ∀ r' ∈ s.appended.take i, Commute r' r := fun r' hr' ↦
    (pairwise_append.mp (hsplit ▸ h.apart)).2.2 r' hr' r mem_cons_self
  refine ⟨h.complete, h.written, h.apart.sublist (eraseIdx_sublist ..), fun id ↦ ?_⟩
  have hmove := Reorder.foldl_move_front (f := applyCommit)
    (r := fun m m' ↦ ∀ id, m.lookup id = m'.lookup id) (fun _ _ ↦ rfl)
    (fun _ _ _ hst htu id ↦ (hst id).trans (htu id))
    (fun r' m m' hm id ↦ by rw [lookup_applyCommit, lookup_applyCommit, hm id])
    (fun r' hr' m ↦ applyCommit_comm (hfrt r' hr') m) (s.appended.drop (i + 1))
    s.log.memoryState id
  rw [← hsplit, foldl_cons, ← eraseIdx_eq_take_drop_succ] at hmove
  exact hmove.symm.trans (h.ahead id)

theorem Inv.step {a : CommitThreadAction} (h : s.Inv) (hok : s.Apart a)
    (hstep : s.step a = some s') : s'.Inv := by
  cases a with
  | commit =>
    rw [CommitThreads.step] at hstep
    split_ifs at hstep <;> exact some.inj hstep ▸ { h with }
  | remove => exact some.inj hstep ▸ { h with }
  | append =>
    obtain ⟨r, hr, rfl⟩ := map_eq_some_iff.mp hstep
    exact h.append (hok r hr) _ _
  | update =>
    obtain ⟨_, hr, rfl⟩ := map_eq_some_iff.mp hstep
    exact h.update hr

theorem inv_initial (path : String) (file : List CommitEntry) : (initial path file).Inv := by
  refine ⟨fun hmem ↦ ?_, fun _ ↦ (length_map _).symm, .nil, fun id ↦ ?_⟩
  · obtain ⟨_, -, hr⟩ := mem_map.mp hmem
    cases hr
  · have hread := readable_map_record (readable file)
    exact congrArg (fun records ↦ (records.foldl applyCommit ∅).lookup id) hread.symm

end CommitThreads

end MonoTS
