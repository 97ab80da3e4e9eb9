import MonoTS.Stream.Progress

/-!
# Dropping a stream while its commits are acknowledged

The sink worker of a stream sends a message for every commit of its sink, and a task of the
supervisor takes the messages and advances the cursor. `DROP STREAM` aborts the pipeline and then
removes the cursors of the stream's tables, from memory and from the commit log. It does not wait
for the task, which goes on until the channel is empty.

Advancing a cursor creates it when there is none. So a message that is handled after the removal
brings the cursor back, in memory and in the log, and nothing removes it any more: it pins the WAL
for a stream that does not exist (`late_ack_pins_retention`). When the task takes no message of a
table whose removal has begun, and the tombstone does not come between the two halves of an advance,
the cursors are gone for good (`cursors_gone`).

A removal and an advance take two steps each, one in memory and one in the log. The disk is healthy
here; records of an asynchronous commit may stay in the buffer of the log for as long as they like.
-/

open Transition List Option

namespace MonoTS

open CaptureProgressRegistry

/-- `capture_progress_id`. -/
def captureProgressId (stream table : String) : String := stream ++ "::log::" ++ table

theorem captureProgressId_inj {stream t t' : String}
    (h : captureProgressId stream t = captureProgressId stream t') : t = t' := by
  have hlist := congrArg String.toList h
  simp only [captureProgressId, String.toList_append] at hlist
  exact String.toList_inj.mp (append_cancel_left hlist)

/-- How far `DROP STREAM` has come. -/
inductive TeardownPhase where
  | running
  | aborted
  /-- The tables whose cursors are still to be removed; the first one may be forgotten in memory
  already. -/
  | removing (forgotten : Bool) (left : List String)
  | dropped
  deriving DecidableEq, Repr

namespace TeardownPhase

/-- The cursor of the table has been removed, in memory and in the log. -/
def gone : TeardownPhase → String → Bool
  | .running, _ | .aborted, _ => false
  | .removing _ left, table => table ∉ left
  | .dropped, _ => true

/-- The cursor of the table has been removed in memory. -/
def begun : TeardownPhase → String → Bool
  | .running, _ | .aborted, _ => false
  | .removing forgotten left, table => table ∉ left ∨ forgotten ∧ left.head? = some table
  | .dropped, _ => true

theorem begun_of_gone {phase : TeardownPhase} {table : String} (h : phase.gone table = true) :
    phase.begun table = true := by
  cases phase with
  | running | aborted => cases h
  | removing =>
    rw [gone, decide_eq_true_eq] at h
    rw [begun, decide_eq_true_eq]
    exact .inl h
  | dropped => rfl

end TeardownPhase

open TeardownPhase (removing begun)

/-- A stream that is being dropped, with the channel of its acknowledgements. -/
structure StreamTeardown where
  registry : CaptureProgressRegistry
  /-- The messages of the sink worker: a table and an LSN. -/
  channel : List (String × ℕ)
  /-- The commit that the task has made in memory and not yet in the log. -/
  hand : Option (String × ℕ)
  phase : TeardownPhase

/-- A step of the teardown or of the streams. -/
inductive TeardownAction where
  /-- The sink worker has committed. -/
  | send (table : String) (lsn : ℕ)
  /-- The task takes a message and moves the cursor. -/
  | receive
  /-- The task calls the log. -/
  | logCommit
  | abort
  | beginRemove
  /-- `progresses.remove` for the first table that is left. -/
  | forget
  /-- `commit.remove` for it. -/
  | tombstone
  | finish
  /-- Another stream advances. -/
  | other (progressId : String) (lsn : ℕ)
  /-- The log is flushed. -/
  | flush

namespace WalCommitLog

variable (log : WalCommitLog)

/-- `flush` on a healthy disk. -/
def flushed : WalCommitLog :=
  if log.dirty then
    { log with written := log.entries.length, synced := log.entries.length, dirty := false }
  else log

/-- No restart finds the cursor, whatever part of the buffer has been written by then. -/
def Absent (id : String) : Prop :=
  ∀ k, log.written ≤ k → (scanAndRecover (log.entries.take k)).lookup id = none

/-- There are complete records only, and the file has no more of them than there are. -/
structure Sound (log : WalCommitLog) : Prop where
  complete : CommitEntry.torn ∉ log.entries
  written : log.written ≤ log.entries.length

variable {log : WalCommitLog} {id : String}

/-- What an operation on a healthy disk does to the records: it leaves them, or appends one. -/
structure Appends (log log' : WalCommitLog) (id : String) (lsn : ℕ) : Prop where
  entries : log'.entries = log.entries ++ [.record id lsn]
  written : log'.written = log.written ∨ log'.written = log'.entries.length

variable {log' : WalCommitLog}

theorem Appends.sound {lsn : ℕ} (h : Appends log log' id lsn) (hlog : log.Sound) : log'.Sound where
  complete := by
    rw [h.entries, mem_append, mem_singleton]
    exact not_or.mpr ⟨hlog.complete, nofun⟩
  written := by
    rcases h.written with hw | hw
    · rw [hw, h.entries, length_append]
      exact hlog.written.trans (Nat.le_add_right _ _)
    · exact hw.le

/-- A record of another id does not bring the cursor back. -/
theorem Appends.absent {id' : String} {lsn : ℕ} (h : Appends log log' id' lsn)
    (hlog : log.Sound) (hne : id ≠ id') (habs : log.Absent id) : log'.Absent id := by
  intro k hk
  rw [h.entries]
  by_cases hle : k ≤ log.entries.length
  · rw [take_append_of_le_length hle]
    refine habs k ?_
    rcases h.written with hw | hw
    · exact hw ▸ hk
    · rw [hw, h.entries, length_append] at hk
      exact absurd (hk.trans hle) (Nat.not_succ_le_self _)
  · have hall : (log.entries ++ [CommitEntry.record id' lsn]).length ≤ k := by
      rw [length_append]
      exact Nat.lt_of_not_le hle
    rw [take_of_length_le hall, scanAndRecover_append hlog.complete,
      lookup_applyCommit_ne _ hne, ← take_length (l := log.entries)]
    exact habs _ hlog.written

theorem appends_of_append (log : WalCommitLog) (id : String) (lsn : ℕ) (d : CommitDurability) :
    Appends log (log.appendRecordPhysical .done id lsn d).2 id lsn := by
  cases d with
  | async => exact ⟨rfl, .inl rfl⟩
  | sync => exact ⟨rfl, .inr rfl⟩

theorem commit_cases (log : WalCommitLog) (id : String) (lsn : ℕ) (d : CommitDurability) :
    (log.commit .done id lsn d).2 = log ∨ Appends log (log.commit .done id lsn d).2 id lsn := by
  rw [commit]
  split_ifs
  · exact .inl rfl
  · exact .inl rfl
  · have happ := appends_of_append log id lsn d
    rcases hres : log.appendRecordPhysical .done id lsn d with ⟨_ | _, _⟩
    · rw [hres] at happ
      exact .inr happ
    · rw [hres] at happ
      exact .inr { happ with }

theorem Sound.commit (h : log.Sound) (lsn : ℕ) (d : CommitDurability) :
    (log.commit .done id lsn d).2.Sound := by
  rcases log.commit_cases id lsn d with heq | happ
  · rw [heq]
    exact h
  · exact happ.sound h

theorem Absent.commit {id' : String} (h : log.Absent id) (hlog : log.Sound) (hne : id ≠ id')
    (lsn : ℕ) (d : CommitDurability) : (log.commit .done id' lsn d).2.Absent id := by
  rcases log.commit_cases id' lsn d with heq | happ
  · rw [heq]
    exact h
  · exact happ.absent hlog hne h

theorem appends_remove (log : WalCommitLog) (id : String) :
    Appends log (log.remove .done id).2 id tombstoneLsn :=
  ⟨rfl, .inr rfl⟩

/-- A removal is written at once. -/
theorem absent_remove (hlog : log.Sound) (id : String) : (log.remove .done id).2.Absent id := by
  intro k hk
  have hent := (appends_remove log id).entries
  have hall : (log.entries ++ [CommitEntry.record id tombstoneLsn]).length ≤ k := hk
  rw [hent, take_of_length_le hall, scanAndRecover_append hlog.complete]
  exact lookup_applyCommit_tombstone _

theorem Sound.flushed (h : log.Sound) : log.flushed.Sound := by
  rw [WalCommitLog.flushed]
  split_ifs
  · exact ⟨h.complete, le_rfl⟩
  · exact h

theorem Absent.flushed (h : log.Absent id) (hlog : log.Sound) : log.flushed.Absent id := by
  rw [WalCommitLog.flushed]
  split_ifs
  · exact fun k hk ↦ h k (hlog.written.trans hk)
  · exact h

end WalCommitLog

namespace StreamTeardown

variable (stream : String) (tables : List String) (durability : CommitDurability)

variable (s : StreamTeardown)

def step : TeardownAction → Option StreamTeardown
  | .send table lsn =>
    if table ∈ tables then some { s with channel := s.channel ++ [(table, lsn)] } else none
  | .receive =>
    match s.hand, s.channel with
    | none, (table, lsn) :: rest =>
      let id := captureProgressId stream table
      match s.registry.advanceCursor id lsn with
      | (true, registry) => some { s with registry, channel := rest, hand := some (id, lsn) }
      | (false, registry) => some { s with registry, channel := rest }
    | _, _ => none
  | .logCommit =>
    s.hand.map fun c ↦
      { s with registry := (s.registry.commitWith .done c.1 c.2 durability).2, hand := none }
  | .abort => if s.phase = .running then some { s with phase := .aborted } else none
  | .beginRemove =>
    if s.phase = .aborted then some { s with phase := .removing false tables } else none
  | .forget =>
    match s.phase with
    | .removing false (table :: left) =>
      some { s with
        registry := s.registry.forget (captureProgressId stream table)
        phase := .removing true (table :: left) }
    | _ => none
  | .tombstone =>
    match s.phase with
    | .removing true (table :: left) =>
      some { s with
        registry := (s.registry.removeCommit .done (captureProgressId stream table)).2
        phase := .removing false left }
    | _ => none
  | .finish => if s.phase = .removing false [] then some { s with phase := .dropped } else none
  | .other id lsn =>
    if ∀ table ∈ tables, id ≠ captureProgressId stream table then
      some { s with registry := (s.registry.advanceWith .done id lsn durability).2 }
    else none
  | .flush => some { s with registry := { s.registry with commit := s.registry.commit.flushed } }

/-- The task takes no message of a table whose removal has begun, and no tombstone is written while
the task has a commit of its table in hand. -/
def Settled : TeardownAction → Prop
  | .receive => ∀ m ∈ s.channel.head?, s.phase.begun m.1 = false
  | .tombstone => ∀ table ∈ tables, s.phase.begun table = true → s.phase.gone table = false →
    s.hand.map Prod.fst ≠ some (captureProgressId stream table)
  | _ => True

instance (a : TeardownAction) : Decidable (s.Settled stream tables a) := by
  unfold Settled
  split <;> infer_instance

/-! ## Every run -/

/-- A cursor that has been removed is nowhere, and nobody is about to bring it back. -/
structure Inv (s : StreamTeardown) : Prop where
  log : s.registry.commit.Sound
  left : ∀ forgotten left, s.phase = .removing forgotten left → ∀ table ∈ left, table ∈ tables
  forgotten : ∀ table ∈ tables, s.phase.begun table = true →
    s.registry.progresses.lookup (captureProgressId stream table) = none
  gone : ∀ table ∈ tables, s.phase.gone table = true →
    s.registry.commit.Absent (captureProgressId stream table) ∧
      s.hand.map Prod.fst ≠ some (captureProgressId stream table)

variable {stream tables durability} {s : StreamTeardown}

theorem lookup_advanceCursor_ne {r : CaptureProgressRegistry} {id id' : String} (h : id' ≠ id)
    (lsn : ℕ) : (r.advanceCursor id lsn).2.progresses.lookup id' = r.progresses.lookup id' := by
  rw [advanceCursor]
  split_ifs
  · exact AList.lookup_insert_ne h
  · dsimp only
    rw [DashMap.lookup_orDefault, if_neg h]

theorem commit_advanceCursor (r : CaptureProgressRegistry) (id : String) (lsn : ℕ) :
    (r.advanceCursor id lsn).2.commit = r.commit := by
  rw [advanceCursor]
  split_ifs <;> rfl

variable {table : String}

section

variable (h : s.Inv stream tables)

include h

theorem Inv.receive (lsn : ℕ) (rest : List (String × ℕ))
    (hand : Option (String × ℕ)) (hbegun : s.phase.begun table = false)
    (hhand : ∀ id, hand.map Prod.fst = some id → id = captureProgressId stream table) :
    Inv stream tables { s with
      registry := (s.registry.advanceCursor (captureProgressId stream table) lsn).2
      channel := rest, hand } := by
  have hne : ∀ table', s.phase.begun table' = true →
      captureProgressId stream table' ≠ captureProgressId stream table := by
    intro table' hb heq
    rw [captureProgressId_inj heq, hbegun] at hb
    cases hb
  have hcom := commit_advanceCursor s.registry (captureProgressId stream table) lsn
  refine ⟨by rw [hcom]; exact h.log, h.left, fun table' ht hb ↦ ?_, fun table' ht hg ↦ ?_⟩
  · rw [lookup_advanceCursor_ne (hne table' hb)]
    exact h.forgotten table' ht hb
  · rw [hcom]
    refine ⟨(h.gone table' ht hg).1, fun hid ↦ ?_⟩
    exact hne table' (TeardownPhase.begun_of_gone hg) (hhand _ hid)

theorem Inv.logCommit {c : String × ℕ} (hc : s.hand = some c) :
    Inv stream tables { s with
      registry := (s.registry.commitWith .done c.1 c.2 durability).2, hand := none } := by
  refine ⟨h.log.commit c.2 durability, h.left, h.forgotten, fun table ht hg ↦ ⟨?_, nofun⟩⟩
  obtain ⟨habs, hhand⟩ := h.gone table ht hg
  refine habs.commit h.log (fun heq ↦ hhand ?_) c.2 durability
  rw [hc, heq]
  rfl

variable {left : List String}

theorem Inv.forget (hph : s.phase = .removing false (table :: left)) : Inv stream tables { s with
      registry := s.registry.forget (captureProgressId stream table)
      phase := .removing true (table :: left) } := by
  refine ⟨h.log, fun _ _ heq ↦ ?_, fun table' ht hb ↦ ?_, fun table' ht hg ↦ ?_⟩
  · obtain ⟨-, rfl⟩ := removing.inj heq
    exact h.left _ _ hph
  · have hlook : (s.registry.forget (captureProgressId stream table)).progresses.lookup
        (captureProgressId stream table') = none := by
      by_cases hname : table' = table
      · subst hname
        exact AList.lookup_erase ..
      · have hne : captureProgressId stream table' ≠ captureProgressId stream table :=
          fun heq ↦ hname (captureProgressId_inj heq)
        rw [CaptureProgressRegistry.forget, AList.lookup_erase_ne hne]
        refine h.forgotten table' ht ?_
        simp only [begun, head?_cons, Option.some.injEq, Ne.symm hname,
          and_false, or_false, decide_eq_true_eq] at hb
        rw [hph, begun, decide_eq_true_eq]
        exact .inl hb
    exact hlook
  · exact h.gone table' ht (by rw [hph]; exact hg)

/-- The tombstone is written while the task has no commit of the table in hand. -/
theorem Inv.tombstone (hph : s.phase = .removing true (table :: left))
    (hok : s.hand.map Prod.fst ≠ some (captureProgressId stream table)) :
    Inv stream tables { s with
      registry := (s.registry.removeCommit .done (captureProgressId stream table)).2
      phase := .removing false left } := by
  have happ := s.registry.commit.appends_remove (captureProgressId stream table)
  -- A table that is done is one that was done before, or this one.
  have hcases : ∀ table', table' ∉ left → table' = table ∨ s.phase.gone table' = true := by
    intro table' hleft
    rw [hph, TeardownPhase.gone, decide_eq_true_eq, mem_cons]
    by_cases hname : table' = table
    · exact .inl hname
    · exact .inr (not_or.mpr ⟨hname, hleft⟩)
  refine ⟨happ.sound h.log, fun _ _ heq ↦ ?_, fun table' ht hb ↦ ?_, fun table' ht hg ↦ ?_⟩
  · obtain ⟨-, rfl⟩ := removing.inj heq
    exact fun t ht ↦ h.left _ _ hph t (mem_cons_of_mem _ ht)
  · simp only [begun, Bool.false_eq_true, false_and, or_false, decide_eq_true_eq] at hb
    refine h.forgotten table' ht ?_
    rcases hcases table' hb with rfl | hg
    · rw [hph, begun, decide_eq_true_eq]
      exact .inr ⟨rfl, rfl⟩
    · exact TeardownPhase.begun_of_gone hg
  · rw [TeardownPhase.gone, decide_eq_true_eq] at hg
    by_cases hname : table' = table
    · subst hname
      exact ⟨WalCommitLog.absent_remove h.log _, hok⟩
    · obtain ⟨habs, hhand⟩ := h.gone table' ht ((hcases table' hg).resolve_left hname)
      exact ⟨happ.absent h.log (fun heq ↦ hname (captureProgressId_inj heq)) habs, hhand⟩

/-- Another stream does not touch the cursors of this one. -/
theorem Inv.other {id : String} {lsn : ℕ}
    (hoth : ∀ table ∈ tables, id ≠ captureProgressId stream table) :
    Inv stream tables { s with
      registry := (s.registry.advanceWith .done id lsn durability).2 } := by
  have hcom := commit_advanceCursor s.registry id lsn
  have hlook : ∀ table ∈ tables,
      (s.registry.advanceCursor id lsn).2.progresses.lookup (captureProgressId stream table)
        = s.registry.progresses.lookup (captureProgressId stream table) := fun table ht ↦
    lookup_advanceCursor_ne (hoth table ht).symm lsn
  rw [advanceWith]
  rcases hadv : s.registry.advanceCursor id lsn with ⟨_ | _, r⟩
  · rw [hadv] at hcom hlook
    dsimp only at hcom hlook
    refine ⟨hcom ▸ h.log, h.left, fun table ht hb ↦ ?_, fun table ht hg ↦ ?_⟩
    · exact (hlook table ht).trans (h.forgotten table ht hb)
    · exact ⟨hcom ▸ (h.gone table ht hg).1, (h.gone table ht hg).2⟩
  · rw [hadv] at hcom hlook
    dsimp only at hcom hlook
    have hlog : r.commit.Sound := hcom ▸ h.log
    refine ⟨hlog.commit lsn durability, h.left, fun table ht hb ↦ ?_, fun table ht hg ↦ ?_⟩
    · exact (hlook table ht).trans (h.forgotten table ht hb)
    · have habs : r.commit.Absent (captureProgressId stream table) := hcom ▸ (h.gone table ht hg).1
      exact ⟨habs.commit hlog (hoth table ht).symm lsn durability, (h.gone table ht hg).2⟩

theorem Inv.step {s' : StreamTeardown} {a : TeardownAction} (hok : s.Settled stream tables a)
    (hstep : s.step stream tables durability a = some s') : s'.Inv stream tables := by
  cases a with
  | send =>
    obtain ⟨-, hstep⟩ := ite_none_right_eq_some.mp hstep
    exact some.inj hstep ▸ { h with }
  | receive =>
    rw [StreamTeardown.step] at hstep
    split at hstep
    · rename_i table lsn rest hhand hchn
      have hbegun : s.phase.begun table = false := hok (table, lsn) (by rw [hchn]; rfl)
      rcases hadv : s.registry.advanceCursor (captureProgressId stream table) lsn with ⟨_ | _, _⟩
      · simp only [hadv] at hstep
        cases hstep
        have hr := h.receive lsn rest s.hand hbegun (by rw [hhand]; nofun)
        rw [hadv] at hr
        exact hr
      · simp only [hadv] at hstep
        cases hstep
        have hr := h.receive lsn rest (some (captureProgressId stream table, lsn)) hbegun
          fun id hid ↦ (some.inj hid).symm
        rw [hadv] at hr
        exact hr
    · cases hstep
  | logCommit =>
    obtain ⟨_, hc, rfl⟩ := map_eq_some_iff.mp hstep
    exact h.logCommit hc
  | abort =>
    obtain ⟨hph, rfl⟩ := ite_some_none_eq_some.mp hstep
    exact ⟨h.log, nofun, nofun, nofun⟩
  | beginRemove =>
    obtain ⟨hph, rfl⟩ := ite_some_none_eq_some.mp hstep
    refine ⟨h.log, fun _ _ heq ↦ ?_, fun table ht hb ↦ ?_, fun table ht hg ↦ ?_⟩
    · obtain ⟨-, rfl⟩ := removing.inj heq
      exact fun _ ht ↦ ht
    · simp [begun, ht] at hb
    · simp [TeardownPhase.gone, ht] at hg
  | forget =>
    simp only [StreamTeardown.step] at hstep
    split at hstep
    · rename_i table left hph
      exact some.inj hstep ▸ h.forget hph
    · cases hstep
  | tombstone =>
    simp only [StreamTeardown.step] at hstep
    split at hstep
    · rename_i table left hph
      cases hstep
      refine h.tombstone hph (hok table ?_ ?_ ?_)
      · exact h.left _ _ hph table mem_cons_self
      · simp [hph, begun]
      · simp [hph, TeardownPhase.gone]
    · cases hstep
  | finish =>
    obtain ⟨hph, rfl⟩ := ite_some_none_eq_some.mp hstep
    refine ⟨h.log, nofun, fun table ht _ ↦ ?_, fun table ht _ ↦ ?_⟩
    · exact h.forgotten table ht (by simp [hph, begun])
    · exact h.gone table ht (by simp [hph, TeardownPhase.gone])
  | other =>
    obtain ⟨hoth, hstep⟩ := ite_none_right_eq_some.mp hstep
    exact some.inj hstep ▸ h.other hoth
  | flush =>
    cases hstep
    exact ⟨h.log.flushed, h.left, h.forgotten, fun table ht hg ↦
      ⟨(h.gone table ht hg).1.flushed h.log, (h.gone table ht hg).2⟩⟩

end

/-- A running stream, with a registry that was opened on a file. -/
def initial (path : String) (file : List CommitEntry) (durability : CommitDurability) :
    StreamTeardown :=
  ⟨.open (.open path file) durability, [], none, .running⟩

theorem inv_initial (path : String) (file : List CommitEntry) :
    (initial path file durability).Inv stream tables := by
  refine ⟨⟨fun hmem ↦ ?_, ?_⟩, nofun, nofun, nofun⟩
  · obtain ⟨_, -, hr⟩ := List.mem_map.mp hmem
    cases hr
  · exact (length_map _).ge

/-- **A dropped stream stops pinning retention if its acknowledgements are handled before the
removal.** In every run in which the task takes no message of a table whose removal has begun, and
no tombstone comes between the two halves of an advance, no cursor of the stream is in the registry
once `DROP STREAM` has returned, and no restart finds one. -/
theorem cursors_gone {path : String} {file : List CommitEntry}
    (h : Reaches (guarded (Settled stream tables) (step stream tables durability))
      (initial path file durability) s) (hdropped : s.phase = .dropped) :
    ∀ table ∈ tables,
      s.registry.progresses.lookup (captureProgressId stream table) = none ∧
      s.registry.commit.Absent (captureProgressId stream table) := by
  have hinv : s.Inv stream tables :=
    h.invariant_guarded (I := Inv stream tables) (inv_initial path file) fun _ _ _ hs ↦ hs.step
  intro table ht
  refine ⟨hinv.forgotten table ht ?_, (hinv.gone table ht ?_).1⟩
  · rw [hdropped]
    rfl
  · rw [hdropped]
    rfl

/-- The last acknowledgement is handled before the removal. -/
theorem cursors_gone_after_ack : ∃ s,
    Reaches (guarded (Settled "s" ["t"]) (step "s" ["t"] .async))
      (initial "commit.wal" [.record "s::log::t" 0] .async) s ∧
    s.phase = .dropped ∧ s.channel = [] ∧
    s.registry.progresses.lookup (captureProgressId "s" "t") = none ∧
    s.registry.commit.Absent (captureProgressId "s" "t") := by
  have hrun : Reaches (guarded (Settled "s" ["t"]) (step "s" ["t"] .async))
      (initial "commit.wal" [.record "s::log::t" 0] .async) _ :=
    reaches_of_run [.send "t" 5, .abort, .receive, .logCommit, .beginRemove, .forget, .tombstone,
      .finish] rfl
  exact ⟨_, hrun, rfl, rfl, cursors_gone hrun rfl "t" (by decide)⟩

/-- **An acknowledgement that is handled after the removal brings the cursor back**, and it pins the
retention of a stream that is gone. -/
theorem late_ack_pins_retention : ∃ s,
    Reaches (step "s" ["t"] .async) (initial "commit.wal" [.record "s::log::t" 0] .async) s ∧
    s.phase = .dropped ∧ s.channel = [] ∧ s.hand = none ∧
    s.registry.progresses.lookup (captureProgressId "s" "t") = some 5 ∧
    s.registry.minRetainedLsn = 5 ∧
    s.registry.commit.reopened.lookup (captureProgressId "s" "t") = some 5 := by
  have hrun : Reaches (step "s" ["t"] .async)
      (initial "commit.wal" [.record "s::log::t" 0] .async) _ :=
    reaches_of_run [.send "t" 5, .abort, .beginRemove, .forget, .tombstone, .finish, .receive,
      .logCommit, .flush] rfl
  refine ⟨_, hrun, rfl, rfl, rfl, ?_, ?_, ?_⟩
  all_goals decide +kernel

end StreamTeardown

end MonoTS
