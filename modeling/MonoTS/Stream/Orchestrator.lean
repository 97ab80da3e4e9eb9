import MonoTS.Lib.Fairness

/-!
# Supervisors of a stream

`StreamOrchestrator` keeps one handle for each stream that runs. `start_stream` resumes the stream
if there is a handle, and otherwise stores a new one and spawns a supervisor; `abort_stream` and
`drop_runtime` take the handle out and cancel its token. A supervisor makes one attempt after the
other, until it is cancelled, the user has stopped the stream or the pipeline has finished. After
that it removes the entry of the stream from the map, by name.

By then the entry need not be its own. A supervisor that was aborted can end when the stream has
been started again, and then it is the new handle that it removes: the new supervisor runs on
without one, and the next start spawns a second. And a start that finds the handle of a supervisor
which has left its loop resumes nothing. Both are in `stale_removal_and_lost_start`. In a run in
which this does not happen there is at most one supervisor, its handle is the stored one, and a
stream that was started is processed (`one_supervisor_processes`).

The model is of one stream. Supervisors are numbered in the order of their handles, so that the map
is the number of the stored handle. The calls take several steps: `start_stream` clears the mark of
the user, looks the stream up, and enters its handle, and the spawn is the first step of the
supervisor; `stop_stream` sets the mark and pauses the sink; an abort takes the handle and cancels
it. A handle is resumed or paused while its entry is locked. No code sets the phase `Completed`, so
the check for it is left out.
-/

open Transition List Option

namespace MonoTS

/-! ## One supervisor -/

/-- Where the task of a supervisor is. -/
inductive SupervisorPc where
  /-- The handle is stored and the task is not spawned yet. -/
  | pending
  /-- At the head of the loop. -/
  | check
  /-- In an attempt, which has not published its control channel yet. -/
  | bootstrap
  | pipeline
  | failed
  | backoff
  | woken
  /-- Behind the loop, before the entry is removed. -/
  | exited
  | done
  deriving DecidableEq, Repr

/-- The loop has not been left. -/
def SupervisorPc.loops : SupervisorPc → Bool
  | .pending | .check | .bootstrap | .pipeline | .failed | .backoff | .woken => true
  | .exited | .done => false

/-- The number of steps to the next pipeline. -/
def SupervisorPc.distance : SupervisorPc → ℕ
  | .pipeline | .exited | .done => 0
  | .bootstrap => 1
  | .check => 2
  | .pending | .woken => 3
  | .backoff => 4
  | .failed => 5

/-- The task of a supervisor. -/
structure SupervisorTask where
  pc : SupervisorPc
  /-- The token of the handle. -/
  cancelled : Bool
  /-- `Pause` was the last message on the control channel. -/
  paused : Bool
  deriving DecidableEq, Repr

/-- A step of a supervisor. -/
inductive SupervisorEvent where
  | spawn
  | check
  | publish
  | bootstrapFails
  | pipelineFails
  | pipelineFinishes
  | record
  | wake
  | recheck
  /-- `active_streams.remove`. -/
  | remove
  deriving DecidableEq, Repr

namespace SupervisorTask

variable (t : SupervisorTask)

/-- In its loop and not cancelled. -/
def runs : Bool := t.pc.loops && !t.cancelled

/-- A sink takes the events of the stream. -/
def processes : Bool := decide (t.pc = .pipeline) && !t.paused

variable (userStopped : Bool)

/-- Go on, or leave the loop when cancelled or stopped by the user. -/
def proceed (next : SupervisorPc) : SupervisorTask :=
  { t with pc := if t.cancelled || userStopped then .exited else next }

/-- `PipelineSupervisor::run`. -/
def advance : SupervisorEvent → Option SupervisorTask
  | .spawn => if t.pc = .pending then some { t with pc := .check } else none
  | .check => if t.pc = .check then some (t.proceed userStopped .bootstrap) else none
  -- Each attempt publishes a fresh channel, on which nothing has been sent.
  | .publish => if t.pc = .bootstrap then some { t with pc := .pipeline, paused := false } else none
  | .bootstrapFails => if t.pc = .bootstrap then some { t with pc := .failed } else none
  | .pipelineFails => if t.pc = .pipeline then some { t with pc := .failed } else none
  | .pipelineFinishes => if t.pc = .pipeline then some { t with pc := .exited } else none
  | .record => if t.pc = .failed then some (t.proceed userStopped .backoff) else none
  | .wake => if t.pc = .backoff then some (t.proceed false .woken) else none
  | .recheck => if t.pc = .woken then some (t.proceed userStopped .check) else none
  | .remove => if t.pc = .exited then some { t with pc := .done } else none

variable {t t' : SupervisorTask} {userStopped : Bool} {e : SupervisorEvent}

theorem advance_cancelled (h : t.advance userStopped e = some t') : t'.cancelled = t.cancelled := by
  cases e <;> obtain ⟨-, h⟩ := ite_none_right_eq_some.mp h <;>
    exact (some.inj h ▸ rfl)

/-- A step does not bring a supervisor back into its loop. -/
theorem runs_of_advance (h : t.advance userStopped e = some t') (hr : t'.runs = true) :
    t.runs = true := by
  have hc := advance_cancelled h
  have hloop : t.pc.loops = true := by
    by_contra hno
    cases e <;> obtain ⟨hpc, h⟩ := ite_none_right_eq_some.mp h <;> rw [hpc] at hno
    case remove =>
      rw [← some.inj h] at hr
      exact Bool.false_ne_true hr
    all_goals exact hno rfl
  rw [runs, Bool.and_eq_true] at hr ⊢
  rw [← hc]
  exact ⟨hloop, hr.2⟩

theorem not_runs_of_remove (h : t.advance userStopped .remove = some t') : ¬t'.runs = true := by
  obtain ⟨-, h⟩ := ite_none_right_eq_some.mp h
  rw [← some.inj h]
  exact Bool.false_ne_true

theorem runs_eq_true : t.runs = true ↔ t.pc.loops = true ∧ t.cancelled = false := by
  rw [runs, Bool.and_eq_true, Bool.not_eq_true']

theorem proceed_pc {next : SupervisorPc} (hr : t.runs = true) :
    (t.proceed false next).pc = next := by
  rw [proceed, (runs_eq_true.mp hr).2]
  rfl

/-- A supervisor that runs while the stream is not stopped goes on, unless its pipeline finishes. -/
theorem runs_advance (h : t.advance false e = some t') (hr : t.runs = true)
    (he : e ≠ .pipelineFinishes) : t'.runs = true := by
  have hc := (advance_cancelled h).trans (runs_eq_true.mp hr).2
  refine runs_eq_true.mpr ⟨?_, hc⟩
  cases e with
  | spawn | publish | bootstrapFails | pipelineFails =>
    exact some.inj (ite_none_right_eq_some.mp h).2 ▸ rfl
  | check | record | wake | recheck =>
    rw [← some.inj (ite_none_right_eq_some.mp h).2, proceed_pc hr]
    rfl
  | pipelineFinishes => exact absurd rfl he
  | remove =>
    have hloop := (runs_eq_true.mp hr).1
    rw [(ite_none_right_eq_some.mp h).1] at hloop
    exact absurd hloop Bool.false_ne_true

/-- A pipeline begins with a fresh channel. -/
theorem unpaused_of_advance (h : t.advance userStopped e = some t') (hpc : t'.pc = .pipeline) :
    t'.paused = false := by
  cases e with
  | publish => exact some.inj (ite_none_right_eq_some.mp h).2 ▸ rfl
  | check | record | wake | recheck =>
    rw [← some.inj (ite_none_right_eq_some.mp h).2, proceed] at hpc
    split at hpc <;> cases hpc
  | _ =>
    rw [← some.inj (ite_none_right_eq_some.mp h).2] at hpc
    cases hpc

/-- It comes nearer to its next pipeline with every step, unless the bootstrap fails. -/
theorem distance_advance (h : t.advance false e = some t') (hr : t.runs = true)
    (hpc : t.pc ≠ .pipeline) (he : e ≠ .bootstrapFails) : t'.pc.distance < t.pc.distance := by
  cases e with
  | spawn | publish =>
    obtain ⟨hat, h⟩ := ite_none_right_eq_some.mp h
    rw [hat]
    exact some.inj h ▸ Nat.lt_succ_self _
  | check | record | wake | recheck =>
    obtain ⟨hat, h⟩ := ite_none_right_eq_some.mp h
    rw [← some.inj h, proceed_pc hr, hat]
    decide
  | bootstrapFails => exact absurd rfl he
  | pipelineFails | pipelineFinishes =>
    exact absurd (ite_none_right_eq_some.mp h).1 hpc
  | remove =>
    have hloop := (runs_eq_true.mp hr).1
    rw [(ite_none_right_eq_some.mp h).1] at hloop
    exact absurd hloop Bool.false_ne_true

/-- The step that a supervisor in its loop takes next. -/
def nextEvent (t : SupervisorTask) : SupervisorEvent :=
  match t.pc with
  | .pending => .spawn
  | .check => .check
  | .bootstrap => .publish
  | .pipeline => .pipelineFails
  | .failed => .record
  | .backoff => .wake
  | .woken => .recheck
  | .exited | .done => .remove

theorem advance_nextEvent (hr : t.runs = true) : (t.advance userStopped t.nextEvent).isSome := by
  have hloop := (runs_eq_true.mp hr).1
  obtain ⟨pc, _, _⟩ := t
  cases pc <;> first | rfl | exact absurd hloop Bool.false_ne_true

end SupervisorTask

/-! ## The orchestrator -/

/-- The calls and supervisors of one stream. -/
structure StreamOrchestrator where
  /-- The entry of the stream in `active_streams`. -/
  active : Option ℕ
  supervisors : List SupervisorTask
  userStopped : Bool
  /-- Calls of `start_stream` that have cleared the mark of the user. -/
  cleared : ℕ
  /-- Calls of `start_stream` that have found no handle. -/
  missed : ℕ
  /-- Calls of `stop_stream` that have set the mark of the user. -/
  stopping : ℕ
  /-- Handles that an abort has taken out of the map and not cancelled yet. -/
  aborting : List ℕ
  /-- A call of `start_stream` has returned `Ok`, and since then the stream was not stopped, aborted
  or dropped, and its pipeline has not finished. -/
  started : Bool
  deriving DecidableEq, Repr

/-- A step of a call or a supervisor. -/
inductive OrchestratorAction where
  | startBegin
  | startLookup
  /-- The store has no definition of the stream. -/
  | startFails
  | startInsert
  | stopBegin
  | stopPause
  /-- The first step of `abort_stream` and `drop_runtime`. -/
  | take
  | cancel (k : ℕ)
  | supervisor (k : ℕ) (e : SupervisorEvent)

namespace StreamOrchestrator

def new : StreamOrchestrator := ⟨none, [], false, 0, 0, 0, [], false⟩

variable (s : StreamOrchestrator)

def runs (k : ℕ) : Bool := s.supervisors[k]?.any SupervisorTask.runs

def processes (k : ℕ) : Bool := s.supervisors[k]?.any SupervisorTask.processes

/-- The supervisor is in its loop, and no abort has begun to cancel it. -/
def live (k : ℕ) : Bool := s.runs k && decide (k ∉ s.aborting)

/-- Send a message on the control channel of a handle. -/
def setPaused (k : ℕ) (paused : Bool) : StreamOrchestrator :=
  { s with supervisors := s.supervisors.modify k fun t ↦ { t with paused } }

def step : OrchestratorAction → Option StreamOrchestrator
  | .startBegin => some { s with userStopped := false, cleared := s.cleared + 1 }
  | .startLookup =>
    if s.cleared = 0 then none
    else
      match s.active with
      | some k => some { s.setPaused k false with cleared := s.cleared - 1, started := true }
      | none => some { s with cleared := s.cleared - 1, missed := s.missed + 1 }
  | .startFails => if s.missed = 0 then none else some { s with missed := s.missed - 1 }
  | .startInsert =>
    if s.missed = 0 then none
    else
      match s.active with
      | some k => some { s.setPaused k false with missed := s.missed - 1, started := true }
      | none =>
        some { s with
          missed := s.missed - 1
          active := some s.supervisors.length
          supervisors := s.supervisors ++ [⟨.pending, false, false⟩] }
  | .stopBegin =>
    some { s with userStopped := true, stopping := s.stopping + 1, started := false }
  | .stopPause =>
    if s.stopping = 0 then none
    else
      match s.active with
      | some k => some { s.setPaused k true with stopping := s.stopping - 1 }
      | none => some { s with stopping := s.stopping - 1 }
  | .take =>
    match s.active with
    | some k => some { s with active := none, aborting := k :: s.aborting, started := false }
    | none => some { s with started := false }
  | .cancel k =>
    if k ∉ s.aborting then none
    else
      some { s with
        aborting := s.aborting.erase k
        supervisors := s.supervisors.modify k fun t ↦ { t with cancelled := true } }
  | .supervisor k e =>
    s.supervisors[k]?.bind fun t ↦ (t.advance s.userStopped e).map fun t' ↦
      { s with
        supervisors := s.supervisors.modify k fun _ ↦ t'
        active := if e = .remove then none else s.active
        started :=
          match e with
          | .spawn => true
          | .pipelineFinishes => s.started && !s.live k
          | _ => s.started }

/-- A start that is about to return has found a supervisor in its loop, and no stop is under way. -/
def Resumes : Prop :=
  ∀ k ∈ s.active, s.runs k = true ∧ s.userStopped = false ∧ s.stopping = 0

instance : Decidable s.Resumes := inferInstanceAs (Decidable (∀ k ∈ s.active, _))

/-- The steps of calls and supervisors that overlap do not get in each other's way. A supervisor
removes no other handle than its own. A start finds no supervisor that has left its loop, enters its
handle when the one before it has been cancelled, and is not overtaken by a stop or an abort. -/
def Orderly : OrchestratorAction → Prop
  | .startLookup => s.Resumes
  | .startInsert => s.Resumes ∧ s.aborting = []
  | .supervisor k .spawn => s.active = some k ∧ s.userStopped = false ∧ s.stopping = 0
  | .supervisor k .remove => s.active = none ∨ s.active = some k
  | _ => True

instance (a : OrchestratorAction) : Decidable (s.Orderly a) := by
  unfold Orderly
  split <;> infer_instance

variable {s} {s' : StreamOrchestrator} {a : OrchestratorAction} {k : ℕ}

theorem runs_iff : s.runs k = true ↔ ∃ t, s.supervisors[k]? = some t ∧ t.runs = true :=
  Option.any_eq_true _ _

/-! ## At most one supervisor -/

/-- A supervisor that runs is the stored one, or the one that an abort is about to cancel, and there
is only one of the two. -/
structure Safe (s : StreamOrchestrator) : Prop where
  stored : ∀ k, s.runs k = true → s.active = some k ∨ k ∈ s.aborting
  valid : ∀ k, s.active = some k → ∃ t, s.supervisors[k]? = some t ∧ t.cancelled = false
  alone : s.active ≠ none → s.aborting = []
  single : s.aborting.length ≤ 1

theorem Safe.congr (h : s.Safe) (hact : s'.active = s.active)
    (hsup : s'.supervisors = s.supervisors) (habort : s'.aborting = s.aborting) : s'.Safe := by
  cases s
  cases s'
  cases hact
  cases hsup
  cases habort
  exact { h with }

theorem safe_new : new.Safe where
  stored := nofun
  valid := nofun
  alone _ := rfl
  single := Nat.zero_le 1

section

variable (h : s.Safe)

include h

/-- What happens to one task does not make it run. -/
theorem Safe.modify {f : SupervisorTask → SupervisorTask} (hf : ∀ t, s.supervisors[k]? = some t →
      (f t).cancelled = t.cancelled ∧ ((f t).runs = true → t.runs = true)) :
    Safe { s with supervisors := s.supervisors.modify k f } where
  __ := h
  stored j hj := by
    obtain ⟨_, ht', hr⟩ := runs_iff.mp hj
    obtain ⟨t, ht, rfl⟩ := map_eq_some_iff.mp ((getElem?_modify f k _ j).symm.trans ht')
    refine h.stored j (runs_iff.mpr ⟨t, ht, ?_⟩)
    by_cases hkj : k = j
    · subst hkj
      rw [if_pos rfl] at hr
      exact (hf t ht).2 hr
    · rwa [if_neg hkj] at hr
  valid j hj := by
    obtain ⟨t, ht, hc⟩ := h.valid j hj
    refine ⟨if k = j then f t else t, ?_, ?_⟩
    · rw [getElem?_modify, ht]
      rfl
    · split
      · next hkj =>
        subst hkj
        exact (hf t ht).1.trans hc
      · exact hc

theorem Safe.setPaused (paused : Bool) : (s.setPaused k paused).Safe :=
  h.modify fun _ _ ↦ ⟨rfl, id⟩

/-- A new handle is entered only when nothing runs. -/
theorem Safe.insert (hact : s.active = none) (habort : s.aborting = []) : Safe { s with
      active := some s.supervisors.length
      supervisors := s.supervisors ++ [⟨.pending, false, false⟩] } where
  stored j hj := by
    obtain ⟨t, ht, hr⟩ := runs_iff.mp hj
    rcases Nat.lt_trichotomy j s.supervisors.length with hlt | rfl | hlt
    · rw [getElem?_append_left hlt] at ht
      rcases h.stored j (runs_iff.mpr ⟨t, ht, hr⟩) with hj | hj
      · cases hact.symm.trans hj
      · rw [habort] at hj
        cases hj
    · exact .inl rfl
    · rw [getElem?_eq_none (by rw [length_append]; exact hlt)] at ht
      cases ht
  valid j hj := by
    cases hj
    exact ⟨_, getElem?_concat_length, rfl⟩
  alone _ := habort
  single := h.single

theorem Safe.take (hact : s.active = some k) :
    Safe { s with active := none, aborting := k :: s.aborting } where
  stored j hj := by
    rcases h.stored j hj with hj | hj
    · obtain rfl := some.inj (hact.symm.trans hj)
      exact .inr mem_cons_self
    · exact .inr (mem_cons_of_mem _ hj)
  valid := nofun
  alone hne := absurd rfl hne
  single := by
    rw [h.alone (hact ▸ some_ne_none k)]
    exact Nat.le_refl 1

theorem Safe.cancel (hk : k ∈ s.aborting) : Safe { s with
      aborting := s.aborting.erase k
      supervisors := s.supervisors.modify k fun t ↦ { t with cancelled := true } } := by
  have hnone : s.active = none := by
    by_contra hne
    rw [h.alone hne] at hk
    cases hk
  refine ⟨fun j hj ↦ ?_, fun j hj ↦ ?_, fun hne ↦ absurd hnone hne, ?_⟩
  · obtain ⟨_, ht', hr⟩ := runs_iff.mp hj
    obtain ⟨t, ht, rfl⟩ := map_eq_some_iff.mp ((getElem?_modify _ k _ j).symm.trans ht')
    by_cases hkj : k = j
    · rw [if_pos hkj, SupervisorTask.runs, Bool.not_true, Bool.and_false] at hr
      exact absurd hr Bool.false_ne_true
    · rw [if_neg hkj] at hr
      rcases h.stored j (runs_iff.mpr ⟨t, ht, hr⟩) with hj | hj
      · exact .inl hj
      · exact .inr ((mem_erase_of_ne (Ne.symm hkj)).mpr hj)
  · cases hnone.symm.trans hj
  · exact (length_erase_le).trans h.single

theorem Safe.supervisor {e : SupervisorEvent} {t t' : SupervisorTask}
    (ht : s.supervisors[k]? = some t) (hadv : t.advance s.userStopped e = some t')
    (hok : s.Orderly (.supervisor k e)) :
    Safe { s with
      supervisors := s.supervisors.modify k fun _ ↦ t'
      active := if e = .remove then none else s.active } := by
  have hset : Safe { s with supervisors := s.supervisors.modify k fun _ ↦ t' } := by
    refine h.modify fun t₀ ht₀ ↦ ?_
    obtain rfl := some.inj (ht.symm.trans ht₀)
    exact ⟨SupervisorTask.advance_cancelled hadv, SupervisorTask.runs_of_advance hadv⟩
  by_cases he : e = .remove
  · -- The task that ends does not run, so the stored one, if there is any, is not another.
    subst he
    rw [if_pos rfl]
    refine ⟨fun j hj ↦ ?_, nofun, fun hne ↦ absurd rfl hne, h.single⟩
    rcases hset.stored j hj with hst | habort
    · obtain rfl : k = j := by
        rcases hok with hnone | hown
        · cases hnone.symm.trans hst
        · exact some.inj (hown.symm.trans hst)
      obtain ⟨t₁, ht₁, hr⟩ := runs_iff.mp hj
      obtain rfl : t' = t₁ := by
        rw [getElem?_modify_eq, ht] at ht₁
        exact some.inj ht₁
      exact absurd hr (SupervisorTask.not_runs_of_remove hadv)
    · exact .inr habort
  · rw [if_neg he]
    exact hset

theorem Safe.step (hok : s.Orderly a) (hstep : s.step a = some s') : s'.Safe := by
  cases a with
  | startBegin | stopBegin => exact some.inj hstep ▸ h.congr rfl rfl rfl
  | startLookup | stopPause =>
    obtain ⟨-, hstep⟩ := ite_none_left_eq_some.mp hstep
    split at hstep
    · exact some.inj hstep ▸ (h.setPaused _).congr rfl rfl rfl
    · exact some.inj hstep ▸ h.congr rfl rfl rfl
  | startFails =>
    obtain ⟨-, hstep⟩ := ite_none_left_eq_some.mp hstep
    exact some.inj hstep ▸ h.congr rfl rfl rfl
  | startInsert =>
    obtain ⟨-, hstep⟩ := ite_none_left_eq_some.mp hstep
    split at hstep
    · exact some.inj hstep ▸ (h.setPaused false).congr rfl rfl rfl
    · next hact =>
      exact some.inj hstep ▸ (h.insert hact hok.2).congr rfl rfl rfl
  | take =>
    rw [StreamOrchestrator.step] at hstep
    split at hstep
    · next hact =>
      exact some.inj hstep ▸ (h.take hact).congr rfl rfl rfl
    · exact some.inj hstep ▸ h.congr rfl rfl rfl
  | cancel =>
    obtain ⟨hk, hstep⟩ := ite_none_left_eq_some.mp hstep
    exact some.inj hstep ▸ h.cancel (not_not.mp hk)
  | supervisor =>
    obtain ⟨_, ht, hstep⟩ := bind_eq_some_iff.mp hstep
    obtain ⟨_, hadv, rfl⟩ := map_eq_some_iff.mp hstep
    exact (h.supervisor ht hadv hok).congr rfl rfl rfl

theorem Safe.unique (i j : ℕ) (hi : s.runs i = true) (hj : s.runs j = true) : i = j := by
  by_cases hnone : s.active = none
  · have habort : ∀ k, s.runs k = true → s.aborting = [k] := by
      intro k hk
      have hmem := (h.stored k hk).resolve_left (hnone ▸ nofun)
      obtain ⟨_, hl⟩ := length_eq_one_iff.mp (Nat.le_antisymm h.single (length_pos_of_mem hmem))
      rw [hl] at hmem ⊢
      rw [mem_singleton.mp hmem]
    exact head_eq_of_cons_eq ((habort i hi).symm.trans (habort j hj))
  · have hact : ∀ k, s.runs k = true → s.active = some k := by
      intro k hk
      refine (h.stored k hk).resolve_right ?_
      rw [h.alone hnone]
      exact not_mem_nil
    exact some.inj ((hact i hi).symm.trans (hact j hj))

theorem Safe.active_of_live (hk : s.live k = true) : s.active = some k := by
  rw [live, Bool.and_eq_true, decide_eq_true_iff] at hk
  exact (h.stored k hk.1).resolve_right hk.2

end

/-! ## A started stream is processed -/

/-- The stored supervisor runs, and nothing keeps it from processing the stream. -/
structure Serves (s : StreamOrchestrator) (k : ℕ) : Prop where
  stored : s.active = some k
  unstopped : s.userStopped = false
  settled : s.stopping = 0
  task : ∃ t, s.supervisors[k]? = some t ∧ t.runs = true ∧ (t.pc = .pipeline → t.paused = false)

theorem Serves.live (h : s.Serves k) (hs : s.Safe) : s.live k = true := by
  obtain ⟨t, ht, hr, -⟩ := h.task
  rw [StreamOrchestrator.live, Bool.and_eq_true, decide_eq_true_iff,
    hs.alone (h.stored ▸ some_ne_none k)]
  exact ⟨runs_iff.mpr ⟨t, ht, hr⟩, not_mem_nil⟩

/-- A start that returns with a stored supervisor has one that serves the stream. -/
theorem Resumes.serves (h : s.Resumes) (hact : s.active = some k) :
    (s.setPaused k false).Serves k := by
  obtain ⟨hr, hstop, hset⟩ := h k hact
  obtain ⟨t, ht, hr⟩ := runs_iff.mp hr
  refine ⟨hact, hstop, hset, { t with paused := false }, ?_, hr, fun _ ↦ rfl⟩
  rw [setPaused, getElem?_modify_eq, ht]
  rfl

end StreamOrchestrator

/-- The stream is stopped, aborted or dropped, or the pipeline of its supervisor finishes. -/
def OrchestratorAction.ends (k : ℕ) : OrchestratorAction → Bool
  | .stopBegin | .take => true
  | .supervisor j e => decide (j = k) && decide (e = .pipelineFinishes)
  | _ => false

open OrchestratorAction

namespace StreamOrchestrator

variable {s s' : StreamOrchestrator} {a : OrchestratorAction} {k : ℕ}

theorem Serves.own (h : s.Serves k) {e : SupervisorEvent} (he : e ≠ .pipelineFinishes)
    (hstep : s.step (.supervisor k e) = some s') : s'.Serves k := by
  obtain ⟨_, ht, hstep⟩ := bind_eq_some_iff.mp hstep
  obtain ⟨t', hadv, rfl⟩ := map_eq_some_iff.mp hstep
  obtain ⟨_, ht₀, hr, -⟩ := h.task
  obtain rfl := some.inj (ht.symm.trans ht₀)
  have hr' := SupervisorTask.runs_advance (h.unstopped ▸ hadv) hr he
  have hne : e ≠ .remove := by
    rintro rfl
    exact SupervisorTask.not_runs_of_remove hadv hr'
  refine ⟨(if_neg hne).trans h.stored, h.unstopped, h.settled, t', ?_, hr',
    SupervisorTask.unpaused_of_advance hadv⟩
  exact (getElem?_modify_eq _ _ _).trans (congrArg _ ht)

theorem Serves.other (h : s.Serves k) {j : ℕ} (hj : j ≠ k) {e : SupervisorEvent}
    (hok : s.Orderly (.supervisor j e)) (hstep : s.step (.supervisor j e) = some s') :
    s'.Serves k := by
  obtain ⟨_, _, hstep⟩ := bind_eq_some_iff.mp hstep
  obtain ⟨_, _, rfl⟩ := map_eq_some_iff.mp hstep
  have he : e ≠ .remove := by
    rintro rfl
    rcases hok with hnone | hown
    · cases hnone.symm.trans h.stored
    · exact hj (some.inj (hown.symm.trans h.stored))
  refine ⟨?_, h.unstopped, h.settled, ?_⟩
  · exact (if_neg he).trans h.stored
  · obtain ⟨t₁, ht₁, hr, hp⟩ := h.task
    exact ⟨t₁, (getElem?_modify_ne _ _ hj).trans ht₁, hr, hp⟩

/-- A supervisor that serves the stream goes on doing so until something ends it. -/
theorem Serves.step (h : s.Serves k) (hs : s.Safe) (hok : s.Orderly a) (hends : a.ends k = false)
    (hstep : s.step a = some s') : s'.Serves k := by
  cases a with
  | startBegin => exact some.inj hstep ▸ ⟨h.stored, rfl, h.settled, h.task⟩
  | startLookup =>
    obtain ⟨-, hstep⟩ := ite_none_left_eq_some.mp hstep
    have hserve := Resumes.serves hok h.stored
    rw [h.stored] at hstep
    exact some.inj hstep ▸ ⟨h.stored, h.unstopped, h.settled, hserve.task⟩
  | startFails =>
    obtain ⟨-, hstep⟩ := ite_none_left_eq_some.mp hstep
    exact some.inj hstep ▸ { h with }
  | startInsert =>
    obtain ⟨-, hstep⟩ := ite_none_left_eq_some.mp hstep
    have hserve := Resumes.serves hok.1 h.stored
    rw [h.stored] at hstep
    exact some.inj hstep ▸ ⟨h.stored, h.unstopped, h.settled, hserve.task⟩
  | stopBegin | take => cases hends
  | stopPause => exact absurd h.settled (ite_none_left_eq_some.mp hstep).1
  | cancel =>
    have hj := not_not.mp (ite_none_left_eq_some.mp hstep).1
    rw [hs.alone (h.stored ▸ some_ne_none k)] at hj
    cases hj
  | supervisor j =>
    by_cases hjk : j = k
    · subst hjk
      refine h.own ?_ hstep
      rintro rfl
      simp [ends] at hends
    · exact h.other hjk hok hstep

/-- What holds in the runs of overlapping calls that are orderly. -/
structure Inv (s : StreamOrchestrator) : Prop where
  safe : s.Safe
  serves : s.started = true → ∃ k, s.Serves k

theorem inv_new : new.Inv := ⟨safe_new, nofun⟩

/-- A start that spawns its supervisor returns with one that serves the stream. -/
theorem Safe.serves_spawn (h : s.Safe) (hok : s.Orderly (.supervisor k .spawn))
    (hstep : s.step (.supervisor k .spawn) = some s') : s'.Serves k := by
  obtain ⟨hact, hstop, hset⟩ := hok
  obtain ⟨t, ht, hc⟩ := h.valid k hact
  have hserve : s.Serves k := by
    obtain ⟨_, ht₀, hstep⟩ := bind_eq_some_iff.mp hstep
    obtain rfl := some.inj (ht.symm.trans ht₀)
    obtain ⟨_, hadv, -⟩ := map_eq_some_iff.mp hstep
    have hpc := (ite_none_right_eq_some.mp hadv).1
    refine ⟨hact, hstop, hset, t, ht, SupervisorTask.runs_eq_true.mpr ⟨hpc ▸ rfl, hc⟩, ?_⟩
    rw [hpc]
    nofun
  exact hserve.own (by decide) hstep

theorem Inv.step (h : s.Inv) (hok : s.Orderly a) (hstep : s.step a = some s') : s'.Inv := by
  refine ⟨h.safe.step hok hstep, fun hst ↦ ?_⟩
  have hkeep : s.started = true → (∀ k, s.Serves k → a.ends k = false) → ∃ k, s'.Serves k := by
    intro hs hends
    obtain ⟨k, hk⟩ := h.serves hs
    exact ⟨k, hk.step h.safe hok (hends k hk) hstep⟩
  cases a with
  | startBegin =>
    cases hstep
    exact hkeep hst fun _ _ ↦ rfl
  | startLookup =>
    obtain ⟨-, hbody⟩ := ite_none_left_eq_some.mp hstep
    split at hbody
    · next k hact =>
      have hk := Resumes.serves hok hact
      exact ⟨k, some.inj hbody ▸ { hk with }⟩
    · cases hbody
      exact hkeep hst fun _ _ ↦ rfl
  | startFails | cancel =>
    obtain rfl := some.inj (ite_none_left_eq_some.mp hstep).2
    exact hkeep hst fun _ _ ↦ rfl
  | startInsert =>
    obtain ⟨-, hbody⟩ := ite_none_left_eq_some.mp hstep
    split at hbody
    · next k hact =>
      have hk := Resumes.serves hok.1 hact
      exact ⟨k, some.inj hbody ▸ { hk with }⟩
    · cases hbody
      exact hkeep hst fun _ _ ↦ rfl
  | stopBegin =>
    cases hstep
    cases hst
  | stopPause =>
    obtain ⟨-, hbody⟩ := ite_none_left_eq_some.mp hstep
    split at hbody <;>
    · cases hbody
      exact hkeep hst fun _ _ ↦ rfl
  | take =>
    rw [StreamOrchestrator.step] at hstep
    split at hstep <;>
    · cases hstep
      cases hst
  | supervisor k e =>
    by_cases hspawn : e = .spawn
    · subst hspawn
      exact ⟨k, h.safe.serves_spawn hok hstep⟩
    · obtain ⟨_, -, hbody⟩ := bind_eq_some_iff.mp hstep
      obtain ⟨_, -, rfl⟩ := map_eq_some_iff.mp hbody
      by_cases hfin : e = .pipelineFinishes
      · -- The pipeline of a supervisor that an abort has taken out does not end the service.
        subst hfin
        obtain ⟨hs, hnot⟩ := (Bool.and_eq_true _ _).mp hst
        refine hkeep hs fun j hj ↦ ?_
        have hkj : k ≠ j := by
          rintro rfl
          rw [hj.live h.safe] at hnot
          cases hnot
        rw [ends, decide_eq_false hkj]
        rfl
      · refine hkeep ?_ fun j _ ↦ ?_
        · dsimp only at hst
          split at hst
          · exact absurd rfl hspawn
          · exact absurd rfl hfin
          · exact hst
        · rw [ends, decide_eq_false hfin, Bool.and_false]

theorem inv_of_reaches (h : Reaches (guarded Orderly StreamOrchestrator.step) new s) : s.Inv :=
  h.invariant_guarded inv_new fun _ _ _ hs ↦ hs.step

/-! ## Progress -/

/-- How far the supervisor is from its next pipeline. -/
def distance (s : StreamOrchestrator) (k : ℕ) : ℕ :=
  (s.supervisors[k]?.map fun t ↦ t.pc.distance).getD 0

theorem pc_of_step (hstep : s.step a = some s') (hne : ∀ e, a ≠ .supervisor k e)
    {t : SupervisorTask} (ht : s.supervisors[k]? = some t) :
    ∃ t', s'.supervisors[k]? = some t' ∧ t'.pc = t.pc := by
  have hmod : ∀ (j : ℕ) (f : SupervisorTask → SupervisorTask), (∀ t, (f t).pc = t.pc) →
      ∃ t', (s.supervisors.modify j f)[k]? = some t' ∧ t'.pc = t.pc := by
    intro j f hf
    refine ⟨if j = k then f t else t, by rw [getElem?_modify, ht]; rfl, ?_⟩
    split
    · exact hf t
    · rfl
  cases a with
  | startBegin | stopBegin => exact ⟨t, some.inj hstep ▸ ht, rfl⟩
  | startLookup | stopPause =>
    obtain ⟨-, hstep⟩ := ite_none_left_eq_some.mp hstep
    split at hstep
    · exact some.inj hstep ▸ hmod _ _ fun _ ↦ rfl
    · exact ⟨t, some.inj hstep ▸ ht, rfl⟩
  | startFails =>
    obtain ⟨-, hstep⟩ := ite_none_left_eq_some.mp hstep
    exact ⟨t, some.inj hstep ▸ ht, rfl⟩
  | startInsert =>
    obtain ⟨-, hstep⟩ := ite_none_left_eq_some.mp hstep
    split at hstep
    · exact some.inj hstep ▸ hmod _ _ fun _ ↦ rfl
    · refine ⟨t, some.inj hstep ▸ ?_, rfl⟩
      exact (getElem?_append_left (List.getElem?_eq_some_iff.mp ht).1).trans ht
  | take =>
    rw [StreamOrchestrator.step] at hstep
    split at hstep <;> exact ⟨t, some.inj hstep ▸ ht, rfl⟩
  | cancel j =>
    obtain ⟨-, hstep⟩ := ite_none_left_eq_some.mp hstep
    exact some.inj hstep ▸ hmod j _ fun _ ↦ rfl
  | supervisor j e =>
    have hj : j ≠ k := fun hjk ↦ hne e (hjk ▸ rfl)
    obtain ⟨_, -, hstep⟩ := bind_eq_some_iff.mp hstep
    obtain ⟨_, -, rfl⟩ := map_eq_some_iff.mp hstep
    exact ⟨t, (getElem?_modify_ne _ _ hj).trans ht, rfl⟩

/-- A supervisor that serves the stream and does not process it yet has a step to take. -/
theorem Serves.exists_step (h : s.Serves k) :
    ∃ a, (∃ e, a = .supervisor k e) ∧ (guarded Orderly StreamOrchestrator.step s a).isSome := by
  obtain ⟨t, ht, hr, -⟩ := h.task
  refine ⟨.supervisor k t.nextEvent, ⟨_, rfl⟩, ?_⟩
  have hok : s.Orderly (.supervisor k t.nextEvent) := by
    cases t.nextEvent with
    | spawn => exact ⟨h.stored, h.unstopped, h.settled⟩
    | remove => exact .inr h.stored
    | _ => trivial
  rw [guarded, if_pos hok]
  change (s.supervisors[k]?.bind _).isSome = true
  rw [ht, bind_some, isSome_map]
  exact SupervisorTask.advance_nextEvent hr

theorem Serves.distance_step (h : s.Serves k) (hnot : ¬s.processes k = true)
    (hfail : a ≠ .supervisor k .bootstrapFails) (hstep : s.step a = some s') :
    s'.distance k ≤ s.distance k ∧
      ((∃ e, a = .supervisor k e) → s'.distance k < s.distance k) := by
  obtain ⟨t, ht, hr, hp⟩ := h.task
  have hpc : t.pc ≠ .pipeline := by
    intro hpc
    refine hnot ((Option.any_eq_true _ _).mpr ⟨t, ht, ?_⟩)
    rw [SupervisorTask.processes, hp hpc, decide_eq_true hpc]
    rfl
  by_cases hown : ∃ e, a = .supervisor k e
  · obtain ⟨e, rfl⟩ := hown
    have he : e ≠ .bootstrapFails := fun he ↦ hfail (he ▸ rfl)
    obtain ⟨_, ht₀, hstep⟩ := bind_eq_some_iff.mp hstep
    obtain rfl := some.inj (ht.symm.trans ht₀)
    obtain ⟨t', hadv, hs'⟩ := map_eq_some_iff.mp hstep
    have ht' : s'.supervisors[k]? = some t' :=
      hs' ▸ (getElem?_modify_eq _ _ _).trans (congrArg _ ht)
    have hlt : s'.distance k < s.distance k := by
      rw [distance, distance, ht, ht']
      exact SupervisorTask.distance_advance (h.unstopped ▸ hadv) hr hpc he
    exact ⟨hlt.le, fun _ ↦ hlt⟩
  · obtain ⟨_, ht', hsame⟩ := pc_of_step hstep (fun e he ↦ hown ⟨e, he⟩) ht
    refine ⟨?_, fun hex ↦ absurd hex hown⟩
    rw [distance, distance, ht, ht', map_some, map_some, hsame]

/-- In a fair execution the stream is processed. -/
theorem Serves.eventually {ρ : Execution (guarded Orderly StreamOrchestrator.step)}
    (hs : (ρ.state 0).Safe) (h : (ρ.state 0).Serves k)
    (hends : ∀ n, ∀ a ∈ ρ.action n, a.ends k = false)
    (hfail : ∃ N, ∀ n ≥ N, .supervisor k .bootstrapFails ∉ ρ.action n)
    (hfair : ρ.WeaklyFair fun a ↦ ∃ e, a = .supervisor k e) :
    ∃ n, (ρ.state n).live k = true ∧ (ρ.state n).processes k = true := by
  have hkeep : ∀ (s : StreamOrchestrator) (a : OrchestratorAction) (s' : StreamOrchestrator),
      s.Safe ∧ s.Serves k → a.ends k = false →
      guarded Orderly StreamOrchestrator.step s a = some s' → s'.Safe ∧ s'.Serves k := by
    intro s a s' hI ha hstep
    have hstep := guarded_eq_some.mp hstep
    exact ⟨hI.1.step hstep.1 hstep.2, hI.2.step hI.1 hstep.1 ha hstep.2⟩
  have halw := Execution.always hends hkeep ⟨hs, h⟩
  obtain ⟨N, hN⟩ := hfail
  -- From the last failure of the bootstrap on, every step of the supervisor brings it nearer.
  have hok : ∀ n, ∀ a ∈ (ρ.drop N).action n,
      a.ends k = false ∧ a ≠ .supervisor k .bootstrapFails := by
    intro n a ha
    refine ⟨hends _ a ha, ?_⟩
    rintro rfl
    exact hN (N + n) (Nat.le_add_right N n) ha
  obtain ⟨n, hn⟩ := Execution.eventually (P := fun s ↦ s.Safe ∧ s.Serves k)
    (Q := fun s ↦ s.processes k = true) (fun s ↦ s.distance k) hok (hfair.drop N)
    (fun s a s' hI ha hstep ↦ hkeep s a s' hI ha.1 hstep)
    (fun s a s' hI hnot ha hstep ↦
      hI.2.distance_step hnot ha.2 (guarded_eq_some.mp hstep).2)
    (fun s hI _ ↦ hI.2.exists_step) (halw N)
  obtain ⟨hsafe, hserve⟩ := halw (N + n)
  exact ⟨N + n, hserve.live hsafe, hn⟩

/-! ## The main results -/

/-- **One supervisor per stream.** When calls and supervisors that overlap are orderly, at most one
supervisor is in its loop and not cancelled, its handle is the stored one until an abort takes it
out, and after a start that returned `Ok` the stream is processed in every fair execution, unless
it is stopped, aborted or dropped, its pipeline finishes, or its bootstrap fails for ever. -/
theorem one_supervisor_processes {s : StreamOrchestrator}
    (h : Reaches (guarded Orderly StreamOrchestrator.step) new s) :
    (∀ i j, s.runs i = true → s.runs j = true → i = j) ∧
    (∀ k, s.live k = true → s.active = some k) ∧
    (s.started = true → ∃ k, s.live k = true ∧
      ∀ ρ : Execution (guarded Orderly StreamOrchestrator.step), ρ.state 0 = s →
        (∀ n, ∀ a ∈ ρ.action n, a.ends k = false) →
        (∃ N, ∀ n ≥ N, .supervisor k .bootstrapFails ∉ ρ.action n) →
        (ρ.WeaklyFair fun a ↦ ∃ e, a = .supervisor k e) →
        ∃ n, (ρ.state n).live k = true ∧ (ρ.state n).processes k = true) := by
  obtain ⟨hsafe, hserve⟩ := inv_of_reaches h
  refine ⟨hsafe.unique, fun k hk ↦ hsafe.active_of_live hk, fun hst ↦ ?_⟩
  obtain ⟨k, hk⟩ := hserve hst
  refine ⟨k, hk.live hsafe, fun ρ h0 hends hfail hfair ↦ ?_⟩
  subst h0
  exact hk.eventually hsafe hends hfail hfair

/-- The attempts of a supervisor whose pipeline fails again and again. -/
def retry : Fin 6 → SupervisorPc × SupervisorEvent
  | 0 => (.check, .check)
  | 1 => (.bootstrap, .publish)
  | 2 => (.pipeline, .pipelineFails)
  | 3 => (.failed, .record)
  | 4 => (.backoff, .wake)
  | 5 => (.woken, .recheck)

def retrying : Execution (guarded Orderly StreamOrchestrator.step) where
  state n := ⟨some 0, [⟨(retry (Fin.ofNat 6 n)).1, false, false⟩], false, 0, 0, 0, [], true⟩
  action n := some (.supervisor 0 (retry (Fin.ofNat 6 n)).2)
  next n := by
    have hnext : Fin.ofNat 6 (n + 1) = Fin.ofNat 6 n + 1 := Fin.ext (Nat.add_mod n 1 6)
    refine .inr ⟨_, rfl, ?_⟩
    rw [hnext]
    generalize Fin.ofNat 6 n = i
    revert i
    decide

/-- The supervisor of the one start there was processes the stream, however often it fails. -/
theorem retrying_processes :
    Reaches (guarded Orderly StreamOrchestrator.step) new (retrying.state 0) ∧
    (retrying.state 0).started = true ∧
    ∃ n, (retrying.state n).live 0 = true ∧ (retrying.state n).processes 0 = true := by
  have hrun : Reaches (guarded Orderly StreamOrchestrator.step) new (retrying.state 0) :=
    reaches_of_run [.startBegin, .startLookup, .startInsert, .supervisor 0 .spawn] rfl
  have hthm := one_supervisor_processes hrun
  obtain ⟨k, hlive, hall⟩ := hthm.2.2 rfl
  obtain rfl : k = 0 := some.inj (hthm.2.1 k hlive).symm
  refine ⟨hrun, rfl, hall retrying rfl ?_ ⟨0, ?_⟩ ?_⟩
  · intro n a ha
    cases ha
    generalize Fin.ofNat 6 n = i
    revert i
    decide
  · intro n _ ha
    have hev := (supervisor.inj (some.inj ha)).2
    generalize Fin.ofNat 6 n = i at hev
    revert i
    decide
  · exact fun n _ ↦ ⟨n, le_rfl, _, rfl, _, rfl⟩

/-- The stream is started, aborted and started again, and only then does the first supervisor
end. -/
def lateRemoval : List OrchestratorAction :=
  [.startBegin, .startLookup, .startInsert, .supervisor 0 .spawn, .supervisor 0 .check,
    .supervisor 0 .publish, .take, .cancel 0, .startBegin, .startLookup, .startInsert,
    .supervisor 1 .spawn, .supervisor 0 .pipelineFinishes, .supervisor 0 .remove]

/-- The stream is started and stopped, its pipeline fails, and it is started again before the
supervisor has removed its handle. -/
def lateStart : List OrchestratorAction :=
  [.startBegin, .startLookup, .startInsert, .supervisor 0 .spawn, .supervisor 0 .check,
    .supervisor 0 .publish, .stopBegin, .stopPause, .supervisor 0 .pipelineFails,
    .supervisor 0 .record, .startBegin, .startLookup, .supervisor 0 .remove]

/-- An aborted supervisor that ends late removes the handle of its successor, and the next start
spawns a second supervisor. A start that finds a stopped supervisor behind its loop returns `Ok`,
and no supervisor is left. -/
theorem stale_removal_and_lost_start :
    (∃ s, Reaches StreamOrchestrator.step new s ∧ s.live 1 = true ∧ s.active = none) ∧
    (∃ s, Reaches StreamOrchestrator.step new s ∧ s.live 1 = true ∧ s.live 2 = true) ∧
    ∃ s, Reaches StreamOrchestrator.step new s ∧ s.started = true ∧ s.active = none ∧
      ∀ k, s.live k = false := by
  refine ⟨⟨_, reaches_of_run lateRemoval rfl, rfl, rfl⟩, ⟨_, reaches_of_run (lateRemoval ++
    [.startBegin, .startLookup, .startInsert, .supervisor 2 .spawn]) rfl, rfl, rfl⟩,
    ⟨_, reaches_of_run lateStart rfl, rfl, rfl, ?_⟩⟩
  rintro (_ | k)
  · rfl
  · rfl

end StreamOrchestrator

end MonoTS
