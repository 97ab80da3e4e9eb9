import Mathlib

/-!
# Transition systems given by a step function

A system is a partial function `step : σ → α → Option σ`: the action `a` is possible in `s` when
`step s a` is defined. Interleavings of concurrent parties are lists of actions, so that a statement
about every interleaving is one about every reachable state.

A condition on the steps of a run is a relation between the state a step starts from and its action;
`guarded` is the system in which only such steps are possible. "In every run whose steps all meet
the condition" is then reachability in the guarded system. `Along` says of one run that all its
steps meet a condition, and `Always` that all its states have a property.
-/

namespace Transition

variable {σ α : Type*}

/-- Perform a list of actions. -/
def run (step : σ → α → Option σ) : σ → List α → Option σ
  | s, [] => some s
  | s, a :: as => (step s a).bind fun s' ↦ run step s' as

/-- The states that can be reached from `init`. -/
inductive Reaches (step : σ → α → Option σ) (init : σ) : σ → Prop where
  | refl : Reaches step init init
  | tail {s s' : σ} (h : Reaches step init s) (a : α) (hstep : step s a = some s') :
    Reaches step init s'

/-- The system in which only the steps that meet `ok` are possible. -/
def guarded (ok : σ → α → Prop) [∀ s a, Decidable (ok s a)] (step : σ → α → Option σ) (s : σ)
    (a : α) : Option σ :=
  if ok s a then step s a else none

/-- Every step of the run meets the condition; the run ends where an action is not possible. -/
def Along (step : σ → α → Option σ) (ok : σ → α → Prop) : σ → List α → Prop
  | _, [] => True
  | s, a :: as => ∀ s', step s a = some s' → ok s a ∧ Along step ok s' as

/-- Every state of the run has the property. -/
def Always (step : σ → α → Option σ) (I : σ → Prop) : σ → List α → Prop
  | s, [] => I s
  | s, a :: as => I s ∧ ∀ s', step s a = some s' → Always step I s' as

variable {step : σ → α → Option σ} {init : σ} {I : σ → Prop} {s : σ} {ok : σ → α → Prop}

/-- **The invariant rule.** What holds initially and is preserved by every step holds in every
reachable state. -/
theorem Reaches.invariant (hinit : I init) (hstep : ∀ s a s', I s → step s a = some s' → I s')
    (h : Reaches step init s) : I s := by
  induction h with
  | refl => exact hinit
  | tail _ a hs ih => exact hstep _ a _ ih hs

theorem Reaches.trans {t : σ} (h : Reaches step init s) (h' : Reaches step s t) :
    Reaches step init t := by
  induction h' with
  | refl => exact h
  | tail _ a hs ih => exact ih.tail a hs

/-- A run ends in a reachable state. -/
theorem reaches_of_run (as : List α) (h : run step init as = some s) : Reaches step init s := by
  induction as generalizing init with
  | nil =>
    cases h
    exact .refl
  | cons a as ih =>
    obtain ⟨_, hs', hrun⟩ := Option.bind_eq_some_iff.mp h
    exact (Reaches.refl.tail a hs').trans (ih hrun)

/-- A run that can be evaluated ends in a reachable state with what can be decided there. -/
theorem exists_reaches {p : σ → Prop} [DecidablePred p] (as : List α)
    (h : (run step init as).any fun s ↦ p s) : ∃ s, Reaches step init s ∧ p s := by
  obtain ⟨s, hs, hp⟩ := (Option.any_eq_true ..).mp h
  exact ⟨s, reaches_of_run as hs, of_decide_eq_true hp⟩

theorem exists_reaches_of {p q : σ → Prop} [DecidablePred p] (as : List α)
    (h : (run step init as).any fun s ↦ p s) (hq : ∀ s, Reaches step init s → p s → q s) :
    ∃ s, Reaches step init s ∧ q s := by
  obtain ⟨s, hs, hp⟩ := exists_reaches as h
  exact ⟨s, hs, hq s hs hp⟩

theorem along_iff {ok' : σ → α → Prop}
    (hstep : ∀ s a s', I s → step s a = some s' → I s' ∧ (ok s a ↔ ok' s a)) (as : List α)
    (h : I s) : Along step ok s as ↔ Along step ok' s as := by
  induction as generalizing s with
  | nil => exact Iff.rfl
  | cons a as ih =>
    refine forall_congr' fun s' ↦ forall_congr' fun hs ↦ ?_
    obtain ⟨hinv, hok⟩ := hstep s a s' h hs
    exact and_congr hok (ih hinv)

theorem Always.start {as : List α} (h : Always step I s as) : I s := by
  cases as with
  | nil => exact h
  | cons => exact h.1

/-- A property that holds under an invariant, where the steps that meet a condition are those that
keep the invariant and those behind which the property holds: it holds in all states of the runs
whose steps all meet the condition. -/
theorem always_iff_along {J : σ → Prop} (hI : ∀ s, J s → I s)
    (hkeep : ∀ s a s', J s → step s a = some s' → ok s a → J s')
    (hok : ∀ s a s', J s → step s a = some s' → I s' → ok s a) (as : List α) (h : J s) :
    Always step I s as ↔ Along step ok s as := by
  induction as generalizing s with
  | nil => exact ⟨fun _ ↦ trivial, fun _ ↦ hI s h⟩
  | cons a as ih =>
    constructor
    · rintro ⟨-, halw⟩ s' hs
      have hs' := hok s a s' h hs (halw s' hs).start
      exact ⟨hs', (ih (hkeep s a s' h hs hs')).mp (halw s' hs)⟩
    · refine fun halong ↦ ⟨hI s h, fun s' hs ↦ ?_⟩
      obtain ⟨hs', hrest⟩ := halong s' hs
      exact (ih (hkeep s a s' h hs hs')).mpr hrest

theorem guarded_eq_some [∀ s a, Decidable (ok s a)] {s' : σ} {a : α} :
    guarded ok step s a = some s' ↔ ok s a ∧ step s a = some s' := by
  unfold guarded
  by_cases h : ok s a
  · rw [if_pos h]
    exact ⟨fun hs ↦ ⟨h, hs⟩, fun hs ↦ hs.2⟩
  · rw [if_neg h]
    refine ⟨fun hs ↦ ?_, fun hs ↦ absurd hs.1 h⟩
    cases hs

/-- **The invariant rule for guarded systems.** -/
theorem Reaches.invariant_guarded {ok : σ → α → Prop} [∀ s a, Decidable (ok s a)] {I : σ → Prop}
    (hinit : I init) (hstep : ∀ s a s', I s → ok s a → step s a = some s' → I s') {s : σ}
    (h : Reaches (guarded ok step) init s) : I s := by
  refine h.invariant hinit fun s a s' hs hguar ↦ ?_
  obtain ⟨hok, hs'⟩ := guarded_eq_some.mp hguar
  exact hstep s a s' hs hok hs'

end Transition
