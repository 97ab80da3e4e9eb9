import MonoTS.Lib.Transition

/-!
# Fair executions

What happens eventually is a statement about infinite executions, in which a party that can always
take a step does take one. An execution may stutter, so that one in which nothing happens any more
is an execution too.

The one rule here is for a rank: if no step raises it and every step of the fair party lowers it,
the goal is reached, since otherwise the rank would go down for ever.
-/

namespace Transition

variable {σ α : Type*}

/-- An infinite execution; `none` is a stuttering step. -/
structure Execution (step : σ → α → Option σ) where
  state : ℕ → σ
  action : ℕ → Option α
  next : ∀ n, (action n = none ∧ state (n + 1) = state n) ∨
    ∃ a ∈ action n, step (state n) a = some (state (n + 1))

variable {step : σ → α → Option σ}

namespace Execution

variable (ρ : Execution step)

/-- If from some time on one of the actions is always possible, one of them is taken later. -/
def WeaklyFair (own : α → Prop) : Prop :=
  ∀ n, (∀ m ≥ n, ∃ a, own a ∧ (step (ρ.state m) a).isSome) → ∃ m ≥ n, ∃ a ∈ ρ.action m, own a

/-- The execution from a later time on. -/
def drop (n : ℕ) : Execution step where
  state m := ρ.state (n + m)
  action m := ρ.action (n + m)
  next m := ρ.next (n + m)

variable {ρ} {own ok : α → Prop} {P Q : σ → Prop}

theorem WeaklyFair.drop (h : ρ.WeaklyFair own) (n : ℕ) : (ρ.drop n).WeaklyFair own := by
  intro m hm
  obtain ⟨l, hl, a, ha, hown⟩ := h (n + m) fun l hl ↦ by
    obtain ⟨d, rfl⟩ := Nat.exists_eq_add_of_le hl
    rw [Nat.add_assoc]
    exact hm (m + d) (Nat.le_add_right m d)
  obtain ⟨d, rfl⟩ := Nat.exists_eq_add_of_le hl
  rw [Nat.add_assoc] at ha
  exact ⟨m + d, Nat.le_add_right m d, a, ha, hown⟩

/-- What the steps of the execution preserve holds from the beginning on. -/
theorem always (hok : ∀ n, ∀ a ∈ ρ.action n, ok a)
    (hstep : ∀ s a s', P s → ok a → step s a = some s' → P s') (h : P (ρ.state 0)) (n : ℕ) :
    P (ρ.state n) := by
  induction n with
  | zero => exact h
  | succ n ih =>
    rcases ρ.next n with ⟨-, hsame⟩ | ⟨a, ha, hs⟩
    · rwa [hsame]
    · exact hstep _ a _ ih (hok n a ha) hs

/-- **The rank rule.** A goal is reached when no step raises the rank and the steps of the fair
party, of which one is possible as long as the goal is not reached, lower it. -/
theorem eventually (rank : σ → ℕ) (hok : ∀ n, ∀ a ∈ ρ.action n, ok a)
    (hfair : ρ.WeaklyFair own)
    (hkeep : ∀ s a s', P s → ok a → step s a = some s' → P s')
    (hrank : ∀ s a s', P s → ¬Q s → ok a → step s a = some s' →
      rank s' ≤ rank s ∧ (own a → rank s' < rank s))
    (hen : ∀ s, P s → ¬Q s → ∃ a, own a ∧ (step s a).isSome) (h : P (ρ.state 0)) :
    ∃ n, Q (ρ.state n) := by
  by_contra hnever
  have hnot : ∀ n, ¬Q (ρ.state n) := fun n hq ↦ hnever ⟨n, hq⟩
  have hP := always hok hkeep h
  have hanti : Antitone fun n ↦ rank (ρ.state n) := by
    refine antitone_nat_of_succ_le fun n ↦ ?_
    rcases ρ.next n with ⟨-, hsame⟩ | ⟨a, ha, hs⟩
    · exact (congrArg rank hsame).le
    · exact (hrank _ a _ (hP n) (hnot n) (hok n a ha) hs).1
  -- After any time there is a step of the fair party, and the rank is smaller behind it.
  have hdrop : ∀ n, ∃ m, rank (ρ.state m) < rank (ρ.state n) := by
    intro n
    obtain ⟨m, hm, a, ha, hown⟩ := hfair n fun m _ ↦ hen _ (hP m) (hnot m)
    rcases ρ.next m with ⟨hnone, -⟩ | ⟨_, hb, hs⟩
    · rw [hnone] at ha
      cases ha
    · obtain rfl := Option.mem_unique ha hb
      exact ⟨m + 1, ((hrank _ a _ (hP m) (hnot m) (hok m a ha) hs).2 hown).trans_le (hanti hm)⟩
  obtain ⟨n, hn⟩ : ∃ n, ∀ m, rank (ρ.state n) ≤ rank (ρ.state m) := by
    obtain ⟨_, ⟨n, rfl⟩, hmin⟩ := WellFounded.has_min (wellFounded_lt (α := ℕ))
      (Set.range fun n ↦ rank (ρ.state n)) (Set.range_nonempty _)
    exact ⟨n, fun m ↦ not_lt.mp (hmin _ ⟨m, rfl⟩)⟩
  obtain ⟨m, hm⟩ := hdrop n
  exact absurd hm (not_lt.mpr (hn m))

end Execution

end Transition
