import Mathlib

/-!
# Counters over slots

A counter is charged by the holders of slots: a slot is empty or has a holder, and a holder has a
number of bytes. `total` is what the counter is to show. Holders come, change and go one at a time,
so that all that is needed is how the total follows the change of one slot.
-/

open List

namespace Ledger

variable {α : Type*}

theorem sum_map_set (f : α → ℕ) {l : List α} {i : ℕ} {a b : α} (h : l[i]? = some a) :
    ((l.set i b).map f).sum + f a = (l.map f).sum + f b := by
  induction l generalizing i with
  | nil => cases h
  | cons x l ih =>
    cases i with
    | zero =>
      cases h
      simp [Nat.add_comm, Nat.add_left_comm]
    | succ =>
      have := ih h
      simp only [set_cons_succ, map_cons, sum_cons]
      omega

variable (f : α → ℕ) {slots : List (Option α)} {i : ℕ} {a : α}

/-- The charges of all holders. -/
def total (slots : List (Option α)) : ℕ := (slots.map fun s ↦ s.elim 0 f).sum

theorem total_concat (slots : List (Option α)) (a : α) :
    total f (slots ++ [some a]) = total f slots + f a := by
  rw [total, map_append, sum_append]
  rfl

theorem total_set (h : slots[i]? = some (some a)) (s : Option α) :
    total f (slots.set i s) + f a = total f slots + s.elim 0 f :=
  sum_map_set _ h

theorem le_total (h : slots[i]? = some (some a)) : f a ≤ total f slots :=
  (Nat.le_add_left _ _).trans (total_set f h none).le

theorem total_eq_zero (h : ∀ s ∈ slots, s = none) : total f slots = 0 := by
  induction slots with
  | nil => rfl
  | cons s slots ih =>
    obtain ⟨rfl, hs⟩ := forall_mem_cons.mp h
    rw [total, map_cons, sum_cons]
    exact (Nat.zero_add _).trans (ih hs)

end Ledger
