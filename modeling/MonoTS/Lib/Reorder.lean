import Mathlib

/-!
# Reordering a list of operations

Operations are applied to a state one after the other, and the states are compared by a relation
`r` that the operations respect. An operation that commutes with all those in front of it can be
moved to the front.
-/

namespace Reorder

variable {σ α : Type*} {f : σ → α → σ} {r : σ → σ → Prop}

theorem foldl_rel (hcongr : ∀ a s t, r s t → r (f s a) (f t a)) (as : List α) {s t : σ}
    (h : r s t) : r (as.foldl f s) (as.foldl f t) := by
  induction as generalizing s t with
  | nil => exact h
  | cons a as ih => exact ih (hcongr a s t h)

theorem foldl_move_front (hrefl : ∀ s, r s s) (htrans : ∀ s t u, r s t → r t u → r s u)
    (hcongr : ∀ a s t, r s t → r (f s a) (f t a)) {a : α} {front : List α}
    (hcomm : ∀ b ∈ front, ∀ s, r (f (f s b) a) (f (f s a) b)) (back : List α) (s : σ) :
    r ((front ++ a :: back).foldl f s) ((a :: (front ++ back)).foldl f s) := by
  induction front generalizing s with
  | nil => exact hrefl _
  | cons b front ih =>
    obtain ⟨hb, hfrt⟩ := List.forall_mem_cons.mp hcomm
    -- First past the others, then past `b`.
    refine htrans _ _ _ (ih hfrt (f s b)) ?_
    exact foldl_rel hcongr (front ++ back) (hb s)

end Reorder
