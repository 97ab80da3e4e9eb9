import Mathlib

/-!
# Items on their way

Several movers take items out of one place and put them into another. What a mover has taken and not
yet put down is on its way: a list of pairs of a mover and its items, in the order in which they
were taken. A mover that puts its items down while others that were taken before are on their way
overtakes them.

A mover that has no items, or none in front of it, overtakes nobody (`InTurn`). The items that have
arrived, followed by those on their way, then stay the same list (`items_eq`), and so does the part
of it that another mover has in front of itself (`before_remove_prefix`).
-/

open List

namespace Handoff

variable {κ α : Type*} [DecidableEq κ]

/-- All items on their way. -/
def items (l : List (κ × List α)) : List α := l.flatMap Prod.snd

/-- The items of a mover. -/
def itemsOf (m : κ) : List (κ × List α) → List α
  | [] => []
  | (k, xs) :: l => if k = m then xs else itemsOf m l

/-- The items that were taken before those of a mover. -/
def before (m : κ) : List (κ × List α) → List α
  | [] => []
  | (k, xs) :: l => if k = m then [] else xs ++ before m l

/-- The mover has put its items down. -/
def remove (m : κ) : List (κ × List α) → List (κ × List α)
  | [] => []
  | (k, xs) :: l => if k = m then l else (k, xs) :: remove m l

/-- The mover can put its items down and overtakes nobody. -/
def InTurn (m : κ) (l : List (κ × List α)) : Prop :=
  (itemsOf m l).isEmpty = true ∨ (before m l).isEmpty = true

instance (m : κ) (l : List (κ × List α)) : Decidable (InTurn m l) :=
  inferInstanceAs (Decidable (_ ∨ _))

variable {m k : κ} {xs : List α} {l l' : List (κ × List α)}

omit [DecidableEq κ] in
theorem items_append : items (l ++ l') = items l ++ items l' := flatMap_append

theorem InTurn.tail (h : InTurn m ((k, xs) :: l)) (hk : k ≠ m) :
    InTurn m l ∧ (itemsOf m l = [] ∨ xs = []) := by
  simp only [InTurn, itemsOf, before, if_neg hk, List.isEmpty_iff, append_eq_nil_iff] at h ⊢
  rcases h with hnone | ⟨hxs, hbef⟩
  · exact ⟨.inl hnone, .inl hnone⟩
  · exact ⟨.inr hbef, .inr hxs⟩

/-- Nothing is lost or moved when the mover overtakes nobody. -/
theorem items_eq (h : InTurn m l) : items l = itemsOf m l ++ items (remove m l) := by
  induction l with
  | nil => rfl
  | cons p l ih =>
    obtain ⟨k, xs⟩ := p
    by_cases hk : k = m
    · rw [itemsOf, remove, if_pos hk, if_pos hk]
      rfl
    · obtain ⟨htail, hemp⟩ := h.tail hk
      rw [itemsOf, remove, if_neg hk, if_neg hk]
      change xs ++ items l = itemsOf m l ++ (xs ++ items (remove m l))
      rw [ih htail]
      rcases hemp with hnone | rfl
      · rw [hnone]
        rfl
      · rfl

/-- What a mover has in front of itself stays there when another one puts its items down. -/
theorem before_remove_prefix (h : InTurn k l) (hne : k ≠ m) :
    before m l ++ itemsOf m l <+:
      itemsOf k l ++ (before m (remove k l) ++ itemsOf m (remove k l)) := by
  induction l with
  | nil => exact prefix_rfl
  | cons p l ih =>
    obtain ⟨j, xs⟩ := p
    by_cases hk : j = k
    · subst hk
      simp only [before, itemsOf, remove, if_neg hne, if_true, append_assoc]
      exact prefix_rfl
    · obtain ⟨htail, hemp⟩ := h.tail hk
      by_cases hm : j = m
      · -- The items of `m` itself are in front: those of `k` are behind them or there are none.
        simp only [before, itemsOf, remove, if_neg hk, if_pos hm, nil_append]
        rcases hemp with hnone | rfl
        · rw [hnone]
          exact prefix_rfl
        · exact nil_prefix
      · simp only [before, itemsOf, remove, if_neg hk, if_neg hm, append_assoc]
        rcases hemp with hnone | rfl
        · have htail' := ih htail
          rw [hnone, nil_append] at htail' ⊢
          exact (prefix_append_right_inj xs).mpr htail'
        · exact ih htail

theorem before_append_prefix :
    before m l ++ itemsOf m l <+: before m (l ++ l') ++ itemsOf m (l ++ l') := by
  induction l with
  | nil => exact nil_prefix
  | cons p l ih =>
    obtain ⟨_, xs⟩ := p
    rw [cons_append, before, before, itemsOf, itemsOf]
    split_ifs
    · exact prefix_rfl
    · rw [append_assoc, append_assoc]
      exact (prefix_append_right_inj xs).mpr ih

/-- The last to take items has all others in front of it. -/
theorem before_concat (h : m ∉ l.map Prod.fst) :
    before m (l ++ [(m, xs)]) ++ itemsOf m (l ++ [(m, xs)]) = items l ++ xs := by
  induction l with
  | nil => simp [before, itemsOf, items]
  | cons p l ih =>
    obtain ⟨_, _⟩ := p
    obtain ⟨hk, hl⟩ := not_or.mp (mt mem_cons.mpr h)
    rw [cons_append, before, itemsOf, if_neg (Ne.symm hk), if_neg (Ne.symm hk), append_assoc, ih hl]
    exact (append_assoc _ _ _).symm

theorem remove_sublist : (remove m l).Sublist l := by
  induction l with
  | nil => exact List.Sublist.refl _
  | cons p l ih =>
    obtain ⟨_, _⟩ := p
    rw [remove]
    split_ifs
    · exact sublist_cons_self _ _
    · exact ih.cons_cons _

theorem nodup_remove (h : (l.map Prod.fst).Nodup) : ((remove m l).map Prod.fst).Nodup :=
  h.sublist (remove_sublist.map Prod.fst)

theorem not_mem_remove (h : (l.map Prod.fst).Nodup) : m ∉ (remove m l).map Prod.fst := by
  induction l with
  | nil => exact not_mem_nil
  | cons p l ih =>
    obtain ⟨_, _⟩ := p
    obtain ⟨hk, hl⟩ := nodup_cons.mp h
    rw [remove]
    split_ifs with hkm
    · exact hkm ▸ hk
    · exact mt mem_cons.mp (not_or.mpr ⟨Ne.symm hkm, ih hl⟩)

end Handoff
