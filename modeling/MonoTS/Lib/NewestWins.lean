import MonoTS.Lib.KWayMerge

/-!
# One row for each key, the newest

A list of rows in the order in which they were written may have several rows for one key, and the
last of them is the one that counts. `IsNewest out xs` says that `out` is what is left of `xs` by
this rule, in the order of the keys. There is exactly one such list, so that two ways to compute it
can be compared without looking at how they work.

One way is to sort entries by key and age and to keep the last entry of every run of equal keys:
`mem_lastOfRuns`.
-/

open List

namespace NewestWins

open KWayMerge (eq_of_sorted nodup_keys_of_sorted)

variable {κ ρ : Type*}

/-! ## The last row for a key -/

def lastRow [DecidableEq κ] (xs : List (κ × ρ)) (t : κ) : Option ρ := xs.reverse.lookup t

section

variable [DecidableEq κ] {xs ys : List (κ × ρ)} {t : κ} {r : ρ}

theorem lastRow_eq_none_iff : lastRow xs t = none ↔ t ∉ xs.map Prod.fst := by
  rw [lastRow, KWayMerge.lookup_eq_none_iff, map_reverse, mem_reverse]

theorem lastRow_append : lastRow (xs ++ ys) t = (lastRow ys t).or (lastRow xs t) := by
  rw [lastRow, reverse_append, lookup_append]
  rfl

/-- The row behind which the key does not occur any more. -/
theorem lastRow_append_cons (h : t ∉ ys.map Prod.fst) :
    lastRow (xs ++ (t, r) :: ys) t = some r := by
  rw [← singleton_append, ← append_assoc, lastRow_append, lastRow_eq_none_iff.mpr h,
    Option.none_or, lastRow_append]
  simp [lastRow]

/-- Where no key occurs twice, the last row is the only one. -/
theorem lastRow_eq_some_iff (h : (xs.map Prod.fst).Nodup) :
    lastRow xs t = some r ↔ (t, r) ∈ xs := by
  constructor
  · intro hr
    obtain ⟨l, l', heq, -⟩ := lookup_eq_some_iff.mp hr
    refine mem_reverse.mp ?_
    rw [heq]
    exact mem_append_right _ mem_cons_self
  · intro hmem
    obtain ⟨_, _, rfl⟩ := append_of_mem hmem
    refine lastRow_append_cons fun hmem' ↦ ?_
    rw [map_append, map_cons] at h
    exact (nodup_cons.mp (nodup_append.mp h).2.1).1 hmem'

end

/-! ## Newest rows -/

variable [LinearOrder κ]

/-- The rows of `xs` that count, in the order of their keys. -/
structure IsNewest (out xs : List (κ × ρ)) : Prop where
  sorted : out.Pairwise (·.1 < ·.1)
  lookup : ∀ t, out.lookup t = lastRow xs t

variable {out out' xs : List (κ × ρ)}

/-- **There is one list of the newest rows.** -/
theorem IsNewest.unique (h : IsNewest out xs) (h' : IsNewest out' xs) : out = out' := by
  refine eq_of_sorted h.sorted h'.sorted fun ⟨t, r⟩ ↦ ?_
  rw [← KWayMerge.lookup_eq_some_iff_mem h.sorted, h.lookup t,
    ← KWayMerge.lookup_eq_some_iff_mem h'.sorted, h'.lookup t]

theorem isNewest_iff : IsNewest out xs ↔
    out.Pairwise (·.1 < ·.1) ∧ ∀ t r, (t, r) ∈ out ↔ lastRow xs t = some r := by
  constructor
  · intro h
    refine ⟨h.sorted, fun t r ↦ ?_⟩
    rw [← KWayMerge.lookup_eq_some_iff_mem h.sorted, h.lookup]
  · rintro ⟨hsorted, hmem⟩
    refine ⟨hsorted, fun t ↦ Option.ext fun r ↦ ?_⟩
    rw [KWayMerge.lookup_eq_some_iff_mem hsorted, hmem]

/-- Sorting the rows is enough where no key occurs twice. -/
theorem isNewest_of_perm (h : out.Perm xs) (hsorted : out.Pairwise (·.1 < ·.1)) :
    IsNewest out xs := by
  have hnd : (xs.map Prod.fst).Nodup := (h.map Prod.fst).nodup_iff.mp (nodup_keys_of_sorted hsorted)
  refine isNewest_iff.mpr ⟨hsorted, fun t r ↦ ?_⟩
  rw [lastRow_eq_some_iff hnd, h.mem_iff]

theorem IsNewest.filter {p : κ → Bool} (h : IsNewest out xs) :
    IsNewest (out.filter fun x ↦ p x.1) (xs.filter fun x ↦ p x.1) := by
  refine ⟨h.sorted.filter _, fun t ↦ ?_⟩
  rw [KWayMerge.lookup_filter, h.lookup, lastRow, lastRow, ← filter_reverse,
    KWayMerge.lookup_filter]

/-! ## Runs of equal keys -/

section

variable {α : Type*}

/-- Keep the last entry of every run of equal keys. -/
def lastOfRuns (key : α → κ) : List α → List α
  | [] => []
  | [a] => [a]
  | a :: b :: rest =>
    if key a = key b then lastOfRuns key (b :: rest) else a :: lastOfRuns key (b :: rest)

theorem lastOfRuns_sublist (key : α → κ) (l : List α) : (lastOfRuns key l).Sublist l := by
  induction l with
  | nil => exact .slnil
  | cons a l ih =>
    cases l with
    | nil => exact List.Sublist.refl _
    | cons =>
      rw [lastOfRuns]
      split_ifs
      · exact ih.cons a
      · exact ih.cons_cons a

/-- No key gets lost. -/
theorem exists_mem_lastOfRuns {key : α → κ} {l : List α} {a : α} (h : a ∈ l) :
    ∃ b ∈ lastOfRuns key l, key b = key a := by
  induction l generalizing a with
  | nil => cases h
  | cons x l ih =>
    cases l with
    | nil => exact ⟨a, h, rfl⟩
    | cons =>
      rw [lastOfRuns]
      split_ifs with hxy
      · rcases mem_cons.mp h with rfl | h
        · rw [hxy]
          exact ih mem_cons_self
        · exact ih h
      · rcases mem_cons.mp h with rfl | h
        · exact ⟨a, mem_cons_self, rfl⟩
        · exact (ih h).imp fun b ⟨hb, heq⟩ ↦ ⟨mem_cons_of_mem _ hb, heq⟩

variable [LinearOrder α] {key : α → κ} (hkey : ∀ a b : α, a ≤ b → key a ≤ key b)
  {l : List α} (hsorted : l.Pairwise (· ≤ ·))

include hkey hsorted

theorem key_lt_of_ne {x y : α} {rest : List α} (hl : l = x :: y :: rest) (hxy : key x ≠ key y) :
    ∀ b ∈ y :: rest, key x < key b := by
  subst hl
  obtain ⟨hx, hl⟩ := pairwise_cons.mp hsorted
  have hlt : key x < key y := (hkey x y (hx y mem_cons_self)).lt_of_ne hxy
  refine forall_mem_cons.mpr ⟨hlt, fun b hb ↦ ?_⟩
  exact hlt.trans_le (hkey y b ((pairwise_cons.mp hl).1 b hb))

/-- **What is kept of a sorted list**: for every key its largest entry. -/
theorem mem_lastOfRuns {a : α} : a ∈ lastOfRuns key l ↔ a ∈ l ∧ ∀ b ∈ l, key b = key a → b ≤ a := by
  induction l with
  | nil => simp [lastOfRuns]
  | cons x l ih =>
    obtain ⟨hx, hl⟩ := pairwise_cons.mp hsorted
    cases l with
    | nil =>
      rw [lastOfRuns, mem_singleton]
      exact ⟨fun h ↦ ⟨h, fun b hb _ ↦ ((mem_singleton.mp hb).trans h.symm).le⟩, And.left⟩
    | cons y =>
      have hrest := ih hl
      rw [lastOfRuns]
      split_ifs with hxy
      · -- the head is followed by an entry with its key
        rw [hrest]
        constructor
        · rintro ⟨ha, hmax⟩
          exact ⟨mem_cons_of_mem _ ha, forall_mem_cons.mpr ⟨fun _ ↦ hx a ha, hmax⟩⟩
        · rintro ⟨ha, hmax⟩
          obtain ⟨-, hmax'⟩ := forall_mem_cons.mp hmax
          refine ⟨?_, hmax'⟩
          rcases mem_cons.mp ha with rfl | ha
          · have hle := hmax' y mem_cons_self hxy.symm
            rw [(hx y mem_cons_self).antisymm hle]
            exact mem_cons_self
          · exact ha
      · have hlt := key_lt_of_ne hkey hsorted rfl hxy
        rw [mem_cons, hrest]
        constructor
        · rintro (rfl | ⟨ha, hmax⟩)
          · exact ⟨mem_cons_self, forall_mem_cons.mpr
              ⟨fun _ ↦ le_rfl, fun b hb heq ↦ absurd heq (hlt b hb).ne'⟩⟩
          · exact ⟨mem_cons_of_mem _ ha, forall_mem_cons.mpr
              ⟨fun heq ↦ absurd heq (hlt a ha).ne, hmax⟩⟩
        · rintro ⟨ha, hmax⟩
          rcases mem_cons.mp ha with rfl | ha
          · exact .inl rfl
          · exact .inr ⟨ha, (forall_mem_cons.mp hmax).2⟩

/-- The kept entries have different keys, in order. -/
theorem lastOfRuns_sorted : (lastOfRuns key l).Pairwise (key · < key ·) := by
  induction l with
  | nil => exact .nil
  | cons x l ih =>
    obtain ⟨-, hl⟩ := pairwise_cons.mp hsorted
    cases l with
    | nil => exact pairwise_singleton _ _
    | cons =>
      rw [lastOfRuns]
      split_ifs with hxy
      · exact ih hl
      · have hlt := key_lt_of_ne hkey hsorted rfl hxy
        exact .cons (fun b hb ↦ hlt b ((lastOfRuns_sublist key _).subset hb)) (ih hl)

end

end NewestWins
