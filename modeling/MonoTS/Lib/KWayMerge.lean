import Mathlib

/-!
# Merging sorted sources by priority

The streaming merge of several sources of rows, each in non-decreasing order of its keys. A heap
holds one cursor for every source that is not exhausted; what is popped is the cursor with the
smallest key, and among those with the same key the one of the highest priority. A popped row is
emitted if its key is not the one that was emitted last, and the cursor is advanced and pushed
again.

The output is strictly increasing in the keys, and its row for a key is the first row with that key
in the source of the highest priority among those that have it (`lookup_mergeSources`). What carries
the induction is that every key still ahead of the cursors is at least the one emitted last, so that
the rows with a larger key are all still there.
-/

open List Option

namespace KWayMerge

variable {π κ ρ : Type*}

/-! ## Popping the first element -/

section

variable {α β γ : Type*} [LinearOrder β] {rank : α → β} {heap rest : List α} {a : α}

/-- Take an element of the smallest rank out of a list. -/
def popMin (rank : α → β) : List α → Option (α × List α)
  | [] => none
  | a :: heap =>
    match popMin rank heap with
    | none => some (a, [])
    | some (b, rest) => if rank b < rank a then some (b, a :: rest) else some (a, b :: rest)

theorem popMin_eq_none : popMin rank heap = none ↔ heap = [] := by
  cases heap with
  | nil => simp [popMin]
  | cons =>
    refine ⟨fun h ↦ ?_, fun h ↦ absurd h (cons_ne_nil _ _)⟩
    rw [popMin] at h
    split at h
    · cases h
    · split at h <;> cases h

theorem popMin_spec (h : popMin rank heap = some (a, rest)) :
    heap.Perm (a :: rest) ∧ ∀ b ∈ heap, rank a ≤ rank b := by
  induction heap generalizing a rest with
  | nil => cases h
  | cons b heap ih =>
    rw [popMin] at h
    split at h
    · next hnone =>
      cases h
      rw [popMin_eq_none.mp hnone]
      exact ⟨.refl _, fun d hd ↦ (mem_singleton.mp hd) ▸ le_rfl⟩
    · next d ds hsome =>
      obtain ⟨hperm, hfst⟩ := ih hsome
      split at h
      · next hlt =>
        cases h
        refine ⟨(hperm.cons b).trans (.swap _ _ _), fun e he ↦ ?_⟩
        rcases mem_cons.mp he with rfl | he
        · exact hlt.le
        · exact hfst e he
      · next hlt =>
        cases h
        refine ⟨hperm.cons b, fun e he ↦ ?_⟩
        rcases mem_cons.mp he with rfl | he
        · exact le_rfl
        · exact (not_lt.mp hlt).trans (hfst e he)

theorem popMin_map (rank : γ → β) (f : α → γ) (heap : List α) :
    popMin rank (heap.map f) =
      (popMin (fun a ↦ rank (f a)) heap).map fun (a, rest) ↦ (f a, rest.map f) := by
  induction heap with
  | nil => rfl
  | cons a heap ih =>
    rw [map_cons, popMin, ih, popMin]
    cases popMin (fun a ↦ rank (f a)) heap with
    | none => rfl
    | some br =>
      obtain ⟨_, _⟩ := br
      simp only [map_some]
      split_ifs
      · rfl
      · rfl

end

/-! ## Cursors -/

/-- A source that is not exhausted: the row it is at and those that follow. -/
structure Cursor (π κ ρ : Type*) where
  priority : π
  head : κ × ρ
  tail : List (κ × ρ)

namespace Cursor

variable (c : Cursor π κ ρ)

def rows : List (κ × ρ) := c.head :: c.tail

def ofRows (priority : π) : List (κ × ρ) → Option (Cursor π κ ρ)
  | [] => none
  | x :: xs => some ⟨priority, x, xs⟩

def advance : Option (Cursor π κ ρ) := ofRows c.priority c.tail

variable {c : Cursor π κ ρ}

theorem ofRows_eq_some {p : π} {xs : List (κ × ρ)} :
    ofRows p xs = some c ↔ c.priority = p ∧ c.rows = xs := by
  cases xs with
  | nil => simp [ofRows, rows]
  | cons =>
    obtain ⟨_, _, _⟩ := c
    simp only [ofRows, rows, Option.some.injEq, mk.injEq, List.cons.injEq, eq_comm]

/-- The order of the heap: smaller keys first, then higher priorities. -/
def rank (c : Cursor π κ ρ) : κ ×ₗ πᵒᵈ := toLex (c.head.1, OrderDual.toDual c.priority)

theorem head_le_of_rank_le [LinearOrder κ] [LinearOrder π] {d : Cursor π κ ρ}
    (h : c.rank ≤ d.rank) : c.head.1 ≤ d.head.1 := by
  rcases Prod.Lex.toLex_le_toLex.mp h with h | h
  · exact h.le
  · exact h.1.le

theorem priority_le_of_rank_le [LinearOrder κ] [LinearOrder π] {d : Cursor π κ ρ}
    (h : c.rank ≤ d.rank) (hkey : c.head.1 = d.head.1) : d.priority ≤ c.priority := by
  rcases Prod.Lex.toLex_le_toLex.mp h with h | h
  · exact absurd hkey h.ne
  · exact h.2

end Cursor

open Cursor (rows advance ofRows_eq_some priority ofRows)

variable {heap rest : List (Cursor π κ ρ)} {c : Cursor π κ ρ} {last : Option κ} {t : κ} {r : ρ}

/-- The rows that are still ahead of the cursors. -/
def size (heap : List (Cursor π κ ρ)) : ℕ := (heap.map fun c ↦ c.rows.length).sum

theorem eq_nil_of_size_le_zero (h : size heap ≤ 0) : heap = [] := by
  cases heap with
  | nil => rfl
  | cons => simp [size, rows] at h

/-- The heap after the popped cursor has been advanced. -/
def push (c : Cursor π κ ρ) (rest : List (Cursor π κ ρ)) : List (Cursor π κ ρ) :=
  c.advance.toList ++ rest

theorem mem_push {d : Cursor π κ ρ} :
    d ∈ push c rest ↔ (d.priority = c.priority ∧ d.rows = c.tail) ∨ d ∈ rest := by
  rw [push, mem_append, mem_toList, advance, ofRows_eq_some]

theorem nodup_priority_push (h : heap.Perm (c :: rest))
    (hnd : (heap.map priority).Nodup) : ((push c rest).map priority).Nodup := by
  have hnd := (h.map priority).nodup_iff.mp hnd
  rw [push, map_append, advance]
  cases c.tail with
  | nil => exact (nodup_cons.mp hnd).2
  | cons => exact hnd

theorem size_push (h : heap.Perm (c :: rest)) : size (push c rest) + 1 = size heap := by
  have hsize : size heap = size (c :: rest) := (h.map _).sum_nat
  rw [hsize]
  obtain ⟨_, _, _ | ⟨_, _⟩⟩ := c
  · simp [size, push, advance, ofRows, rows, Nat.add_comm]
  · simp [size, push, advance, ofRows, rows]
    omega

theorem size_push_le {fuel : ℕ} (h : heap.Perm (c :: rest)) (hfuel : size heap ≤ fuel + 1) :
    size (push c rest) ≤ fuel := by
  rw [← size_push h] at hfuel
  exact Nat.le_of_succ_le_succ hfuel

/-! ## Rows of a source -/

variable {x : κ × ρ} {xs : List (κ × ρ)}

theorem lookup_cons_of_ne [DecidableEq κ] (h : t ≠ x.1) : (x :: xs).lookup t = xs.lookup t := by
  rw [lookup_cons, beq_false_of_ne h]

theorem lookup_eq_none_iff [DecidableEq κ] : xs.lookup t = none ↔ t ∉ xs.map Prod.fst := by
  induction xs with
  | nil => simp
  | cons x xs ih =>
    by_cases ht : t = x.1
    · subst ht
      simp [show (x :: xs).lookup x.1 = some x.2 from lookup_cons_self]
    · rw [lookup_cons_of_ne ht, ih, map_cons, mem_cons, or_iff_right ht]

theorem lookup_filter [DecidableEq κ] {p : κ → Bool} :
    (xs.filter fun x ↦ p x.1).lookup t = if p t then xs.lookup t else none := by
  induction xs with
  | nil => simp
  | cons x xs ih =>
    rw [filter_cons]
    by_cases ht : t = x.1
    · subst ht
      split
      · rw [lookup_cons_self, lookup_cons_self]
      · next hp => rw [ih, if_neg hp]
    · rw [lookup_cons_of_ne ht, ← ih]
      split
      · exact lookup_cons_of_ne ht
      · rfl

theorem mem_keys_of_lookup [DecidableEq κ] (h : xs.lookup t = some r) : t ∈ xs.map Prod.fst := by
  by_contra hnot
  cases (lookup_eq_none_iff.mpr hnot).symm.trans h

variable [LinearOrder κ] [LinearOrder π]

/-! ## The heap -/

def pop : List (Cursor π κ ρ) → Option (Cursor π κ ρ × List (Cursor π κ ρ))
  | [] => none
  | c :: heap =>
    match pop heap with
    | none => some (c, [])
    | some (d, rest) => if d.rank < c.rank then some (d, c :: rest) else some (c, d :: rest)

theorem pop_eq_popMin (heap : List (Cursor π κ ρ)) : pop heap = popMin Cursor.rank heap := by
  induction heap with
  | nil => rfl
  | cons c heap ih =>
    rw [pop, popMin, ih]
    cases popMin Cursor.rank heap with
    | none => rfl
    | some dr =>
      obtain ⟨d, _⟩ := dr
      -- the two ways to decide the comparison are not the same term
      by_cases hlt : d.rank < c.rank
      · simp only [if_pos hlt]
      · simp only [if_neg hlt]

theorem pop_eq_none : pop heap = none ↔ heap = [] := by
  rw [pop_eq_popMin, popMin_eq_none]

theorem pop_spec (h : pop heap = some (c, rest)) :
    heap.Perm (c :: rest) ∧ ∀ d ∈ heap, c.rank ≤ d.rank :=
  popMin_spec (pop_eq_popMin heap ▸ h)

/-! ## The merge -/

/-- The loop of the merge: pop, emit the row unless its key was emitted last, advance. -/
def merge : ℕ → List (Cursor π κ ρ) → Option κ → List (κ × ρ)
  | 0, _, _ => []
  | fuel + 1, heap, last =>
    match pop heap with
    | none => []
    | some (c, rest) =>
      if last = some c.head.1 then merge fuel (push c rest) last
      else c.head :: merge fuel (push c rest) (some c.head.1)

/-- The sources are sorted, no two have the same priority, and no cursor is behind the key that was
emitted last. -/
structure Ready (heap : List (Cursor π κ ρ)) (last : Option κ) : Prop where
  sorted : ∀ c ∈ heap, c.rows.Pairwise (·.1 ≤ ·.1)
  distinct : (heap.map priority).Nodup
  ahead : ∀ c ∈ heap, ∀ k ∈ last, k ≤ c.head.1

/-- The row for a key: the first one in the source of the highest priority that has the key. -/
def Newest (heap : List (Cursor π κ ρ)) (t : κ) (r : ρ) : Prop :=
  ∃ c ∈ heap, c.rows.lookup t = some r ∧
    ∀ d ∈ heap, t ∈ d.rows.map Prod.fst → d.priority ≤ c.priority

omit [LinearOrder π] in
theorem Ready.head_le (h : Ready heap last) (hc : c ∈ heap) (ht : t ∈ c.rows.map Prod.fst) :
    c.head.1 ≤ t := by
  obtain ⟨x, hx, rfl⟩ := List.mem_map.mp ht
  rcases mem_cons.mp hx with rfl | hx
  · exact le_rfl
  · exact (pairwise_cons.mp (h.sorted c hc)).1 x hx

/-- **The step of the loop** keeps the heap ready; the key that was popped is the last one. -/
theorem Ready.push_of_first (h : Ready heap last) (hperm : heap.Perm (c :: rest))
    (hfst : ∀ d ∈ heap, c.rank ≤ d.rank) : Ready (push c rest) (some c.head.1) := by
  have hmem {d : Cursor π κ ρ} : d ∈ heap ↔ d ∈ c :: rest := hperm.mem_iff
  have hc : c ∈ heap := hmem.mpr mem_cons_self
  have hrows := pairwise_cons.mp (h.sorted c hc)
  refine ⟨fun d hd ↦ ?_, nodup_priority_push hperm h.distinct, fun d hd k hk ↦ ?_⟩
  · rcases mem_push.mp hd with ⟨-, heq⟩ | hd
    · rw [heq]
      exact hrows.2
    · exact h.sorted d (hmem.mpr (mem_cons_of_mem _ hd))
  · obtain rfl : c.head.1 = k := by simpa using hk
    rcases mem_push.mp hd with ⟨-, heq⟩ | hd
    · exact hrows.1 d.head (heq ▸ mem_cons_self)
    · exact Cursor.head_le_of_rank_le (hfst d (hmem.mpr (mem_cons_of_mem _ hd)))

theorem Ready.push (h : Ready heap last) (hpop : pop heap = some (c, rest)) :
    Ready (push c rest) (some c.head.1) :=
  h.push_of_first (pop_spec hpop).1 (pop_spec hpop).2

/-- Keys other than the popped one are answered by the same sources after the step. -/
theorem newest_push (hperm : heap.Perm (c :: rest)) (ht : t ≠ c.head.1) :
    Newest (push c rest) t r ↔ Newest heap t r := by
  have hmem {d : Cursor π κ ρ} : d ∈ heap ↔ d = c ∨ d ∈ rest := hperm.mem_iff.trans mem_cons
  have hlook : c.rows.lookup t = c.tail.lookup t := lookup_cons_of_ne ht
  have hkeys : t ∈ c.rows.map Prod.fst ↔ t ∈ c.tail.map Prod.fst := by
    rw [rows, map_cons, mem_cons, or_iff_right ht]
  have hadvd (hk : t ∈ c.tail.map Prod.fst) :
      ∃ d : Cursor π κ ρ, d.priority = c.priority ∧ d.rows = c.tail := by
    obtain ⟨p, _, _ | ⟨y, ys⟩⟩ := c
    · simp at hk
    · exact ⟨⟨p, y, ys⟩, rfl, rfl⟩
  constructor
  · rintro ⟨d, hd, hr, hmax⟩
    have hrest (p : π) (hp : ∀ e ∈ push c rest, t ∈ e.rows.map Prod.fst → e.priority ≤ p) :
        ∀ e ∈ heap, t ∈ e.rows.map Prod.fst → e.priority ≤ p := by
      intro e he hk
      rcases hmem.mp he with rfl | he
      · obtain ⟨e', hprio, hrows⟩ := hadvd (hkeys.mp hk)
        rw [← hprio]
        exact hp e' (mem_push.mpr (.inl ⟨hprio, hrows⟩)) (hrows ▸ hkeys.mp hk)
      · exact hp e (mem_push.mpr (.inr he)) hk
    rcases mem_push.mp hd with ⟨hprio, hrows⟩ | hd
    · refine ⟨c, hmem.mpr (.inl rfl), by rw [hlook, ← hrows, hr], ?_⟩
      exact hprio ▸ hrest _ hmax
    · exact ⟨d, hmem.mpr (.inr hd), hr, hrest _ hmax⟩
  · rintro ⟨d, hd, hr, hmax⟩
    have hrest : ∀ e ∈ push c rest, t ∈ e.rows.map Prod.fst → e.priority ≤ d.priority := by
      intro e he hk
      rcases mem_push.mp he with ⟨hprio, hrows⟩ | he
      · rw [hprio]
        exact hmax c (hmem.mpr (.inl rfl)) (hkeys.mpr (hrows ▸ hk))
      · exact hmax e (hmem.mpr (.inr he)) hk
    rcases hmem.mp hd with rfl | hd
    · obtain ⟨d', hprio, hrows⟩ := hadvd (hkeys.mp (mem_keys_of_lookup hr))
      refine ⟨d', mem_push.mpr (.inl ⟨hprio, hrows⟩), by rw [hrows, ← hlook, hr], ?_⟩
      rw [hprio]
      exact hrest
    · exact ⟨d, mem_push.mpr (.inr hd), hr, hrest⟩

/-- The popped row is the one for its key. -/
theorem newest_head (h : Ready heap last) (hpop : pop heap = some (c, rest)) :
    Newest heap c.head.1 r ↔ r = c.head.2 := by
  obtain ⟨hperm, hfst⟩ := pop_spec hpop
  have hc : c ∈ heap := hperm.mem_iff.mpr mem_cons_self
  have hlook : c.rows.lookup c.head.1 = some c.head.2 := lookup_cons_self
  have hmax : ∀ d ∈ heap, c.head.1 ∈ d.rows.map Prod.fst → d.priority ≤ c.priority := by
    intro d hd hk
    have hkey := (Cursor.head_le_of_rank_le (hfst d hd)).antisymm (h.head_le hd hk)
    exact Cursor.priority_le_of_rank_le (hfst d hd) hkey
  constructor
  · rintro ⟨d, hd, hr, hd'⟩
    have hprio : d.priority = c.priority :=
      (hmax d hd (mem_keys_of_lookup hr)).antisymm (hd' c hc (mem_keys_of_lookup hlook))
    obtain rfl : d = c := inj_on_of_nodup_map h.distinct hd hc hprio
    exact (some.inj (hlook.symm.trans hr)).symm
  · rintro rfl
    exact ⟨c, hc, hlook, hmax⟩

variable {fuel : ℕ} {heap' : List (Cursor π κ ρ)}

/-- **What the loop emits**, from any heap it can be in: for every key above the last one, the row
of the source of the highest priority. -/
theorem mem_merge (h : Ready heap last) (hfuel : size heap ≤ fuel) :
    (t, r) ∈ merge fuel heap last ↔ (∀ k ∈ last, k < t) ∧ Newest heap t r := by
  induction fuel generalizing heap last with
  | zero =>
    rw [eq_nil_of_size_le_zero hfuel]
    simp [merge, Newest]
  | succ fuel ih =>
    rw [merge]
    split
    · next hnone =>
      rw [pop_eq_none.mp hnone]
      simp [Newest]
    · next c rest hpop =>
      obtain ⟨hperm, hfst⟩ := pop_spec hpop
      have hrdy := h.push hpop
      have hsize := size_push_le hperm hfuel
      have htail (hlt : c.head.1 < t) : Newest (push c rest) t r ↔ Newest heap t r :=
        newest_push hperm hlt.ne'
      split
      · next hlast =>
        subst hlast
        rw [ih hrdy hsize]
        refine and_congr_right fun hlt ↦ htail (hlt _ rfl)
      · next hlast =>
        rw [mem_cons, ih hrdy hsize]
        have hbelow : ∀ k ∈ last, k < c.head.1 := fun k hk ↦
          (h.ahead c (hperm.mem_iff.mpr mem_cons_self) k hk).lt_of_ne
            fun heq ↦ hlast (heq ▸ hk)
        constructor
        · rintro (heq | ⟨hlt, hnew⟩)
          · obtain ⟨rfl, rfl⟩ := Prod.ext_iff.mp heq
            exact ⟨hbelow, (newest_head h hpop).mpr rfl⟩
          · have hlt := hlt _ rfl
            exact ⟨fun k hk ↦ (hbelow k hk).trans hlt, (htail hlt).mp hnew⟩
        · rintro ⟨-, hnew⟩
          rcases lt_trichotomy t c.head.1 with hlt | rfl | hlt
          · -- No source has a key below the smallest head.
            obtain ⟨d, hd, hr, -⟩ := hnew
            have hle := (Cursor.head_le_of_rank_le (hfst d hd)).trans
              (h.head_le hd (mem_keys_of_lookup hr))
            exact absurd hlt hle.not_gt
          · exact .inl (Prod.ext rfl ((newest_head h hpop).mp hnew))
          · exact .inr ⟨fun k hk ↦ (mem_some.mp hk) ▸ hlt, (htail hlt).mpr hnew⟩

theorem exists_mem_rows_of_mem_merge (hx : x ∈ merge fuel heap last) : ∃ c ∈ heap, x ∈ c.rows := by
  induction fuel generalizing heap last with
  | zero => cases hx
  | succ fuel ih =>
    rw [merge] at hx
    split at hx
    · cases hx
    · next c rest hpop =>
      have hmem {d : Cursor π κ ρ} (hd : d ∈ c :: rest) : d ∈ heap :=
        (pop_spec hpop).1.mem_iff.mpr hd
      have hpush (h : ∃ d ∈ push c rest, x ∈ d.rows) : ∃ d ∈ heap, x ∈ d.rows := by
        obtain ⟨d, hd, hxd⟩ := h
        rcases mem_push.mp hd with ⟨-, hrows⟩ | hd
        · exact ⟨c, hmem mem_cons_self, mem_cons_of_mem _ (hrows ▸ hxd)⟩
        · exact ⟨d, hmem (mem_cons_of_mem _ hd), hxd⟩
      split at hx
      · exact hpush (ih hx)
      · rcases mem_cons.mp hx with rfl | hx
        · exact ⟨c, hmem mem_cons_self, mem_cons_self⟩
        · exact hpush (ih hx)

/-- **The output is strictly increasing.** -/
theorem merge_sorted (h : Ready heap last) (hfuel : size heap ≤ fuel) :
    (merge fuel heap last).Pairwise (·.1 < ·.1) := by
  induction fuel generalizing heap last with
  | zero => exact .nil
  | succ fuel ih =>
    rw [merge]
    split
    · exact .nil
    · next c rest hpop =>
      have hrdy := h.push hpop
      have hsize := size_push_le (pop_spec hpop).1 hfuel
      split
      · next hlast => exact ih (hlast ▸ hrdy) hsize
      · exact .cons (fun x hx ↦ ((mem_merge hrdy hsize).mp hx).1 _ rfl) (ih hrdy hsize)

/-! ## The merge of a heap in any order -/

omit [LinearOrder π] in
theorem nodup_keys_of_sorted (h : xs.Pairwise (·.1 < ·.1)) : (xs.map Prod.fst).Nodup :=
  pairwise_map.mpr (h.imp fun hlt ↦ hlt.ne)

/-- Lists in the order of their keys are determined by their rows. -/
theorem eq_of_sorted {ys : List (κ × ρ)} (hxs : xs.Pairwise (·.1 < ·.1))
    (hys : ys.Pairwise (·.1 < ·.1)) (hmem : ∀ x, x ∈ xs ↔ x ∈ ys) : xs = ys := by
  have hnd {l : List (κ × ρ)} (hl : l.Pairwise (·.1 < ·.1)) : l.Nodup :=
    (nodup_keys_of_sorted hl).of_map
  refine List.Perm.eq_of_pairwise (fun a b _ _ hab hba ↦ absurd hba hab.not_gt) hxs hys ?_
  exact (perm_ext_iff_of_nodup (hnd hxs) (hnd hys)).mpr fun x ↦ hmem x

/-- All rows that the loop emits. -/
def mergeAll (heap : List (Cursor π κ ρ)) (last : Option κ) : List (κ × ρ) :=
  merge (size heap) heap last

omit [LinearOrder π] in
theorem Ready.perm (h : Ready heap last) (hperm : heap.Perm heap') :
    Ready heap' last where
  sorted c hc := h.sorted c (hperm.mem_iff.mpr hc)
  distinct := (hperm.map _).nodup_iff.mp h.distinct
  ahead c hc := h.ahead c (hperm.mem_iff.mpr hc)

theorem mergeAll_perm (h : Ready heap last) (hperm : heap.Perm heap') :
    mergeAll heap last = mergeAll heap' last := by
  refine eq_of_sorted (merge_sorted h le_rfl) (merge_sorted (h.perm hperm) le_rfl) fun ⟨t, r⟩ ↦ ?_
  rw [mergeAll, mergeAll, mem_merge h le_rfl, mem_merge (h.perm hperm) le_rfl, Newest, Newest]
  simp only [hperm.mem_iff]

/-- **One round of the loop**, for whichever cursor is the first. -/
theorem mergeAll_of_first (h : Ready heap last) (hperm : heap.Perm (c :: rest))
    (hfst : ∀ d ∈ heap, c.rank ≤ d.rank) :
    mergeAll heap last =
      if last = some c.head.1 then mergeAll (push c rest) last
      else c.head :: mergeAll (push c rest) (some c.head.1) := by
  obtain ⟨⟨c', rest'⟩, hpop⟩ : ∃ cr, pop heap = some cr := by
    refine ne_none_iff_exists'.mp fun hnone ↦ ?_
    rw [pop_eq_none.mp hnone] at hperm
    exact cons_ne_nil _ _ (nil_perm.mp hperm)
  obtain ⟨hperm', hfst'⟩ := pop_spec hpop
  have hc : c ∈ heap := hperm.mem_iff.mpr mem_cons_self
  have hc' : c' ∈ heap := hperm'.mem_iff.mpr mem_cons_self
  -- both are first, and the priorities are distinct
  obtain rfl : c' = c := by
    have hrank : c'.rank = c.rank := (hfst' c hc).antisymm (hfst c' hc')
    exact inj_on_of_nodup_map h.distinct hc' hc (congrArg (fun r ↦ (ofLex r).2) hrank)
  have hrest : rest'.Perm rest := (hperm'.symm.trans hperm).cons_inv
  have hpush : (push c' rest').Perm (push c' rest) := hrest.append_left _
  have hrdy := h.push hpop
  rw [mergeAll, ← size_push hperm', merge, hpop, ← mergeAll_perm hrdy hpush]
  simp only
  split_ifs with hlast
  · subst hlast
    exact mergeAll_perm hrdy hpush
  · rfl

/-! ## Rows with more attached to them -/

section

variable {σ : Type*} (f : ρ → σ)

/-- The cursor over the same keys, with other rows. -/
def Cursor.map (c : Cursor π κ ρ) : Cursor π κ σ :=
  ⟨c.priority, (c.head.1, f c.head.2), c.tail.map fun x ↦ (x.1, f x.2)⟩

omit [LinearOrder κ] [LinearOrder π] in
theorem Cursor.ofRows_map (p : π) (xs : List (κ × ρ)) :
    ofRows p (xs.map fun x ↦ (x.1, f x.2)) = (ofRows p xs).map (map f) := by
  cases xs with
  | nil | cons => rfl

theorem pop_map (heap : List (Cursor π κ ρ)) :
    pop (heap.map (Cursor.map f)) =
      (pop heap).map fun (c, rest) ↦ (c.map f, rest.map (Cursor.map f)) := by
  rw [pop_eq_popMin, pop_eq_popMin, popMin_map]
  rfl

omit [LinearOrder κ] [LinearOrder π] in
theorem push_map (c : Cursor π κ ρ) (rest : List (Cursor π κ ρ)) :
    push (c.map f) (rest.map (Cursor.map f)) = (push c rest).map (Cursor.map f) := by
  have hadv : (c.map f).advance = c.advance.map (Cursor.map f) :=
    Cursor.ofRows_map f c.priority c.tail
  rw [push, push, map_append, hadv]
  cases c.advance with
  | none | some => rfl

/-- The merge looks at the keys only. -/
theorem merge_map (fuel : ℕ) (heap : List (Cursor π κ ρ)) (last : Option κ) :
    merge fuel (heap.map (Cursor.map f)) last =
      (merge fuel heap last).map fun x ↦ (x.1, f x.2) := by
  induction fuel generalizing heap last with
  | zero => rfl
  | succ fuel ih =>
    rw [merge, pop_map, merge]
    cases pop heap with
    | none => rfl
    | some cr =>
      obtain ⟨c, _⟩ := cr
      have hhead : (c.map f).head = (c.head.1, f c.head.2) := rfl
      simp only [map_some, push_map, ih, hhead]
      split_ifs
      · rfl
      · rfl

end

/-! ## Merging whole sources -/

variable (sources : List (π × List (κ × ρ)))

/-- Merge the sources, each given with its priority. -/
def mergeSources : List (κ × ρ) :=
  merge (sources.map fun s ↦ s.2.length).sum (sources.filterMap fun s ↦ ofRows s.1 s.2) none

omit [LinearOrder κ] [LinearOrder π] in
theorem size_sources (sources : List (π × List (κ × ρ))) :
    size (sources.filterMap fun s ↦ ofRows s.1 s.2) =
      (sources.map fun s ↦ s.2.length).sum := by
  induction sources with
  | nil => rfl
  | cons s sources ih =>
    obtain ⟨_, _ | ⟨_, _⟩⟩ := s
    · simpa [ofRows] using ih
    · simpa [ofRows, size, rows] using ih

theorem mergeSources_eq_mergeAll :
    mergeSources sources = mergeAll (sources.filterMap fun s ↦ ofRows s.1 s.2) none := by
  rw [mergeSources, mergeAll, size_sources]

variable {sources : List (π × List (κ × ρ))}

theorem exists_mem_of_mem_mergeSources (hx : x ∈ mergeSources sources) :
    ∃ s ∈ sources, x ∈ s.2 := by
  obtain ⟨_, hc, hxc⟩ := exists_mem_rows_of_mem_merge hx
  obtain ⟨s, hs, hcs⟩ := mem_filterMap.mp hc
  exact ⟨s, hs, (ofRows_eq_some.mp hcs).2 ▸ hxc⟩

theorem mergeSources_map {σ : Type*} (f : ρ → σ) (sources : List (π × List (κ × ρ))) :
    mergeSources (sources.map fun s ↦ (s.1, s.2.map fun x ↦ (x.1, f x.2))) =
      (mergeSources sources).map fun x ↦ (x.1, f x.2) := by
  have hheap : (sources.map fun s ↦ (s.1, s.2.map fun x ↦ (x.1, f x.2))).filterMap
        (fun s ↦ ofRows s.1 s.2) =
      (sources.filterMap fun s ↦ ofRows s.1 s.2).map (Cursor.map f) := by
    rw [filterMap_map, map_filterMap]
    exact filterMap_congr fun s _ ↦ Cursor.ofRows_map f s.1 s.2
  rw [mergeSources, hheap, merge_map, List.map_map, mergeSources]
  simp only [Function.comp_def, length_map]

/-- In a strictly increasing list the row for a key is the only one with that key. -/
theorem lookup_eq_some_iff_mem (h : xs.Pairwise (·.1 < ·.1)) :
    xs.lookup t = some r ↔ (t, r) ∈ xs := by
  induction xs with
  | nil => simp
  | cons x xs ih =>
    obtain ⟨hx, hxs⟩ := pairwise_cons.mp h
    rw [mem_cons, Prod.ext_iff]
    by_cases ht : t = x.1
    · subst ht
      have hnot : (x.1, r) ∉ xs := fun hmem ↦ (hx _ hmem).false
      rw [show (x :: xs).lookup x.1 = some x.2 from lookup_cons_self, or_iff_left hnot,
        some_inj, eq_comm, and_iff_right rfl]
    · rw [lookup_cons_of_ne ht, ih hxs]
      simp [ht]

omit [LinearOrder κ] [LinearOrder π] in
theorem nodup_priority_sources (hdistinct : (sources.map Prod.fst).Nodup) :
    ((sources.filterMap fun s ↦ ofRows s.1 s.2).map priority).Nodup := by
  refine hdistinct.sublist ?_
  clear hdistinct
  induction sources with
  | nil => exact .slnil
  | cons s sources ih =>
    obtain ⟨p, _ | ⟨_, _⟩⟩ := s
    · exact ih.cons p
    · exact ih.cons_cons p

section

variable {sources : List (π × List (κ × ρ))} (hsorted : ∀ s ∈ sources, s.2.Pairwise (·.1 ≤ ·.1))
  (hdistinct : (sources.map Prod.fst).Nodup)

include hsorted hdistinct

omit [LinearOrder π] in
theorem ready_sources : Ready (sources.filterMap fun s ↦ ofRows s.1 s.2) (none : Option κ) := by
  refine ⟨fun c hc ↦ ?_, nodup_priority_sources hdistinct, fun c _ k hk ↦ by cases hk⟩
  obtain ⟨s, hs, hc⟩ := mem_filterMap.mp hc
  rw [(ofRows_eq_some.mp hc).2]
  exact hsorted s hs

theorem mergeSources_sorted : (mergeSources sources).Pairwise (·.1 < ·.1) :=
  merge_sorted (ready_sources hsorted hdistinct) (size_sources sources).le

/-- **The merge answers every key from the source of the highest priority that has it.** -/
theorem lookup_mergeSources : (mergeSources sources).lookup t = some r ↔
    ∃ s ∈ sources, s.2.lookup t = some r ∧
      ∀ s' ∈ sources, t ∈ s'.2.map Prod.fst → s'.1 ≤ s.1 := by
  have hrdy := ready_sources hsorted hdistinct
  rw [lookup_eq_some_iff_mem (mergeSources_sorted hsorted hdistinct), mergeSources,
    mem_merge hrdy (size_sources sources).le]
  -- A source is in the heap unless it has no rows, and then it has no keys either.
  have hheap (s : π × List (κ × ρ)) (hs : s ∈ sources) (hk : t ∈ s.2.map Prod.fst) :
      ∃ c ∈ sources.filterMap fun s ↦ ofRows s.1 s.2, c.priority = s.1 ∧ c.rows = s.2 := by
    obtain ⟨p, _ | ⟨x, xs⟩⟩ := s
    · cases hk
    · exact ⟨⟨p, x, xs⟩, mem_filterMap.mpr ⟨_, hs, rfl⟩, rfl, rfl⟩
  constructor
  · rintro ⟨-, c, hc, hr, hmax⟩
    obtain ⟨s, hs, hcs⟩ := mem_filterMap.mp hc
    obtain ⟨hprio, hrows⟩ := ofRows_eq_some.mp hcs
    refine ⟨s, hs, hrows ▸ hr, fun s' hs' hk ↦ ?_⟩
    obtain ⟨d, hd, hdprio, hdrows⟩ := hheap s' hs' hk
    rw [← hprio, ← hdprio]
    exact hmax d hd (hdrows ▸ hk)
  · rintro ⟨s, hs, hr, hmax⟩
    obtain ⟨c, hc, hprio, hrows⟩ := hheap s hs (mem_keys_of_lookup hr)
    refine ⟨fun _ ↦ (by cases ·), c, hc, hrows ▸ hr, fun d hd hk ↦ ?_⟩
    obtain ⟨s', hs', hds⟩ := mem_filterMap.mp hd
    obtain ⟨hdprio, hdrows⟩ := ofRows_eq_some.mp hds
    rw [hdprio, hprio]
    exact hmax s' hs' (hdrows ▸ hk)

end

section

variable {sources : List (π × List (κ × ρ))} (hsorted : ∀ s ∈ sources, s.2.Pairwise (·.1 ≤ ·.1))

include hsorted

/-- With the priorities decreasing along the list, the first source that has a key answers it. -/
theorem lookup_mergeSources_of_decreasing (h : sources.Pairwise fun a b ↦ b.1 < a.1) :
    (mergeSources sources).lookup t = sources.findSome? fun s ↦ s.2.lookup t := by
  have hdistinct : (sources.map Prod.fst).Nodup := pairwise_map.mpr (h.imp fun hlt ↦ hlt.ne')
  refine Option.ext fun r ↦ ?_
  rw [lookup_mergeSources hsorted hdistinct, findSome?_eq_some_iff]
  constructor
  · rintro ⟨s, hs, hr, hmax⟩
    obtain ⟨l₁, l₂, rfl⟩ := append_of_mem hs
    refine ⟨l₁, s, l₂, rfl, hr, fun x hx ↦ eq_none_iff_forall_ne_some.mpr fun r' hr' ↦ ?_⟩
    have hlt := (pairwise_append.mp h).2.2 x hx s mem_cons_self
    exact hlt.not_ge (hmax x (mem_append_left _ hx) (mem_keys_of_lookup hr'))
  · rintro ⟨_, s, _, rfl, hr, hnone⟩
    refine ⟨s, by simp, hr, fun s' hs' hk ↦ ?_⟩
    rcases mem_append.mp hs' with hs' | hs'
    · exact absurd hk (lookup_eq_none_iff.mp (hnone s' hs'))
    · rcases mem_cons.mp hs' with rfl | hs'
      · exact le_rfl
      · exact ((pairwise_cons.mp (pairwise_append.mp h).2.1).1 s' hs').le

/-- With the priorities increasing along the list, the last source that has a key answers it. -/
theorem lookup_mergeSources_of_increasing (h : sources.Pairwise fun a b ↦ a.1 < b.1) :
    (mergeSources sources).lookup t = sources.reverse.findSome? fun s ↦ s.2.lookup t := by
  have hdistinct : (sources.map Prod.fst).Nodup := pairwise_map.mpr (h.imp fun hlt ↦ hlt.ne)
  have hsort' : ∀ s ∈ sources.reverse, s.2.Pairwise (·.1 ≤ ·.1) := fun s hs ↦
    hsorted s (mem_reverse.mp hs)
  rw [← lookup_mergeSources_of_decreasing hsort' (pairwise_reverse.mpr h)]
  refine Option.ext fun r ↦ ?_
  rw [lookup_mergeSources hsorted hdistinct, lookup_mergeSources hsort' (by
    rwa [map_reverse, nodup_reverse])]
  simp only [mem_reverse]

end

end KWayMerge
