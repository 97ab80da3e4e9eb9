import Mathlib

/-!
# Cutting a stream into windows

A consumer collects what it is given and hands on what it has once that is `n` elements, and again
at the end: `windows n`. A batch is made of every window, which may fail. All batches together have
the right rows if and only if the rows of every window are right (`exists_map_ok_iff`,
`flatMap_eq_iff`).
-/

open List

namespace Windows

variable {α β ε : Type*}

/-- The windows of a stream, with what has been collected before it. -/
def windowsFrom (n : ℕ) : List α → List α → List (List α)
  | cur, [] => if cur.isEmpty then [] else [cur]
  | cur, a :: as =>
    if n ≤ (cur ++ [a]).length then (cur ++ [a]) :: windowsFrom n [] as
    else windowsFrom n (cur ++ [a]) as

variable (n : ℕ)

def windows (as : List α) : List (List α) := windowsFrom n [] as

theorem flatten_windowsFrom (cur as : List α) : (windowsFrom n cur as).flatten = cur ++ as := by
  induction as generalizing cur with
  | nil =>
    rw [windowsFrom, append_nil]
    split_ifs with h
    · exact (List.isEmpty_iff.mp h).symm
    · exact flatten_singleton
  | cons a as ih =>
    rw [windowsFrom]
    split_ifs with h
    · rw [flatten_cons, ih, nil_append, append_assoc, singleton_append]
    · rw [ih, append_assoc, singleton_append]

theorem flatten_windows (as : List α) : (windows n as).flatten = as :=
  flatten_windowsFrom n [] as

theorem ne_nil_of_mem_windowsFrom {n : ℕ} {cur as w : List α} (h : w ∈ windowsFrom n cur as) :
    w ≠ [] := by
  induction as generalizing cur with
  | nil =>
    rw [windowsFrom] at h
    split_ifs at h with hcur
    · cases h
    · rw [mem_singleton.mp h]
      exact fun hnil ↦ hcur (List.isEmpty_iff.mpr hnil)
  | cons a as ih =>
    rw [windowsFrom] at h
    split_ifs at h with hfull
    · rcases mem_cons.mp h with rfl | h
      · simp
      · exact ih h
    · exact ih h

theorem ne_nil_of_mem_windows {n : ℕ} {as w : List α} (h : w ∈ windows n as) : w ≠ [] :=
  ne_nil_of_mem_windowsFrom h

/-- Parts that are as long on both sides are equal one by one. -/
theorem flatMap_eq_iff {g h : α → List β} (hlen : ∀ a, (g a).length = (h a).length) {l : List α} :
    l.flatMap g = l.flatMap h ↔ ∀ a ∈ l, g a = h a := by
  induction l with
  | nil => simp
  | cons a l ih =>
    rw [flatMap_cons, flatMap_cons, forall_mem_cons, ← ih]
    exact ⟨fun heq ↦ append_inj heq (hlen a), fun ⟨hhead, htail⟩ ↦ by rw [hhead, htail]⟩

/-- The batches made of the parts succeed and have the given rows. -/
theorem exists_map_ok_iff {f : α → Except ε (List β)} {g : α → List (Option β)} {l : List α}
    (hf : ∀ a ∈ l, ∀ b, f a = .ok b ↔ g a = b.map some) {rows : List β} :
    (∃ bs : List (List β), l.map f = bs.map .ok ∧ bs.flatten = rows) ↔
      l.flatMap g = rows.map some := by
  induction l generalizing rows with
  | nil =>
    constructor
    · rintro ⟨bs, hbs, rfl⟩
      rw [map_eq_nil_iff.mp hbs.symm]
      rfl
    · intro h
      exact ⟨[], rfl, (map_eq_nil_iff.mp h.symm).symm⟩
  | cons a l ih =>
    obtain ⟨ha, hl⟩ := forall_mem_cons.mp hf
    rw [flatMap_cons]
    constructor
    · rintro ⟨bs, hbs, rfl⟩
      obtain ⟨b, bs, rfl, hb, hrest⟩ := map_eq_cons_iff.mp hbs.symm
      rw [flatten_cons, map_append, (ha b).mp hb.symm, (ih hl).mp ⟨bs, hrest.symm, rfl⟩]
    · intro h
      obtain ⟨b, _, rfl, hb, hrest⟩ := map_eq_append_iff.mp h.symm
      obtain ⟨bs, hbs, rfl⟩ := (ih hl).mpr hrest.symm
      refine ⟨b :: bs, ?_, rfl⟩
      rw [map_cons, map_cons, (ha b).mpr hb.symm, hbs]

end Windows
