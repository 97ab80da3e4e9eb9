import MonoTS.Table.Sst

/-!
# Collecting sealed WAL files

A numbered WAL file other than the newest is dropped once an SST covers its largest LSN. A file
without LSNs is dropped when it has no batches, or when something else remembers the clock. How the
two facts about a file are read off its bytes, its largest LSN and whether it has batches, is a
parameter here.
-/

open List

namespace MonoTS

variable {ρ : Type*}

def canDropWalFile (index : List (Sst ρ)) (hi : ℕ) (hasBatches otherHasBatches : Bool) : Bool :=
  if 0 < hi then index.any fun s ↦ s.coversLsn hi
  else if hasBatches = false then true
  else if index.any Sst.hasLsnBounds then true
  else if index.isEmpty = false then true
  else otherHasBatches

section

variable {F : Type*} (hi : F → ℕ) (hasBatches : F → Bool) (retained : ℕ → Bool)
  (index : List (Sst ρ))

/-- Go through the files from the oldest on; the newest is in use and stays. A file whose LSNs a
capture has not passed is retained. Returns the files that are left and those that were dropped. -/
def gcSealedWalFiles (kept : List F) : List F → List F × List F
  | [] => (kept, [])
  | [active] => (kept ++ [active], [])
  | file :: next :: rest =>
    if 0 < hi file ∧ retained (hi file) = true ∨
        canDropWalFile index (hi file) (hasBatches file) ((kept ++ next :: rest).any hasBatches) =
          false then
      gcSealedWalFiles (kept ++ [file]) (next :: rest)
    else
      let r := gcSealedWalFiles kept (next :: rest)
      (r.1, file :: r.2)

variable {hi hasBatches retained index} {kept files : List F} {f : F}

theorem mem_gcSealedWalFiles (h : f ∈ kept ∨ f ∈ files) :
    f ∈ (gcSealedWalFiles hi hasBatches retained index kept files).1 ∨
      f ∈ (gcSealedWalFiles hi hasBatches retained index kept files).2 := by
  fun_induction gcSealedWalFiles hi hasBatches retained index kept files with
  | case1 => exact .inl (h.resolve_right not_mem_nil)
  | case2 => exact .inl (mem_append.mpr h)
  | case3 kept file next rest _ ih =>
    refine ih ?_
    rcases h with h | h
    · exact .inl (mem_append_left _ h)
    · rcases mem_cons.mp h with rfl | h
      · exact .inl (mem_append_right _ mem_cons_self)
      · exact .inr h
  | case4 kept file next rest _ _ ih =>
    rcases h with h | h
    · exact (ih (.inl h)).imp_right (mem_cons_of_mem _)
    · rcases mem_cons.mp h with rfl | h
      · exact .inr mem_cons_self
      · exact (ih (.inr h)).imp_right (mem_cons_of_mem _)

theorem mem_of_mem_gcSealedWalFiles
    (h : f ∈ (gcSealedWalFiles hi hasBatches retained index kept files).1) :
    f ∈ kept ∨ f ∈ files := by
  fun_induction gcSealedWalFiles hi hasBatches retained index kept files with
  | case1 => exact .inl h
  | case2 => exact mem_append.mp h
  | case3 kept file next rest _ ih =>
    rcases ih h with h | h
    · refine (mem_append.mp h).imp_right fun h ↦ ?_
      exact mem_singleton.mp h ▸ mem_cons_self
    · exact .inr (mem_cons_of_mem _ h)
  | case4 kept file next rest _ _ ih => exact (ih h).imp_right (mem_cons_of_mem _)

/-- **What is dropped** of the files with LSNs: those behind the newest that no capture needs, if an
SST covers their largest LSN. -/
theorem mem_dropped_iff (hpos : 0 < hi f) :
    f ∈ (gcSealedWalFiles hi hasBatches retained index kept files).2 ↔
      f ∈ files.dropLast ∧ retained (hi f) = false ∧ ∃ s ∈ index, s.coversLsn (hi f) = true := by
  fun_induction gcSealedWalFiles hi hasBatches retained index kept files with
  | case1 | case2 => simp
  | case3 kept file next rest hkeep ih =>
    rw [ih, dropLast_cons_cons, mem_cons, or_and_right, or_iff_right]
    rintro ⟨rfl, hret, hcov⟩
    rcases hkeep with ⟨-, hkeep⟩ | hkeep
    · exact Bool.false_ne_true (hret.symm.trans hkeep)
    · rw [canDropWalFile, if_pos hpos, any_eq_true.mpr hcov] at hkeep
      exact Bool.false_ne_true hkeep.symm
  | case4 kept file next rest hdrop _ ih =>
    rw [mem_cons, ih, dropLast_cons_cons, mem_cons, or_and_right]
    refine or_congr_left ⟨fun heq ↦ ?_, And.left⟩
    subst heq
    obtain ⟨hret, hcan⟩ := not_or.mp hdrop
    rw [canDropWalFile, if_pos hpos, Bool.not_eq_false] at hcan
    exact ⟨rfl, Bool.eq_false_iff.mpr fun h ↦ hret ⟨hpos, h⟩, any_eq_true.mp hcan⟩

theorem covered_of_dropped (h : f ∈ (gcSealedWalFiles hi hasBatches retained index kept files).2)
    (hpos : 0 < hi f) : ∃ s ∈ index, s.coversLsn (hi f) = true :=
  ((mem_dropped_iff hpos).mp h).2.2

end

end MonoTS
