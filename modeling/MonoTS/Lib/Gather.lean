import MonoTS.Lib.KWayMerge

/-!
# Gathering rows by coordinates

Rows are collected as coordinates into a list of batches, a batch and a position in it, and looked
up together: `gather`. A table keeps the batches it refers to once for every key, so that what a row
finds is the row at its position in the first batch that was pushed with its key (`resolve`). It is
the right one if the key belongs to one batch only.
-/

open List Option

namespace Gather

variable {κ α β : Type*}

/-! ## Coordinates -/

variable (batches : List (List α))

/-- The row in the given batch at the given position. -/
def rowAt (coord : ℕ × ℕ) : Option α :=
  batches[coord.1]?.bind fun batch ↦ batch[coord.2]?

/-- The rows at the coordinates, if they are all there. -/
def gather (coords : List (ℕ × ℕ)) : Option (List α) :=
  if coords.all fun i ↦ (rowAt batches i).isSome then some (coords.filterMap (rowAt batches))
  else none

theorem map_some_filterMap {f : β → Option α} {l : List β} (h : ∀ b ∈ l, (f b).isSome) :
    (l.filterMap f).map some = l.map f := by
  induction l with
  | nil => rfl
  | cons b l ih =>
    obtain ⟨_, ha⟩ := isSome_iff_exists.mp (h b mem_cons_self)
    rw [filterMap_cons_some ha, map_cons, map_cons, ha,
      ih fun b' hb' ↦ h b' (mem_cons_of_mem _ hb')]

theorem gather_eq_some {batches : List (List α)} {coords : List (ℕ × ℕ)} {rows : List α} :
    gather batches coords = some rows ↔ coords.map (rowAt batches) = rows.map some := by
  rw [gather]
  constructor
  · intro h
    split_ifs at h with hall
    cases h
    exact (map_some_filterMap (List.all_eq_true.mp hall)).symm
  · intro h
    have hall : ∀ i ∈ coords, (rowAt batches i).isSome := by
      intro i hi
      obtain ⟨_, -, hx⟩ := List.mem_map.mp (h ▸ List.mem_map_of_mem hi)
      rw [← hx]
      rfl
    rw [if_pos (List.all_eq_true.mpr hall)]
    rw [← map_some_filterMap hall] at h
    exact congrArg _ (map_injective_iff.mpr (some_injective _) h)

/-! ## The table -/

/-- References to rows of batches that are kept once. -/
structure Table (κ α : Type*) where
  indices : List (ℕ × ℕ)
  sources : List (List α)
  sourceIndex : List (κ × ℕ)
  deriving DecidableEq, Repr

/-- A row to collect. -/
structure Entry (κ α : Type*) where
  batch : List α
  row : ℕ
  key : κ

variable [DecidableEq κ]

namespace Table

def empty : Table κ α := ⟨[], [], []⟩

/-- Refer to the row in the batch that is there for the key, or in its own. -/
def push (t : Table κ α) (batch : List α) (row : ℕ) (key : κ) : Table κ α :=
  match t.sourceIndex.lookup key with
  | some idx => { t with indices := t.indices ++ [(idx, row)] }
  | none =>
    let idx := t.sources.length
    { indices := t.indices ++ [(idx, row)]
      sources := t.sources ++ [batch]
      sourceIndex := (key, idx) :: t.sourceIndex }

/-- The first batch is there for every key, and the coordinates refer to these. -/
structure Holds (t : Table κ α) (entries : List (Entry κ α)) : Prop where
  absent : ∀ key, t.sourceIndex.lookup key = none → ∀ e ∈ entries, e.key ≠ key
  present : ∀ key idx, t.sourceIndex.lookup key = some idx →
    ∃ e, entries.find? (fun e ↦ e.key = key) = some e ∧ t.sources[idx]? = some e.batch
  indices_eq : t.indices = entries.map fun e ↦ ((t.sourceIndex.lookup e.key).getD 0, e.row)

theorem holds_empty : (empty : Table κ α).Holds [] := ⟨nofun, nofun, rfl⟩

variable {entries : List (Entry κ α)}

theorem Holds.length_indices {t : Table κ α} (h : t.Holds entries) :
    t.indices.length = entries.length := by
  rw [h.indices_eq, length_map]

theorem Holds.push {t : Table κ α} (h : t.Holds entries) (e : Entry κ α) :
    (t.push e.batch e.row e.key).Holds (entries ++ [e]) := by
  rw [Table.push]
  cases hidx : t.sourceIndex.lookup e.key with
  | some idx =>
    refine ⟨fun key hkey ↦ ?_, fun key idx' hkey ↦ ?_, ?_⟩
    · rw [forall_mem_append, forall_mem_singleton]
      refine ⟨h.absent key hkey, ?_⟩
      rintro rfl
      cases hidx.symm.trans hkey
    · obtain ⟨f, hf, hbat⟩ := h.present key idx' hkey
      exact ⟨f, by rw [find?_append, hf, some_or], hbat⟩
    · simp [h.indices_eq, hidx]
  | none =>
    have hself : ((e.key, t.sources.length) :: t.sourceIndex).lookup e.key =
        some t.sources.length := lookup_cons_self
    have hoth {key : κ} (hne : key ≠ e.key) :
        ((e.key, t.sources.length) :: t.sourceIndex).lookup key = t.sourceIndex.lookup key :=
      KWayMerge.lookup_cons_of_ne hne
    refine ⟨fun key hkey ↦ ?_, fun key idx hkey ↦ ?_, ?_⟩
    · have hne : key ≠ e.key := by
        rintro rfl
        cases hself.symm.trans hkey
      rw [forall_mem_append, forall_mem_singleton]
      exact ⟨h.absent key ((hoth hne).symm.trans hkey), hne.symm⟩
    · by_cases hne : key = e.key
      · subst hne
        cases hself.symm.trans hkey
        have hnone : entries.find? (fun f ↦ f.key = e.key) = none := by
          simpa using h.absent _ hidx
        refine ⟨e, ?_, by simp⟩
        rw [find?_append, hnone, none_or]
        simp
      · obtain ⟨f, hf, hbat⟩ := h.present key idx ((hoth hne).symm.trans hkey)
        refine ⟨f, by rw [find?_append, hf, some_or], ?_⟩
        simp only
        rw [getElem?_append_left (List.getElem?_eq_some_iff.mp hbat).1, hbat]
    · simp only
      rw [map_append, map_singleton, hself, getD_some, h.indices_eq]
      congr 1
      refine map_congr_left fun f hf ↦ ?_
      rw [hoth (h.absent _ hidx f hf)]

end Table

/-- The row that an entry finds: in the first batch with its key, at its position. -/
def resolve (entries : List (Entry κ α)) (e : Entry κ α) : Option α :=
  (entries.find? fun f ↦ f.key = e.key).bind fun f ↦ f.batch[e.row]?

variable {entries : List (Entry κ α)}

/-- **What a table looks up.** -/
theorem Table.Holds.map_rowAt {t : Table κ α} (h : t.Holds entries) :
    t.indices.map (rowAt t.sources) = entries.map (resolve entries) := by
  rw [h.indices_eq, List.map_map]
  refine map_congr_left fun e he ↦ ?_
  cases hidx : t.sourceIndex.lookup e.key with
  | none => exact absurd rfl (h.absent _ hidx e he)
  | some idx =>
    obtain ⟨_, hf, hbat⟩ := h.present _ _ hidx
    simp only [Function.comp_apply, rowAt, hidx, getD_some, hbat, resolve, hf, bind_some]

/-- A key that belongs to one batch leads to it. -/
theorem resolve_eq {e : Entry κ α} (he : e ∈ entries)
    (hkey : ∀ f ∈ entries, f.key = e.key → f.batch = e.batch) :
    resolve entries e = e.batch[e.row]? := by
  obtain ⟨f, hf⟩ : ∃ f, entries.find? (fun f ↦ f.key = e.key) = some f :=
    isSome_iff_exists.mp (find?_isSome.mpr ⟨e, he, by simp⟩)
  have hfkey : f.key = e.key := by simpa using find?_some hf
  rw [resolve, hf, bind_some, hkey f (mem_of_find?_eq_some hf) hfkey]

end Gather
