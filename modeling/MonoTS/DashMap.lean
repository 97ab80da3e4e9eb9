import Mathlib

/-!
# Concurrent maps

A `DashMap` or `HashMap` of the source that is keyed by strings, as an association list with unique
keys. Each method of the source is one step; the maps are compared by their lookups.
-/

namespace MonoTS

/-- A `DashMap` from table names. -/
abbrev DashMap (V : Type) := AList fun _ : String ↦ V

/-- `map.entry(key).or_default()`. -/
def DashMap.orDefault {V : Type} (map : DashMap V) (key : String) (default : V) : DashMap V :=
  match map.lookup key with
  | some _ => map
  | none => map.insert key default

theorem DashMap.lookup_orDefault {V : Type} (map : DashMap V) (key : String) (d : V)
    (table : String) :
    (map.orDefault key d).lookup table
      = if table = key then some ((map.lookup table).getD d) else map.lookup table := by
  rw [DashMap.orDefault]
  split_ifs with h
  · subst h
    rcases hv : map.lookup table with _ | v
    · exact AList.lookup_insert _
    · exact hv
  · rcases map.lookup key with _ | v
    · exact AList.lookup_insert_ne h
    · rfl

end MonoTS
