import Mathlib

/-!
# Paths

A path is a string; where it leads is found by walking its components from the root or from the
working directory. A place is the list of the names on the way from the root, so that one place lies
below another when the other is its beginning. There are no symbolic links.

The two facts that are used: where a joined path leads, and that two trees have a place in common
only if one of them lies in the other.
-/

open List

namespace Path

/-- Where a path leads: the names from the root. -/
abbrev Place := List String

def components (path : String) : List String := (path.toList.splitOn '/').map String.ofList

def isAbsolute (path : String) : Bool := path.toList.head? == some '/'

/-- Walk one component. -/
def enter (dir : Place) (name : String) : Place :=
  if name = "" ∨ name = "." then dir else if name = ".." then dir.dropLast else dir ++ [name]

variable (cwd : Place)

/-- Walk a path from the working directory. -/
def resolve (path : String) : Place :=
  (components path).foldl enter (if isAbsolute path then [] else cwd)

variable (base path : String)

/-- `Path::join`: an absolute path replaces the base. -/
def join : String :=
  if isAbsolute path then path
  else if base.toList = [] ∨ base.toList.getLast? = some '/' then base ++ path
  else base ++ "/" ++ path

theorem components_slash (a b : String) :
    components (a ++ "/" ++ b) = components a ++ components b := by
  have hlist : (a ++ "/" ++ b).toList = a.toList ++ '/' :: b.toList := by
    rw [String.toList_append, String.toList_append, append_assoc]
    rfl
  have hsplit := splitOnP_append_cons a.toList b.toList (p := (· == '/')) (beq_self_eq_true '/')
  rw [components, hlist, List.splitOn, hsplit, map_append]
  rfl

theorem components_name {name : String} (h : '/' ∉ name.toList) : components name = [name] := by
  rw [components, splitOn_eq_singleton h, map_singleton, String.ofList_toList]

theorem components_empty : components "" = [""] := rfl

theorem enter_empty (dir : Place) : enter dir "" = dir := if_pos (Or.inl rfl)

/-- A slash at the end of a path leads nowhere. -/
theorem walk_slash (a : String) (dir : Place) :
    (components (a ++ "/")).foldl enter dir = (components a).foldl enter dir := by
  have h := components_slash a ""
  rw [String.append_empty] at h
  rw [h, foldl_append, components_empty, foldl_cons, enter_empty, foldl_nil]

theorem isAbsolute_append {a b : String} (ha : a.toList ≠ []) :
    isAbsolute (a ++ b) = isAbsolute a := by
  rw [isAbsolute, isAbsolute, String.toList_append, head?_append_of_ne_nil _ ha]

/-- A path that continues another one behind a slash. -/
theorem resolve_append {a base path : String} (hbase : base.toList ≠ [])
    (hpath : ¬isAbsolute path = true) (hwalk : ∀ dir,
      (components base).foldl enter dir = (components a).foldl enter dir)
    {tail : String} (htail : base ++ tail = a ++ "/" ++ path) :
    resolve cwd (base ++ tail) = resolve (resolve cwd base) path := by
  rw [resolve, isAbsolute_append hbase, htail, components_slash, foldl_append, ← hwalk,
    ← resolve, resolve.eq_def (resolve cwd base), if_neg hpath]

/-- Where a joined path leads. -/
theorem resolve_join : resolve cwd (join base path) = resolve (resolve cwd base) path := by
  rw [join]
  by_cases habs : isAbsolute path = true
  · rw [if_pos habs, resolve, resolve, if_pos habs, if_pos habs]
  rw [if_neg habs]
  by_cases hemp : base.toList = []
  · rw [if_pos (.inl hemp), String.toList_eq_nil_iff.mp hemp]
    have hcwd : resolve cwd "" = cwd := enter_empty cwd
    rw [hcwd, String.empty_append]
  by_cases hlast : base.toList.getLast? = some '/'
  · obtain ⟨a, ha⟩ := getLast?_eq_some_iff.mp hlast
    have hbase : base = String.ofList a ++ "/" := by
      rw [← String.toList_inj, ha, String.toList_append, String.toList_ofList]
      rfl
    rw [if_pos (.inr hlast)]
    refine resolve_append cwd hemp habs (a := String.ofList a) (fun dir ↦ ?_) (by rw [← hbase])
    rw [hbase, walk_slash]
  · rw [if_neg (not_or.mpr ⟨hemp, hlast⟩), String.append_assoc]
    exact resolve_append cwd hemp habs (fun _ ↦ rfl) (String.append_assoc ..).symm

/-- A name that is neither empty nor made of dots leads into the directory of that name. -/
theorem resolve_name {name : String} (hslash : '/' ∉ name.toList)
    (hemp : name ≠ "") (hdot : name ≠ ".") (hdots : name ≠ "..") :
    resolve cwd name = cwd ++ [name] := by
  have habs : ¬isAbsolute name = true := by
    rw [isAbsolute, beq_iff_eq]
    exact fun h ↦ hslash (mem_of_mem_head? h)
  rw [resolve, if_neg habs, components_name hslash]
  simp only [foldl_cons, foldl_nil, enter, if_neg (not_or.mpr ⟨hemp, hdot⟩), if_neg hdots]

/-- Two trees have a place in common only if one of them lies in the other. -/
theorem forall_not_below_iff {a b : Place} : (∀ p, ¬(a <+: p ∧ b <+: p)) ↔ ¬a <+: b ∧ ¬b <+: a := by
  constructor
  · intro h
    exact ⟨fun hab ↦ h b ⟨hab, prefix_rfl⟩, fun hba ↦ h a ⟨prefix_rfl, hba⟩⟩
  · rintro ⟨hab, hba⟩ p ⟨ha, hb⟩
    rcases prefix_or_prefix_of_prefix ha hb with h | h
    · exact hab h
    · exact hba h

end Path
