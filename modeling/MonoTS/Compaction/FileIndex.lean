import MonoTS.Common

/-!
# SST files and the file index

The metadata of an SST and the index a table keeps of its files. The index is a list in the order of
the smallest timestamps: `insert` looks up a place for a new file by binary search, and a compaction
replaces a run of neighbouring files, which it addresses by position.

For statements about what a query returns, a file comes with its rows. What the writers guarantee of
a file that gets into the index is part of its type: the timestamps are strictly increasing and
within the bounds of the metadata, and the LSN span is not inverted (`SstMeta::validate`).
-/

open List

namespace MonoTS

/-! ## Identity and metadata -/

/-- What the name of an SST file says. -/
structure SstIdentity where
  creationTimeMs : ℤ
  minLsn : ℕ
  maxLsn : ℕ
  innerCompactionCount : ℕ
  crossCompactionCount : ℕ
  deriving DecidableEq, Repr

namespace SstIdentity

def fromParts (creationTimeMs : ℤ) (minLsn maxLsn innerCompactionCount crossCompactionCount : ℕ) :
    SstIdentity :=
  if minLsn ≤ maxLsn then
    ⟨creationTimeMs, minLsn, maxLsn, innerCompactionCount, crossCompactionCount⟩
  else ⟨creationTimeMs, maxLsn, minLsn, innerCompactionCount, crossCompactionCount⟩

def freshFlush (nowMs : ℤ) (minLsn maxLsn : ℕ) : SstIdentity := fromParts nowMs minLsn maxLsn 0 0

/-- The identity of the file a run is merged into: the LSN range of all inputs, one compaction
generation above the highest of them. -/
def afterInnerMergeRun (nowMs : ℤ) (ids : List SstIdentity) : SstIdentity :=
  if ids.isEmpty then freshFlush nowMs 0 0
  else
    { creationTimeMs := nowMs
      minLsn := (ids.map minLsn).min?.getD 0
      maxLsn := (ids.map maxLsn).max?.getD 0
      -- `saturating_add(1)` on `u32`.
      innerCompactionCount :=
        min ((ids.map innerCompactionCount).max?.getD 0 + 1) (2 ^ 32 - 1)
      crossCompactionCount := (ids.map crossCompactionCount).max?.getD 0 }

variable {ids : List SstIdentity}

theorem afterInnerMergeRun_minLsn (nowMs : ℤ) (h : ids ≠ []) :
    (∃ id ∈ ids, (afterInnerMergeRun nowMs ids).minLsn = id.minLsn) ∧
      ∀ id ∈ ids, (afterInnerMergeRun nowMs ids).minLsn ≤ id.minLsn := by
  obtain ⟨m, hm⟩ := Option.isSome_iff_exists.mp
    (isSome_min?_of_ne_nil (l := ids.map minLsn) (by simpa using h))
  obtain ⟨hmem, hle⟩ := min?_eq_some_iff.mp hm
  have hmin : (afterInnerMergeRun nowMs ids).minLsn = m := by
    rw [afterInnerMergeRun, if_neg (by simpa using h), hm, Option.getD_some]
  obtain ⟨id, hid, rfl⟩ := mem_map.mp hmem
  rw [hmin]
  exact ⟨⟨id, hid, rfl⟩, fun id' hid' ↦ hle _ (mem_map_of_mem hid')⟩

theorem afterInnerMergeRun_maxLsn (nowMs : ℤ) (h : ids ≠ []) :
    (∃ id ∈ ids, (afterInnerMergeRun nowMs ids).maxLsn = id.maxLsn) ∧
      ∀ id ∈ ids, id.maxLsn ≤ (afterInnerMergeRun nowMs ids).maxLsn := by
  obtain ⟨m, hm⟩ := Option.isSome_iff_exists.mp
    (isSome_max?_of_ne_nil (l := ids.map maxLsn) (by simpa using h))
  obtain ⟨hmem, hle⟩ := max?_eq_some_iff.mp hm
  have hmax : (afterInnerMergeRun nowMs ids).maxLsn = m := by
    rw [afterInnerMergeRun, if_neg (by simpa using h), hm, Option.getD_some]
  obtain ⟨id, hid, rfl⟩ := mem_map.mp hmem
  rw [hmax]
  exact ⟨⟨id, hid, rfl⟩, fun id' hid' ↦ hle _ (mem_map_of_mem hid')⟩

def filename (id : SstIdentity) : String :=
  toString id.creationTimeMs ++ "-" ++ toString id.minLsn ++ "-" ++ toString id.maxLsn ++ "-" ++
    toString id.innerCompactionCount ++ "-" ++ toString id.crossCompactionCount ++ ".parquet"

end SstIdentity

/-- What the index knows of an SST. -/
structure SstMeta where
  filePath : String
  minTs : ℤ
  maxTs : ℤ
  rowCount : ℕ
  fileSize : ℕ
  creationTimeMs : ℤ
  innerCompactionCount : ℕ
  crossCompactionCount : ℕ
  baseLsn : ℕ
  maxLsn : ℕ
  deriving DecidableEq, Repr

namespace SstMeta

def fromIdentity (id : SstIdentity) (filePath : String) (minTs maxTs : ℤ) (rowCount fileSize : ℕ) :
    SstMeta :=
  ⟨filePath, minTs, maxTs, rowCount, fileSize, id.creationTimeMs, id.innerCompactionCount,
    id.crossCompactionCount, id.minLsn, id.maxLsn⟩

def identity (m : SstMeta) : SstIdentity :=
  .fromParts m.creationTimeMs m.baseLsn m.maxLsn m.innerCompactionCount m.crossCompactionCount

def hasLsnBounds (m : SstMeta) : Bool := 0 < m.baseLsn ∨ 0 < m.maxLsn

theorem identity_lsn {m : SstMeta} (h : m.baseLsn ≤ m.maxLsn) :
    m.identity.minLsn = m.baseLsn ∧ m.identity.maxLsn = m.maxLsn := by
  rw [identity, SstIdentity.fromParts, if_pos h]
  exact ⟨rfl, rfl⟩

/-- The metadata is determined by the name of the file, its path, size, time bounds and row count.
-/
theorem fromIdentity_identity {m : SstMeta} (h : m.baseLsn ≤ m.maxLsn) :
    fromIdentity m.identity m.filePath m.minTs m.maxTs m.rowCount m.fileSize = m := by
  rw [identity, SstIdentity.fromParts, if_pos h]
  rfl

end SstMeta

/-! ## Files with their rows -/

variable {ρ : Type*}

/-- Rows by timestamp, at most one for each. -/
structure SortedRows (ρ : Type*) where
  rows : List (ℤ × ρ)
  sorted : rows.Pairwise (·.1 < ·.1)
  deriving DecidableEq

/-- The row for a timestamp. -/
def SortedRows.rowAt (s : SortedRows ρ) (ts : ℤ) : Option ρ := s.rows.lookup ts

/-- An SST in the index with the rows of the file. -/
structure SstFile (ρ : Type*) extends SstMeta, SortedRows ρ where
  bounded : ∀ x ∈ rows, minTs ≤ x.1 ∧ x.1 ≤ maxTs
  span_le : baseLsn ≤ maxLsn
  deriving DecidableEq

/-- A file of two rows, as the flush of a single write leaves it. -/
def sampleFile (lsn : ℕ) (first second : ℤ × ℕ) (h : first.1 < second.1) : SstFile ℕ where
  filePath := "t/" ++ (SstIdentity.freshFlush 0 lsn lsn).filename
  minTs := first.1
  maxTs := second.1
  rowCount := 2
  fileSize := 10
  creationTimeMs := 0
  innerCompactionCount := 0
  crossCompactionCount := 0
  baseLsn := lsn
  maxLsn := lsn
  rows := [first, second]
  sorted := by simpa using h
  bounded := by simpa using h.le
  span_le := le_rfl

/-! ## The index -/

/-- `binary_search_by_key` of the standard library, with the place of a match and the place to
insert at taken together (`unwrap_or_else(|e| e)`). Which of several matches is found is not
specified; all that is used is that the place is one to insert at. -/
structure BinarySearch where
  position : List ℤ → ℤ → ℕ
  position_le : ∀ keys key, position keys key ≤ keys.length

namespace FileIndex

variable {α : Type*} (search : BinarySearch) (files : List (SstFile ρ)) (file : SstFile ρ)

def insert : List (SstFile ρ) :=
  files.insertIdx (search.position (files.map fun f ↦ f.minTs) file.minTs) file

/-- The index of a reopened table. -/
def fromPersisted : List (SstFile ρ) :=
  files.insertionSort fun a b ↦ a.minTs ≤ b.minTs

/-- `for _ in 0..count { if start < files.len() { files.remove(start) } }` -/
def removeFrom (start : ℕ) : ℕ → List α → List α
  | 0, files => files
  | count + 1, files =>
    removeFrom start count (if start < files.length then files.eraseIdx start else files)

variable (start count : ℕ)

/-- Replace `count` files from `start` on. `Vec::insert` panics beyond the end of the list. -/
def replaceRange (replacement : α) (files : List α) : Option (List α) :=
  if start ≤ (removeFrom start count files).length then
    some ((removeFrom start count files).insertIdx start replacement)
  else none

theorem insert_perm : (insert search files file).Perm (file :: files) := by
  refine perm_insertIdx _ _ ?_
  rw [← length_map fun f : SstFile ρ ↦ f.minTs]
  exact search.position_le _ _

theorem mem_insert {search : BinarySearch} {files : List (SstFile ρ)} {file f : SstFile ρ} :
    f ∈ insert search files file ↔ f = file ∨ f ∈ files :=
  (insert_perm search files file).mem_iff.trans mem_cons

theorem removeFrom_eq (files : List α) :
    removeFrom start count files = files.take start ++ files.drop (start + count) := by
  induction count generalizing files with
  | zero => exact (take_append_drop start files).symm
  | succ count ih =>
    rw [removeFrom, ih]
    split
    · next h =>
      rw [eraseIdx_eq_take_drop_succ, take_append_of_le_length (by simp; omega),
        take_take, min_self, drop_append, length_take, min_eq_left h.le,
        drop_eq_nil_of_le (by simp), nil_append, drop_drop]
      congr 2
      omega
    · next h =>
      rw [drop_eq_nil_of_le (by omega), drop_eq_nil_of_le (by omega)]

theorem insertIdx_length_append (xs ys : List α) (a : α) :
    (xs ++ ys).insertIdx xs.length a = xs ++ a :: ys := by
  induction xs with
  | nil => rfl
  | cons x xs ih => exact congrArg (x :: ·) ih

theorem replaceRange_eq {start count : ℕ} {replacement : α} {files : List α}
    (h : start ≤ files.length) :
    replaceRange start count replacement files =
      some (files.take start ++ replacement :: files.drop (start + count)) := by
  have hlen : (files.take start).length = start := by simpa using h
  rw [replaceRange, removeFrom_eq, if_pos (by rw [length_append]; omega)]
  simpa only [hlen] using
    congrArg some
      (insertIdx_length_append (files.take start) (files.drop (start + count)) replacement)

end FileIndex

end MonoTS
