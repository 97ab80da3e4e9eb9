import MonoTS.Lib.KWayMerge
import MonoTS.Compaction.FileIndex

/-!
# Merging a run of files

`merge_files` streams the rows of its inputs through a heap keyed by timestamp and by the position
of the file in the run, and writes each timestamp once. On equal timestamps the file that is later
in the run wins. A cursor that reads a file batch by batch is a list of rows here, and the output
windows are not modelled: they are written one after the other into one file. A failing read or
write is left to the caller, which gives up the pass.
-/

open List

namespace MonoTS

variable {ρ : Type*}

/-! ## The rows -/

/-- The merge of the inputs' rows; the index of an input in the run is its priority. -/
def mergeRows (inputs : List (List (ℤ × ρ))) : List (ℤ × ρ) :=
  KWayMerge.mergeSources (inputs.zipIdx.map fun (rows, idx) ↦ (idx, rows))

theorem zipIdx_increasing {α : Type*} (l : List α) :
    (l.zipIdx.map fun (x, i) ↦ (i, x)).Pairwise fun a b ↦ a.1 < b.1 := by
  have h : (l.zipIdx.map Prod.snd).Pairwise (· < ·) := by
    rw [zipIdx_map_snd]
    exact pairwise_lt_range'
  exact pairwise_map.mpr (pairwise_map.mp h)

section

variable {inputs : List (List (ℤ × ρ))} (hsorted : ∀ rows ∈ inputs, rows.Pairwise (·.1 ≤ ·.1))

include hsorted

theorem sources_sorted :
    ∀ s ∈ inputs.zipIdx.map fun (rows, idx) ↦ (idx, rows), s.2.Pairwise (·.1 ≤ ·.1) := by
  intro s hs
  obtain ⟨⟨rows, _⟩, hmem, rfl⟩ := mem_map.mp hs
  exact hsorted rows (fst_mem_of_mem_zipIdx hmem)

theorem mergeRows_sorted : (mergeRows inputs).Pairwise (·.1 < ·.1) :=
  KWayMerge.mergeSources_sorted (sources_sorted hsorted)
    (pairwise_map.mpr ((zipIdx_increasing inputs).imp fun h ↦ h.ne))

/-- **The merge keeps the row of the last input that has the timestamp.** -/
theorem mergeRows_lookup (ts : ℤ) :
    (mergeRows inputs).lookup ts = inputs.reverse.findSome? fun rows ↦ rows.lookup ts := by
  rw [mergeRows, KWayMerge.lookup_mergeSources_of_increasing (sources_sorted hsorted)
    (zipIdx_increasing inputs), ← map_reverse, findSome?_map]
  nth_rewrite 2 [← zipIdx_map_fst 0 inputs]
  rw [← map_reverse, findSome?_map]
  rfl

end

/-! ## The merged file -/

def i64Max : ℤ := 2 ^ 63 - 1

def i64Min : ℤ := -2 ^ 63

theorem le_foldl_max (a : ℤ) (xs : List ℤ) : a ≤ xs.foldl max a ∧ ∀ x ∈ xs, x ≤ xs.foldl max a :=
  foldl_min_le (α := ℤᵒᵈ) a xs

/-- The identity of the merged file. -/
def mergedIdentity (nowMs : ℤ) (files : List (SstFile ρ)) : SstIdentity :=
  .afterInnerMergeRun nowMs (files.map fun f ↦ f.identity)

variable {files : List (SstFile ρ)}

theorem mergedIdentity_minLsn (nowMs : ℤ) (h : files ≠ []) :
    (∃ f ∈ files, (mergedIdentity nowMs files).minLsn = f.baseLsn) ∧
      ∀ f ∈ files, (mergedIdentity nowMs files).minLsn ≤ f.baseLsn := by
  have hlsn (f : SstFile ρ) : f.identity.minLsn = f.baseLsn := (SstMeta.identity_lsn f.span_le).1
  have hids : files.map (fun f ↦ f.identity) ≠ [] := by simpa using h
  obtain ⟨⟨_, hid, hmin⟩, hle⟩ := SstIdentity.afterInnerMergeRun_minLsn nowMs hids
  obtain ⟨f, hf, rfl⟩ := mem_map.mp hid
  refine ⟨⟨f, hf, hmin.trans (hlsn f)⟩, fun g hg ↦ ?_⟩
  exact (hle _ (mem_map_of_mem hg)).trans_eq (hlsn g)

theorem mergedIdentity_maxLsn (nowMs : ℤ) (h : files ≠ []) :
    ∀ f ∈ files, f.maxLsn ≤ (mergedIdentity nowMs files).maxLsn := by
  intro f hf
  have hids : files.map (fun f ↦ f.identity) ≠ [] := by simpa using h
  have hge := (SstIdentity.afterInnerMergeRun_maxLsn nowMs hids).2 _ (mem_map_of_mem hf)
  exact (SstMeta.identity_lsn f.span_le).2.symm.trans_le hge

theorem mergedIdentity_le (nowMs : ℤ) (files : List (SstFile ρ)) :
    (mergedIdentity nowMs files).minLsn ≤ (mergedIdentity nowMs files).maxLsn := by
  cases files with
  | nil => exact le_rfl
  | cons f files =>
    have hne : f :: files ≠ [] := cons_ne_nil _ _
    exact ((mergedIdentity_minLsn nowMs hne).2 f mem_cons_self).trans
      (f.span_le.trans (mergedIdentity_maxLsn nowMs hne f mem_cons_self))

/-- The file that `write_sst_streaming` and the promotion out of the staging directory leave. -/
def mergedFile (dataDir : String) (nowMs : ℤ) (fileSize : ℕ) (files : List (SstFile ρ)) :
    SstFile ρ where
  toSstMeta :=
    let rows := mergeRows (files.map fun f ↦ f.rows)
    let id := mergedIdentity nowMs files
    .fromIdentity id (dataDir ++ "/" ++ id.filename) ((rows.map Prod.fst).foldl min i64Max)
      ((rows.map Prod.fst).foldl max i64Min) rows.length fileSize
  rows := mergeRows (files.map fun f ↦ f.rows)
  sorted := mergeRows_sorted (by simpa using fun f _ ↦ f.sorted.imp fun h ↦ h.le)
  bounded x hx := ⟨(foldl_min_le _ _).2 _ (mem_map.mpr ⟨x, hx, rfl⟩),
    (le_foldl_max _ _).2 _ (mem_map.mpr ⟨x, hx, rfl⟩)⟩
  span_le := mergedIdentity_le nowMs files

/-- Merge the run. `nowMs` is the clock, `fileSize` the size of the written file. -/
def mergeFiles (dataDir : String) (nowMs : ℤ) (fileSize : ℕ) (files : List (SstFile ρ)) :
    Result (SstFile ρ) :=
  if files.length < 2 then .error (.storage "compaction requires at least two files")
  else if (mergeRows (files.map fun f ↦ f.rows)).isEmpty then .error (.storage "empty merge result")
  else .ok (mergedFile dataDir nowMs fileSize files)

section

variable {dataDir : String} {nowMs : ℤ} {fileSize : ℕ}
variable {files : List (SstFile ρ)} {merged : SstFile ρ}

theorem mergeFiles_ok (h : mergeFiles dataDir nowMs fileSize files = .ok merged) :
    2 ≤ files.length ∧ merged = mergedFile dataDir nowMs fileSize files := by
  rw [mergeFiles] at h
  split at h
  · cases h
  · next hlen =>
    split at h
    · cases h
    · cases h
      exact ⟨not_lt.mp hlen, rfl⟩

/-- **The merged file has, for every timestamp, the row of the last input that has it.** -/
theorem mergedFile_rowAt (ts : ℤ) : (mergedFile dataDir nowMs fileSize files).rowAt ts =
    files.reverse.findSome? fun f ↦ f.rowAt ts := by
  have hsorted : ∀ rows ∈ files.map fun f ↦ f.rows, rows.Pairwise (·.1 ≤ ·.1) := by
    simpa using fun f _ ↦ f.sorted.imp fun h ↦ h.le
  have h := mergeRows_lookup hsorted ts
  rwa [← map_reverse, findSome?_map] at h

theorem mergedFile_baseLsn (h : files ≠ []) :
    (∃ f ∈ files, (mergedFile dataDir nowMs fileSize files).baseLsn = f.baseLsn) ∧
      ∀ f ∈ files, (mergedFile dataDir nowMs fileSize files).baseLsn ≤ f.baseLsn :=
  mergedIdentity_minLsn nowMs h

theorem mergedFile_maxLsn (h : files ≠ []) :
    ∀ f ∈ files, f.maxLsn ≤ (mergedFile dataDir nowMs fileSize files).maxLsn :=
  mergedIdentity_maxLsn nowMs h

end

end MonoTS
