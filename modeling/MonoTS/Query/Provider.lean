import MonoTS.Compaction.FlushPlan

/-!
# The layers of a scan

`LsmTableProvider::scan` turns the memtables and the SSTs of a table into layers, newest first, and
merges them by priority: for every timestamp the row of the newest layer that has it. The SSTs are
ordered by `(base_lsn, max_lsn)`, with the largest LSNs first; those whose time range lies outside
the range the query asks for are skipped.

The row a scan returns for a timestamp is `newestRow` of the SSTs, unless a memtable has one
(`scan_lookup`). As long as no two files have the same bounds, it does not depend on the order of
the index (`newestRow_of_isNewest`). The layer of a memtable filters the chunks before it sorts
them, which changes nothing where the sorting is right (`scan_eq_filter`).
-/

open List

namespace MonoTS

open KWayMerge

variable {ρ : Type*}

/-! ## Time ranges -/

/-- A range of timestamps, open where there is no bound. -/
structure TimeRange where
  minTs : Option ℤ
  maxTs : Option ℤ
  deriving DecidableEq, Repr

namespace TimeRange

variable (range : TimeRange)

def overlaps (fileMin fileMax : ℤ) : Bool :=
  range.minTs.all (fun min ↦ min ≤ fileMax) && range.maxTs.all fun max ↦ fileMin ≤ max

/-- The predicate that is pushed down to the layers. -/
def contains (ts : ℤ) : Bool :=
  range.minTs.all (fun min ↦ min ≤ ts) && range.maxTs.all fun max ↦ ts ≤ max

theorem overlaps_of_contains {range : TimeRange} {fileMin fileMax ts : ℤ}
    (h : range.contains ts = true) (hmin : fileMin ≤ ts) (hmax : ts ≤ fileMax) :
    range.overlaps fileMin fileMax = true := by
  obtain ⟨_ | _, _ | _⟩ := range <;> simp [contains, overlaps] at h ⊢ <;> omega

end TimeRange

namespace SortedRows

theorem rowAt_eq_some_iff {s : SortedRows ρ} {ts : ℤ} {r : ρ} :
    s.rowAt ts = some r ↔ (ts, r) ∈ s.rows :=
  lookup_eq_some_iff_mem s.sorted

/-- The rows within a time range. -/
def restrict (range : TimeRange) (s : SortedRows ρ) : SortedRows ρ where
  rows := s.rows.filter fun x ↦ range.contains x.1
  sorted := s.sorted.filter _

theorem restrict_rowAt {range : TimeRange} {s : SortedRows ρ} {ts : ℤ} :
    (s.restrict range).rowAt ts = if range.contains ts then s.rowAt ts else none :=
  lookup_filter

end SortedRows

open SortedRows

/-! ## The layer of a memtable -/

variable (range : TimeRange) (chunks : List (RowBatch ρ))

/-- The chunks with their rows in the range. A chunk that is left without rows changes nothing. -/
def filterChunks : List (RowBatch ρ) :=
  chunks.map (filter fun x ↦ range.contains x.1)

/-- What `MemTableScanExec` returns: chunks that are strictly ordered are filtered one by one; the
others are filtered first, and then sorted and deduplicated. -/
def memTableScan : RowBatch ρ :=
  if chunksStrictlyOrdered chunks then (filterChunks range chunks).flatten
  else (prepareScanBatches (filterChunks range chunks)).flatten

/-- The chunks of a memtable of which `prepareScanBatches` gets the newest rows right, whatever the
range is. -/
structure MemTableChunks (ρ : Type*) where
  chunks : List (RowBatch ρ)
  inOrder : ∀ range, batchesAreTimeOrdered (nonEmptyBatches (filterChunks range chunks)) = true →
    InOrder (nonEmptyBatches (filterChunks range chunks))
  fit : ∀ range, Concatenates (filterChunks range chunks) →
    IndicesFit (filterChunks range chunks).flatten

namespace MemTableChunks

theorem memTableScan_isNewest (m : MemTableChunks ρ) (range : TimeRange) :
    NewestWins.IsNewest (memTableScan range m.chunks)
      (m.chunks.flatten.filter fun x ↦ range.contains x.1) := by
  rw [filter_flatten, memTableScan]
  split_ifs with h
  · rw [filterChunks, ← filter_flatten]
    exact NewestWins.isNewest_of_perm (.refl _) ((chunksStrictlyOrdered_eq_true_iff.mp h).filter _)
  · exact prepareScanBatches_isNewest (m.inOrder range) (m.fit range)

variable (range : TimeRange)

/-- The layer of the memtable in a scan of the range. -/
def layer (m : MemTableChunks ρ) : SortedRows ρ :=
  ⟨memTableScan range m.chunks, (m.memTableScan_isNewest range).sorted⟩

theorem layer_eq_restrict : (layer range : _ → SortedRows ρ) = restrict range ∘ layer ⟨none, none⟩ := by
  funext m
  rw [Function.comp_apply, layer, restrict]
  congr 1
  have h := m.memTableScan_isNewest ⟨none, none⟩
  rw [filter_eq_self.mpr (by simp [TimeRange.contains])] at h
  exact (m.memTableScan_isNewest range).unique h.filter

end MemTableChunks

/-! ## The scan -/

namespace SstFile

/-- The sort key of the SST layers. -/
def lsnKey (f : SstFile ρ) : ℕ ×ₗ ℕ := toLex (f.baseLsn, f.maxLsn)

variable {f g : SstFile ρ}

theorem bounds_of_lsnKey_eq (h : f.lsnKey = g.lsnKey) :
    f.baseLsn = g.baseLsn ∧ f.maxLsn = g.maxLsn :=
  Prod.ext_iff.mp (toLex.injective h)

theorem lsnKey_lt_of_baseLsn_lt (h : f.baseLsn < g.baseLsn) : f.lsnKey < g.lsnKey :=
  Prod.Lex.toLex_lt_toLex.mpr (.inl h)

theorem baseLsn_le_of_lsnKey_le (h : f.lsnKey ≤ g.lsnKey) : f.baseLsn ≤ g.baseLsn := by
  by_contra hlt
  exact h.not_gt (lsnKey_lt_of_baseLsn_lt (not_le.mp hlt))

end SstFile

/-- The SSTs in the order of the layers, newest first. -/
def newestFirst (files : List (SstFile ρ)) : List (SstFile ρ) :=
  (files.insertionSort fun a b ↦ a.lsnKey ≤ b.lsnKey).reverse

variable (range : TimeRange) (mems : List (SortedRows ρ)) (files : List (SstFile ρ))

/-- The layers, newest first: the rows that the layers of the memtables return, which look at the
range themselves, and the SSTs that overlap it. -/
def scanLayers : List (SortedRows ρ) :=
  mems ++ ((newestFirst files).filter fun f ↦ range.overlaps f.minTs f.maxTs).map fun f ↦
      f.toSortedRows.restrict range

/-- The rows the scan returns. A single layer is returned as it is; several go through the merge,
where the layer with the smallest number has the highest priority. -/
def scan : List (ℤ × ρ) :=
  match scanLayers range mems files with
  | [] => []
  | [layer] => layer.rows
  | layers =>
    mergeSources (layers.zipIdx.map fun (layer, i) ↦ (OrderDual.toDual i, layer.rows))

variable (ts : ℤ)

/-- The newest row the SSTs have for a timestamp. -/
def newestRow : Option ρ :=
  (newestFirst files).findSome? fun f ↦ f.rowAt ts

/-! ## What a scan returns -/

theorem mergeLayers_lookup (layers : List (SortedRows ρ)) (ts : ℤ) :
    (mergeSources (layers.zipIdx.map fun (layer, i) ↦
      (OrderDual.toDual i, layer.rows))).lookup ts = layers.findSome? fun l ↦ l.rowAt ts := by
  rw [lookup_mergeSources_of_decreasing, findSome?_map]
  · nth_rewrite 2 [← zipIdx_map_fst 0 layers]
    rw [findSome?_map]
    rfl
  · intro s hs
    obtain ⟨⟨layer, _⟩, -, rfl⟩ := mem_map.mp hs
    exact layer.sorted.imp fun h ↦ h.le
  · have h : (layers.zipIdx.map Prod.snd).Pairwise (· < ·) := by
      rw [zipIdx_map_snd]
      exact pairwise_lt_range'
    exact pairwise_map.mpr ((pairwise_map.mp h).imp fun h ↦ h)

theorem scan_lookup_layers : (scan range mems files).lookup ts =
      (scanLayers range mems files).findSome? fun l ↦ l.rowAt ts := by
  rw [scan]
  split
  · next h => rw [h]; rfl
  · next layer h =>
    rw [h, findSome?_cons, rowAt]
    cases layer.rows.lookup ts <;> rfl
  · next h => exact mergeLayers_lookup _ ts

theorem findSome?_filter {α β : Type*} {p : α → Bool} {f g : α → Option β} {l : List α}
    (h : ∀ x, (if p x then f x else none) = g x) : (l.filter p).findSome? f = l.findSome? g := by
  induction l with
  | nil => rfl
  | cons x l ih =>
    have hx := h x
    rw [filter_cons, findSome?_cons (f := g), ← hx]
    split
    · rw [findSome?_cons, ih]
    · rw [ih]

theorem findSome?_ite {α β : Type*} {p : Prop} [Decidable p] {f : α → Option β} {l : List α} :
    l.findSome? (fun x ↦ if p then f x else none) = if p then l.findSome? f else none := by
  split
  · rfl
  · exact findSome?_eq_none_iff.mpr fun _ _ ↦ rfl

/-- **The row of a scan**: the one of the newest memtable that has the timestamp, or else the newest
row of the SSTs. -/
theorem scan_lookup : (scan range mems files).lookup ts = (mems.findSome? fun m ↦ m.rowAt ts).or
        (if range.contains ts then newestRow files ts else none) := by
  rw [scan_lookup_layers, scanLayers, findSome?_append, findSome?_map]
  have hfs : ∀ f : SstFile ρ, (if range.overlaps f.minTs f.maxTs = true then
      (f.toSortedRows.restrict range).rowAt ts else none) =
        if range.contains ts then f.rowAt ts else none := by
    intro f
    rw [restrict_rowAt]
    split
    · rfl
    · next hover =>
      split
      · next hts =>
        refine (Option.eq_none_iff_forall_ne_some.mpr fun r hr ↦ hover ?_).symm
        obtain ⟨hmin, hmax⟩ := f.bounded _ (rowAt_eq_some_iff.mp hr)
        exact TimeRange.overlaps_of_contains hts hmin hmax
      · rfl
  exact congrArg (Option.or _) ((findSome?_filter hfs).trans findSome?_ite)

theorem scan_sorted : (scan range mems files).Pairwise (·.1 < ·.1) := by
  rw [scan]
  split
  · exact .nil
  · exact sorted _
  · refine mergeSources_sorted (forall_mem_map.mpr fun s _ ↦ s.1.sorted.imp le_of_lt) ?_
    rw [List.map_map]
    exact (zipIdx_map_snd 0 _ ▸ nodup_range' : Nodup _)

variable {files : List (SstFile ρ)}

theorem mem_newestFirst {f : SstFile ρ} : f ∈ newestFirst files ↔ f ∈ files := by
  rw [newestFirst, mem_reverse, mem_insertionSort]

theorem newestFirst_sorted (files : List (SstFile ρ)) :
    (newestFirst files).Pairwise fun a b ↦ b.lsnKey ≤ a.lsnKey :=
  pairwise_reverse.mpr (pairwise_insertionSort _ _)

theorem newestRow_eq_none_iff {ts : ℤ} :
    newestRow files ts = none ↔ ∀ f ∈ files, f.rowAt ts = none := by
  simp only [newestRow, findSome?_eq_none_iff, mem_newestFirst]

/-- The file has a row for the timestamp that no file with larger LSNs has. -/
structure IsNewest (files : List (SstFile ρ)) (ts : ℤ) (f : SstFile ρ) : Prop where
  mem : f ∈ files
  holds : f.rowAt ts ≠ none
  le_key : ∀ g ∈ files, g.rowAt ts ≠ none → g.lsnKey ≤ f.lsnKey

theorem exists_isNewest {ts : ℤ} {r : ρ} (h : newestRow files ts = some r) :
    ∃ f, IsNewest files ts f ∧ f.rowAt ts = some r := by
  obtain ⟨l₁, f, l₂, hsplit, hr, hnone⟩ := findSome?_eq_some_iff.mp h
  have hmem {g : SstFile ρ} : g ∈ files ↔ g ∈ l₁ ++ f :: l₂ := hsplit ▸ mem_newestFirst.symm
  have hsort := hsplit ▸ newestFirst_sorted files
  refine ⟨f, ⟨hmem.mpr (by simp), by simp [hr], fun g hg hhold ↦ ?_⟩, hr⟩
  rcases mem_append.mp (hmem.mp hg) with hg | hg
  · exact absurd (hnone g hg) hhold
  · rcases mem_cons.mp hg with rfl | hg
    · exact le_rfl
    · exact (pairwise_cons.mp (pairwise_append.mp hsort).2.1).1 g hg

/-- **The newest row is the one of the file with the largest LSN bounds** among those that have the
timestamp, if the bounds tell the files apart. -/
theorem newestRow_of_isNewest {ts : ℤ} {f : SstFile ρ}
    (hkeys : ∀ f ∈ files, ∀ g ∈ files, f.lsnKey = g.lsnKey → f = g) (h : IsNewest files ts f) :
    newestRow files ts = f.rowAt ts := by
  cases hrow : newestRow files ts with
  | none => exact absurd (newestRow_eq_none_iff.mp hrow f h.mem) h.holds
  | some r =>
    obtain ⟨g, hg, hr⟩ := exists_isNewest hrow
    have heq : g.lsnKey = f.lsnKey :=
      (h.le_key g hg.mem hg.holds).antisymm (hg.le_key f h.mem h.holds)
    rw [← hkeys g hg.mem f h.mem heq, hr]

end MonoTS
