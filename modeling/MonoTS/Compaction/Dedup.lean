import MonoTS.Lib.Gather
import MonoTS.Lib.NewestWins

/-!
# Deduplicating the chunks of a layer

A memtable hands on its rows as a list of chunks, oldest first, in which a timestamp may occur many
times. A scan wants every timestamp once, in order, with the row that was written last. The
reference way is to concatenate the chunks, to sort by timestamp and position and to keep the last
row of every run. `prepare_scan_batches` avoids the concatenation where it can: a single chunk
without duplicates is only sorted, and chunks that follow one another in time are sorted one by one.

Whether they do is read off the first and the last row of each chunk. For a chunk that is not in
order itself these are not its smallest and largest timestamps, so that chunks pass the test whose
ranges overlap. Another limit is in the reference itself, which takes the rows by 32-bit indices.
`prepareScanBatches_exact_iff` says exactly when the result is the right one.

Batches are lists of rows here, and all have the time column; that is an error in the source
otherwise.
-/

open List

namespace MonoTS

open NewestWins

variable {ρ : Type*}

/-- A record batch, row by row: the timestamp and the other columns. -/
abbrev RowBatch (ρ : Type*) := List (ℤ × ρ)

/-- `n as u32` -/
def asU32 (n : ℕ) : ℕ := n % 2 ^ 32

/-! ## The reference -/

/-- The loop over the values with a set of those seen before. -/
def seenTwice : List ℤ → List ℤ → Bool
  | [], _ => false
  | v :: values, seen => if v ∈ seen then true else seenTwice values (v :: seen)

variable (batch : RowBatch ρ)

def batchHasDuplicateTimestamps : Bool :=
  let values := batch.map Prod.fst
  if values.length < 2 then false
  else if values.IsChain (· < ·) then false
  else seenTwice values []

/-- Only used on batches without duplicate timestamps, so that the order of rows with the same
timestamp does not matter. -/
def sortBatchByTimestamp : RowBatch ρ :=
  batch.insertionSort fun x y ↦ x.1 ≤ y.1

/-- The rows at the given positions, all of which are in the batch. -/
def takeBatchByIndices (indices : List ℕ) : RowBatch ρ :=
  indices.filterMap fun i ↦ batch[i]?

variable (merged : RowBatch ρ)

/-- The timestamps with their positions, sorted by both. -/
def sortedOrder : List (ℤ ×ₗ ℕ) :=
  ((merged.map Prod.fst).zipIdx.map toLex).insertionSort (· ≤ ·)

/-- The positions that are kept: the last of every run of equal timestamps. -/
def keptPositions : List ℕ :=
  (lastOfRuns (fun e ↦ (ofLex e).1) (sortedOrder merged)).map fun e ↦ (ofLex e).2

def dedupeSortedBatch : List (RowBatch ρ) :=
  if merged.length = 0 then []
  else if merged.length = 1 then [merged]
  else
    let filtered := takeBatchByIndices merged ((keptPositions merged).map asU32)
    if filtered.isEmpty then [] else [filtered]

variable (batches : List (RowBatch ρ))

/-- The batches that have rows. -/
def nonEmptyBatches : List (RowBatch ρ) :=
  batches.filter fun b ↦ 0 < b.length

def dedupeBatchesNewestWins : List (RowBatch ρ) :=
  match nonEmptyBatches batches with
  | [] => []
  | [batch] =>
    if batchHasDuplicateTimestamps batch = false then [sortBatchByTimestamp batch]
    else dedupeSortedBatch batch
  | nonEmpty => dedupeSortedBatch nonEmpty.flatten

/-! ## The scan -/

/-- The loop of `batches_are_time_ordered`, with the last timestamp of the chunk before. -/
def timeOrderedFrom : Option ℤ → List (RowBatch ρ) → Bool
  | _, [] => true
  | lastTs, [] :: batches => timeOrderedFrom lastTs batches
  | lastTs, (first :: rows) :: batches =>
    if batchHasDuplicateTimestamps (first :: rows) then false
    else
      let chunkLast := (rows.getLastD first).1
      if chunkLast < first.1 then false
      else if lastTs.any fun prev ↦ first.1 ≤ prev then false
      else timeOrderedFrom (some chunkLast) batches

def batchesAreTimeOrdered : Bool := timeOrderedFrom none batches

def prepareScanBatches : List (RowBatch ρ) :=
  match nonEmptyBatches batches with
  | [] => []
  | [batch] =>
    if batchHasDuplicateTimestamps batch then dedupeBatchesNewestWins [batch]
    else [sortBatchByTimestamp batch]
  | nonEmpty =>
    if batchesAreTimeOrdered nonEmpty then nonEmpty.map sortBatchByTimestamp
    else dedupeBatchesNewestWins nonEmpty

/-! ## Duplicates and sorting -/

theorem seenTwice_eq_false_iff {values seen : List ℤ} :
    seenTwice values seen = false ↔ values.Nodup ∧ ∀ v ∈ values, v ∉ seen := by
  induction values generalizing seen with
  | nil => simp [seenTwice]
  | cons v values ih =>
    rw [seenTwice]
    split_ifs with hv
    · simp [hv]
    · rw [ih, nodup_cons, forall_mem_cons]
      simp only [mem_cons, not_or, forall_and]
      constructor
      · rintro ⟨hnd, hne, hseen⟩
        exact ⟨⟨fun hmem ↦ hne v hmem rfl, hnd⟩, hv, hseen⟩
      · rintro ⟨⟨hnot, hnd⟩, -, hseen⟩
        exact ⟨hnd, fun w hw heq ↦ hnot (heq ▸ hw), hseen⟩

variable {batch merged : RowBatch ρ} {batches : List (RowBatch ρ)}

theorem batchHasDuplicateTimestamps_eq_false_iff :
    batchHasDuplicateTimestamps batch = false ↔ (batch.map Prod.fst).Nodup := by
  unfold batchHasDuplicateTimestamps
  simp only
  split_ifs with hlen hch
  · refine iff_of_true rfl ?_
    match batch.map Prod.fst, hlen with
    | [], _ => exact nodup_nil
    | [v], _ => exact nodup_singleton v
  · exact iff_of_true rfl ((isChain_iff_pairwise.mp hch).imp fun h ↦ h.ne)
  · rw [seenTwice_eq_false_iff]
    simp

theorem sortBatchByTimestamp_perm (batch : RowBatch ρ) : (sortBatchByTimestamp batch).Perm batch :=
  perm_insertionSort _ _

section

variable (h : batchHasDuplicateTimestamps batch = false)

include h

theorem sortBatchByTimestamp_sorted : (sortBatchByTimestamp batch).Pairwise (·.1 < ·.1) := by
  have hle : (sortBatchByTimestamp batch).Pairwise (·.1 ≤ ·.1) := by
    have htot : Std.Total fun x y : ℤ × ρ ↦ x.1 ≤ y.1 := ⟨fun x y ↦ le_total x.1 y.1⟩
    have htrans : IsTrans (ℤ × ρ) fun x y ↦ x.1 ≤ y.1 := ⟨fun _ _ _ ↦ le_trans⟩
    exact pairwise_insertionSort _ batch
  have hnd : ((sortBatchByTimestamp batch).map Prod.fst).Nodup :=
    ((sortBatchByTimestamp_perm batch).map _).nodup_iff.mpr
      (batchHasDuplicateTimestamps_eq_false_iff.mp h)
  exact (hle.and (pairwise_map.mp hnd)).imp fun ⟨hle, hne⟩ ↦ hle.lt_of_ne hne

theorem sortBatchByTimestamp_isNewest : IsNewest (sortBatchByTimestamp batch) batch :=
  isNewest_of_perm (sortBatchByTimestamp_perm batch) (sortBatchByTimestamp_sorted h)

end

/-! ## Positions -/

/-- Row `x` stands at position `p`, and behind it there is none with its timestamp. -/
def IsLastAt (batch : RowBatch ρ) (p : ℕ) (x : ℤ × ρ) : Prop :=
  batch[p]? = some x ∧ ∀ q y, batch[q]? = some y → y.1 = x.1 → q ≤ p

theorem lastRow_eq_some_iff_isLastAt {t : ℤ} {r : ρ} :
    lastRow batch t = some r ↔ ∃ p, IsLastAt batch p (t, r) := by
  constructor
  · intro h
    obtain ⟨l, l', heq, hl⟩ := lookup_eq_some_iff.mp h
    have hbat : batch = l'.reverse ++ (t, r) :: l.reverse := by
      rw [← reverse_reverse batch, heq]
      simp
    refine ⟨l'.length, ?_, fun q y hq hy ↦ ?_⟩
    · simp [hbat]
    · by_contra hlt
      have hmem : y ∈ l := by
        rw [hbat, ← singleton_append, ← append_assoc, getElem?_append_right (by simp; omega)] at hq
        exact mem_reverse.mp (mem_of_getElem? hq)
      simpa [hy] using hl y hmem
  · rintro ⟨p, hp, hlast⟩
    obtain ⟨_, hrow⟩ := List.getElem?_eq_some_iff.mp hp
    have hbat : batch = batch.take p ++ (t, r) :: batch.drop (p + 1) := by
      rw [← hrow, getElem_cons_drop, take_append_drop]
    rw [hbat]
    refine lastRow_append_cons fun hmem ↦ ?_
    obtain ⟨y, hy, hty⟩ := mem_map.mp hmem
    obtain ⟨_, hq⟩ := mem_iff_getElem?.mp hy
    rw [getElem?_drop] at hq
    have := hlast _ y hq hty
    omega

theorem mem_sortedOrder {e : ℤ ×ₗ ℕ} :
    e ∈ sortedOrder merged ↔ ∃ r, merged[(ofLex e).2]? = some ((ofLex e).1, r) := by
  rw [sortedOrder, mem_insertionSort, mem_map]
  constructor
  · rintro ⟨⟨_, _⟩, hmem, rfl⟩
    rw [mem_zipIdx_iff_getElem?, getElem?_map, Option.map_eq_some_iff] at hmem
    obtain ⟨⟨_, r⟩, hrow, rfl⟩ := hmem
    exact ⟨r, hrow⟩
  · rintro ⟨_, hrow⟩
    refine ⟨ofLex e, ?_, rfl⟩
    rw [mem_zipIdx_iff_getElem?, getElem?_map, hrow]
    rfl

theorem fst_le_of_lex_le {a b : ℤ ×ₗ ℕ} (h : a ≤ b) : (ofLex a).1 ≤ (ofLex b).1 := by
  rcases Prod.Lex.le_iff.mp h with h | h
  · exact h.le
  · exact h.1.le

/-- **The kept positions are those of the last rows.** -/
theorem mem_keptPositions {p : ℕ} : p ∈ keptPositions merged ↔ ∃ x, IsLastAt merged p x := by
  rw [keptPositions, mem_map]
  have hsort : (sortedOrder merged).Pairwise (· ≤ ·) := pairwise_insertionSort _ _
  have hkept (e : ℤ ×ₗ ℕ) :
      e ∈ lastOfRuns (fun e ↦ (ofLex e).1) (sortedOrder merged) ↔
        e ∈ sortedOrder merged ∧
          ∀ e' ∈ sortedOrder merged, (ofLex e').1 = (ofLex e).1 → e' ≤ e :=
    mem_lastOfRuns (fun _ _ ↦ fst_le_of_lex_le) hsort
  constructor
  · rintro ⟨e, he, rfl⟩
    obtain ⟨hmem, hmax⟩ := (hkept e).mp he
    obtain ⟨r, hrow⟩ := mem_sortedOrder.mp hmem
    refine ⟨_, hrow, fun q y hq hy ↦ ?_⟩
    have hle := hmax (toLex (y.1, q)) (mem_sortedOrder.mpr ⟨y.2, hq⟩) hy
    rcases Prod.Lex.le_iff.mp hle with hlt | hle
    · exact absurd hy hlt.ne
    · exact hle.2
  · rintro ⟨x, hrow, hlast⟩
    refine ⟨toLex (x.1, p), (hkept _).mpr ⟨mem_sortedOrder.mpr ⟨x.2, hrow⟩, fun e he heq ↦ ?_⟩, rfl⟩
    obtain ⟨_, hr⟩ := mem_sortedOrder.mp he
    exact Prod.Lex.le_iff.mpr (.inr ⟨heq, hlast _ _ hr heq⟩)

theorem isNewest_takeBatchByIndices (merged : RowBatch ρ) :
    IsNewest (takeBatchByIndices merged (keptPositions merged)) merged := by
  refine isNewest_iff.mpr ⟨?_, fun t r ↦ ?_⟩
  · rw [takeBatchByIndices, keptPositions, filterMap_map, pairwise_filterMap]
    have hsort : (sortedOrder merged).Pairwise (· ≤ ·) := pairwise_insertionSort _ _
    refine (lastOfRuns_sorted (fun _ _ ↦ fst_le_of_lex_le) hsort).imp_of_mem ?_
    intro a b ha hb hlt x hx y hy
    obtain ⟨_, hr⟩ := mem_sortedOrder.mp ((lastOfRuns_sublist _ _).subset ha)
    obtain ⟨_, hr'⟩ := mem_sortedOrder.mp ((lastOfRuns_sublist _ _).subset hb)
    cases hr.symm.trans hx
    cases hr'.symm.trans hy
    exact hlt
  · rw [lastRow_eq_some_iff_isLastAt, takeBatchByIndices, mem_filterMap]
    constructor
    · rintro ⟨p, hp, hrow⟩
      obtain ⟨_, hx, hlast⟩ := mem_keptPositions.mp hp
      cases hx.symm.trans hrow
      exact ⟨p, hx, hlast⟩
    · rintro ⟨p, hp⟩
      exact ⟨p, mem_keptPositions.mpr ⟨_, hp⟩, hp.1⟩

/-! ## When the reference is right -/

/-- Cutting the positions to 32 bits does not matter: where a last row stands at a position that is
changed, the row at the other position is the same. -/
def IndicesFit (merged : RowBatch ρ) : Prop :=
  ∀ p x, IsLastAt merged p x → merged[asU32 p]? = some x

theorem isSome_getElem?_asU32 {p : ℕ} {x : ℤ × ρ} (h : merged[p]? = some x) :
    merged[asU32 p]?.isSome := by
  have hlt : asU32 p < merged.length := (Nat.mod_le p _).trans_lt (List.getElem?_eq_some_iff.mp h).1
  rw [getElem?_eq_getElem hlt]
  rfl

theorem takeBatchByIndices_asU32_eq_iff :
    takeBatchByIndices merged ((keptPositions merged).map asU32) =
      takeBatchByIndices merged (keptPositions merged) ↔ IndicesFit merged := by
  have hkept : ∀ p ∈ keptPositions merged, ∃ x, merged[p]? = some x := fun p hp ↦
    (mem_keptPositions.mp hp).imp fun x hx ↦ hx.1
  rw [takeBatchByIndices, takeBatchByIndices, filterMap_map,
    ← List.map_inj_right fun _ _ ↦ Option.some.inj, Gather.map_some_filterMap,
    Gather.map_some_filterMap, map_inj_left]
  · constructor
    · rintro h p x hp
      rw [← hp.1]
      exact h p (mem_keptPositions.mpr ⟨x, hp⟩)
    · rintro h p hp
      obtain ⟨x, hx⟩ := mem_keptPositions.mp hp
      exact (h p x hx).trans hx.1.symm
  · intro p hp
    obtain ⟨x, hx⟩ := hkept p hp
    exact Option.isSome_of_eq_some hx
  · intro p hp
    obtain ⟨_, hx⟩ := hkept p hp
    exact isSome_getElem?_asU32 hx

theorem flatten_dedupeSortedBatch (merged : RowBatch ρ) :
    (dedupeSortedBatch merged).flatten =
      takeBatchByIndices merged ((keptPositions merged).map asU32) := by
  simp only [dedupeSortedBatch]
  split_ifs with hzero hone hemp
  · rw [eq_nil_of_length_eq_zero hzero]
    rfl
  · obtain ⟨_, rfl⟩ := length_eq_one_iff.mp hone
    rfl
  · simpa using (List.isEmpty_iff.mp hemp).symm
  · simp

/-- **The concatenated rows are deduplicated right** if and only if their positions fit. -/
theorem dedupeSortedBatch_isNewest_iff :
    IsNewest (dedupeSortedBatch merged).flatten merged ↔ IndicesFit merged := by
  rw [flatten_dedupeSortedBatch, ← takeBatchByIndices_asU32_eq_iff]
  constructor
  · exact fun h ↦ h.unique (isNewest_takeBatchByIndices merged)
  · intro h
    rw [h]
    exact isNewest_takeBatchByIndices merged

theorem flatten_nonEmptyBatches (batches : List (RowBatch ρ)) :
    (nonEmptyBatches batches).flatten = batches.flatten := by
  induction batches with
  | nil => rfl
  | cons batch batches ih =>
    cases batch with
    | nil => exact ih
    | cons x rows =>
      rw [nonEmptyBatches, filter_cons_of_pos (by simp)]
      exact congrArg ((x :: rows) ++ ·) ih

theorem ne_nil_of_mem_nonEmptyBatches {b : RowBatch ρ} (h : b ∈ nonEmptyBatches batches) :
    b ≠ [] := by
  rintro rfl
  simp [nonEmptyBatches] at h

/-- The rows are concatenated and taken by position, unless there is only one batch and it has no
duplicates. -/
def Concatenates (batches : List (RowBatch ρ)) : Prop :=
  ∀ batch, nonEmptyBatches batches = [batch] → batchHasDuplicateTimestamps batch = true

theorem dedupeBatchesNewestWins_isNewest_iff :
    IsNewest (dedupeBatchesNewestWins batches).flatten batches.flatten ↔
      (Concatenates batches → IndicesFit batches.flatten) := by
  rw [← flatten_nonEmptyBatches batches, dedupeBatchesNewestWins, Concatenates]
  cases hbs : nonEmptyBatches batches with
  | nil =>
    refine iff_of_true ⟨.nil, fun _ ↦ rfl⟩ fun _ p x hp ↦ ?_
    cases hp.1
  | cons batch rest =>
    cases rest with
    | nil =>
      rw [flatten_singleton]
      simp only
      split_ifs with hdup
      · rw [flatten_singleton]
        refine iff_of_true (sortBatchByTimestamp_isNewest hdup) fun hcat ↦ ?_
        cases (hcat batch rfl).symm.trans hdup
      · rw [dedupeSortedBatch_isNewest_iff]
        refine ⟨fun hfit _ ↦ hfit, fun hfit ↦ hfit fun batch' heq ↦ ?_⟩
        rw [← singleton_inj.mp heq]
        exact (Bool.not_eq_false _).mp hdup
    | cons =>
      exact dedupeSortedBatch_isNewest_iff.trans
        ⟨fun hfit _ ↦ hfit, fun hfit ↦ hfit fun _ heq ↦ by cases heq⟩

/-! ## When the scan is right -/

/-- Every timestamp of a chunk is before every timestamp of the chunks that follow. -/
def InOrder (batches : List (RowBatch ρ)) : Prop :=
  batches.Pairwise fun a b ↦ ∀ x ∈ a, ∀ y ∈ b, x.1 < y.1

theorem noDuplicates_of_timeOrderedFrom {lastTs : Option ℤ}
    (h : timeOrderedFrom lastTs batches = true) :
    ∀ b ∈ batches, batchHasDuplicateTimestamps b = false := by
  induction batches generalizing lastTs with
  | nil => simp
  | cons batch batches ih =>
    rw [forall_mem_cons]
    cases batch with
    | nil => exact ⟨rfl, ih h⟩
    | cons =>
      simp only [timeOrderedFrom] at h
      split_ifs at h with hdup
      exact ⟨(Bool.not_eq_true _).mp hdup, ih h⟩

theorem flatten_map_sort_perm (batches : List (RowBatch ρ)) :
    (batches.map sortBatchByTimestamp).flatten.Perm batches.flatten := by
  induction batches with
  | nil => exact .refl _
  | cons batch batches ih => exact (sortBatchByTimestamp_perm batch).append ih

/-- Sorting the chunks one by one is right if and only if they follow one another. -/
theorem map_sort_isNewest_iff (hdup : ∀ b ∈ batches, batchHasDuplicateTimestamps b = false) :
    IsNewest (batches.map sortBatchByTimestamp).flatten batches.flatten ↔ InOrder batches := by
  have hsort : (batches.map sortBatchByTimestamp).flatten.Pairwise (·.1 < ·.1) ↔
      InOrder batches := by
    rw [pairwise_flatten, pairwise_map, and_iff_right]
    · simp only [(sortBatchByTimestamp_perm _).mem_iff]
      exact Iff.rfl
    · intro b hb
      obtain ⟨batch, hmem, rfl⟩ := mem_map.mp hb
      exact sortBatchByTimestamp_sorted (hdup batch hmem)
  rw [← hsort]
  exact ⟨IsNewest.sorted, isNewest_of_perm (flatten_map_sort_perm batches)⟩

section

variable (batches : List (RowBatch ρ))

theorem nonEmptyBatches_nonEmptyBatches :
    nonEmptyBatches (nonEmptyBatches batches) = nonEmptyBatches batches := by
  simp [nonEmptyBatches]

theorem dedupeBatchesNewestWins_nonEmptyBatches :
    dedupeBatchesNewestWins (nonEmptyBatches batches) = dedupeBatchesNewestWins batches := by
  rw [dedupeBatchesNewestWins, nonEmptyBatches_nonEmptyBatches, ← dedupeBatchesNewestWins]

theorem dedupeBatchesNewestWins_singleton (hne : batch ≠ [])
    (hdup : batchHasDuplicateTimestamps batch = false) :
    dedupeBatchesNewestWins [batch] = [sortBatchByTimestamp batch] := by
  have hbat : nonEmptyBatches [batch] = [batch] :=
    filter_cons_of_pos (by simpa [length_pos_iff] using hne)
  rw [dedupeBatchesNewestWins, hbat]
  exact if_pos hdup

theorem prepareScanBatches_eq : prepareScanBatches batches =
      if batchesAreTimeOrdered (nonEmptyBatches batches) then
        (nonEmptyBatches batches).map sortBatchByTimestamp
      else dedupeBatchesNewestWins batches := by
  rw [← dedupeBatchesNewestWins_nonEmptyBatches batches, prepareScanBatches]
  have hne : ∀ b ∈ nonEmptyBatches batches, b ≠ [] := fun b ↦ ne_nil_of_mem_nonEmptyBatches
  cases hbs : nonEmptyBatches batches with
  | nil => rfl
  | cons batch rest =>
    cases rest with
    | nil =>
      -- a single chunk need not be in order to be sorted, but then both ways sort it
      simp only
      split_ifs with hdup hord hord
      · have := noDuplicates_of_timeOrderedFrom hord batch mem_cons_self
        cases this.symm.trans hdup
      · rfl
      · rfl
      · rw [hbs, forall_mem_singleton] at hne
        rw [dedupeBatchesNewestWins_singleton hne ((Bool.not_eq_true _).mp hdup)]
    | cons => rfl

end

theorem prepareScanBatches_isNewest
    (hord : batchesAreTimeOrdered (nonEmptyBatches batches) = true →
      InOrder (nonEmptyBatches batches))
    (hfit : Concatenates batches → IndicesFit batches.flatten) :
    IsNewest (prepareScanBatches batches).flatten batches.flatten := by
  rw [prepareScanBatches_eq]
  split_ifs with h
  · rw [← flatten_nonEmptyBatches batches]
    exact (map_sort_isNewest_iff (noDuplicates_of_timeOrderedFrom h)).mpr (hord h)
  · exact dedupeBatchesNewestWins_isNewest_iff.mpr hfit

/-- **A scan gives every timestamp once, in order, with its last row, as the reference does,** if
and only if chunks that pass the test really follow one another, and the positions fit where the
rows are concatenated. -/
theorem prepareScanBatches_exact_iff (batches : List (RowBatch ρ)) :
    (IsNewest (prepareScanBatches batches).flatten batches.flatten ∧
        (prepareScanBatches batches).flatten = (dedupeBatchesNewestWins batches).flatten) ↔
      (batchesAreTimeOrdered (nonEmptyBatches batches) = true → InOrder (nonEmptyBatches batches)) ∧
        (Concatenates batches → IndicesFit batches.flatten) := by
  have hboth : (IsNewest (prepareScanBatches batches).flatten batches.flatten ∧
        (prepareScanBatches batches).flatten = (dedupeBatchesNewestWins batches).flatten) ↔
      IsNewest (prepareScanBatches batches).flatten batches.flatten ∧
        IsNewest (dedupeBatchesNewestWins batches).flatten batches.flatten :=
    ⟨fun ⟨hnew, heq⟩ ↦ ⟨hnew, heq ▸ hnew⟩, fun ⟨hscan, href⟩ ↦ ⟨hscan, hscan.unique href⟩⟩
  rw [hboth, ← dedupeBatchesNewestWins_isNewest_iff, prepareScanBatches_eq]
  split_ifs with hord
  · rw [← map_sort_isNewest_iff (noDuplicates_of_timeOrderedFrom hord), flatten_nonEmptyBatches]
    simp only [hord, true_imp_iff]
  · rw [and_self, and_iff_right fun h ↦ absurd h hord]

/-- Two chunks, the first out of order: its largest timestamp stands in the middle, where the test
does not look, and `10` comes out before the `6` of the second chunk. -/
theorem scan_returns_later_timestamp_first :
    let chunks : List (RowBatch Char) := [[(1, 'a'), (10, 'b'), (5, 'c')], [(6, 'd')]]
    prepareScanBatches chunks = [[(1, 'a'), (5, 'c'), (10, 'b')], [(6, 'd')]] ∧
      dedupeBatchesNewestWins chunks = [[(1, 'a'), (5, 'c'), (6, 'd'), (10, 'b')]] := by
  decide +kernel

end MonoTS
