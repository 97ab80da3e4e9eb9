import MonoTS.Compaction.Dedup
import MonoTS.Compaction.Merge
import MonoTS.Lib.Windows

/-!
# Writing a memtable to an SST

A flush writes the chunks of a memtable as they are if their timestamps are strictly increasing over
all chunks. Otherwise it sorts coordinates instead of rows: an entry for every row, with its
timestamp, its chunk and its position in the chunk, of which the largest is kept for every
timestamp. The rows are then gathered window by window. Either way the writer takes the bounds of
the file from the first and the last row of every batch it writes.

Chunk and position are 32-bit numbers in an entry, and nothing checks that they fit. Up to `2 ^ 32`
chunks with up to `2 ^ 32` rows each the file is the right one (`coordsFit_of_length_le`);
`writeMemtableParquet_exact_iff` says exactly when.

The staging directory, the clock and the size of the written file are arguments; a disk that fails
is left out. A batch of rows all of which have the time column is a list of rows.
-/

open List Option

namespace MonoTS

open Gather NewestWins

variable {ρ : Type*}

/-! ## The plan -/

/-- The loop of `chunks_strictly_ordered`, with the last timestamp of the chunk before. -/
def strictlyOrderedFrom : Option ℤ → List (RowBatch ρ) → Bool
  | _, [] => true
  | prevLast, [] :: chunks => strictlyOrderedFrom prevLast chunks
  | prevLast, (first :: rows) :: chunks =>
    if ¬ ((first :: rows).map Prod.fst).IsChain (· < ·) then false
    else if prevLast.any fun prev ↦ first.1 ≤ prev then false
    else strictlyOrderedFrom (some (rows.getLastD first).1) chunks

def chunksStrictlyOrdered (chunks : List (RowBatch ρ)) : Bool := strictlyOrderedFrom none chunks

/-- The chunks, with the coordinates of the rows to write: chunk and position in the chunk. -/
structure SortedFlush (ρ : Type*) where
  chunks : List (RowBatch ρ)
  coords : List (ℕ × ℕ)

/-- The timestamp of a row and its coordinates. -/
abbrev FlushEntry := ℤ ×ₗ ℕ ×ₗ ℕ

namespace FlushEntry

def ts (e : FlushEntry) : ℤ := (ofLex e).1

def coord (e : FlushEntry) : ℕ × ℕ := ofLex (ofLex e).2

def new (ts : ℤ) (chunkIdx row : ℕ) : FlushEntry := toLex (ts, toLex (asU32 chunkIdx, asU32 row))

end FlushEntry

open FlushEntry

namespace SortedFlush

variable (chunks : List (RowBatch ρ))

/-- An entry for every row, in the order of the chunks. -/
def entries : List FlushEntry :=
  chunks.zipIdx.flatMap fun (batch, chunkIdx) ↦
    batch.zipIdx.map fun (x, row) ↦ new x.1 chunkIdx row

/-- The entries that are kept: the last of every run of equal timestamps. -/
def keptEntries : List FlushEntry :=
  lastOfRuns ts ((entries chunks).insertionSort (· ≤ ·))

def build : Result (SortedFlush ρ) :=
  if (entries chunks).isEmpty then .error (.storage "nothing to flush after dedupe")
  else .ok ⟨chunks, (keptEntries chunks).map coord⟩

end SortedFlush

open SortedFlush

/-- How a flush writes its rows. -/
inductive FlushPlan (ρ : Type*) where
  | streaming (chunks : List (RowBatch ρ))
  | sorted (flush : SortedFlush ρ)

variable (chunks : List (RowBatch ρ))

def planFlush : Result (FlushPlan ρ) :=
  let nonEmpty := nonEmptyBatches chunks
  if nonEmpty.isEmpty then .error (.storage "nothing to flush")
  else if chunksStrictlyOrdered nonEmpty then .ok (.streaming nonEmpty)
  else (build nonEmpty).map .sorted

/-! ## Windows -/

/-- The rows at the given coordinates. Arrow panics if one of them is not there, which is an error
here. -/
def gatherRows (indices : List (ℕ × ℕ)) : Result (RowBatch ρ) :=
  match gather chunks indices with
  | some rows => .ok rows
  | none => .error (.storage "index out of bounds")

/-- The iterator over the windows. -/
structure SortedFlushBatches (ρ : Type*) where
  chunks : List (RowBatch ρ)
  coords : List (ℕ × ℕ)
  window : ℕ
  cursor : ℕ

namespace SortedFlushBatches

def next (it : SortedFlushBatches ρ) : Option (Result (RowBatch ρ) × SortedFlushBatches ρ) :=
  if it.coords.length ≤ it.cursor then none
  else
    let stop := min (it.cursor + it.window) it.coords.length
    let indices := (it.coords.take stop).drop it.cursor
    some (gatherRows it.chunks indices, { it with cursor := stop })

/-- What the iterator yields, with a bound on the number of batches. -/
def toList : ℕ → SortedFlushBatches ρ → List (Result (RowBatch ρ))
  | 0, _ => []
  | fuel + 1, it =>
    match it.next with
    | none => []
    | some (batch, it) => batch :: it.toList fuel

end SortedFlushBatches

/-- Every window has a coordinate, so that there are not more windows than these. -/
def SortedFlush.windowBatches (flush : SortedFlush ρ) (window : ℕ) : List (Result (RowBatch ρ)) :=
  let it : SortedFlushBatches ρ := ⟨flush.chunks, flush.coords, max window 1, 0⟩
  it.toList flush.coords.length

/-! ## The writer -/

/-- The bounds so far, and the rows written so far. -/
structure SstWriter (ρ : Type*) where
  minTs : ℤ
  maxTs : ℤ
  rowCount : ℕ
  rows : RowBatch ρ

namespace SstWriter

def start : SstWriter ρ := ⟨i64Max, i64Min, 0, []⟩

/-- The body of the loop. -/
def write (w : SstWriter ρ) : RowBatch ρ → SstWriter ρ
  | [] => w
  | first :: rows =>
    { minTs := min w.minTs first.1
      maxTs := max w.maxTs (rows.getLastD first).1
      rowCount := w.rowCount + (first :: rows).length
      rows := w.rows ++ first :: rows }

/-- The loop over the batches. It stops at the first that is an error. -/
def writeAll : SstWriter ρ → List (Result (RowBatch ρ)) → Result (SstWriter ρ)
  | w, [] => .ok w
  | _, .error e :: _ => .error e
  | w, .ok batch :: batches => (w.write batch).writeAll batches

end SstWriter

/-- A written file: its metadata and its rows. -/
structure SstOutput (ρ : Type*) extends SstMeta where
  rows : RowBatch ρ
  deriving DecidableEq, Repr

def writeSstStreamingTryWithConfig (identity : SstIdentity) (dataDir : String) (fileSize : ℕ)
    (batches : List (Result (RowBatch ρ))) : Result (SstOutput ρ) := do
  let w ← SstWriter.start.writeAll batches
  if w.rowCount = 0 then .error (.storage "nothing to flush")
  else
    let path := dataDir ++ "/" ++ identity.filename
    .ok ⟨.fromIdentity identity path w.minTs w.maxTs w.rowCount fileSize, w.rows⟩

def flushTmpDir (dataDir : String) : String := dataDir ++ "/.flush_tmp"

/-- Stage the file, and move it into the data directory. -/
def writeMemtableParquet (chunks : List (RowBatch ρ)) (dataDir : String) (flushWindowRows : ℕ)
    (nowMs : ℤ) (minLsn maxLsn fileSize : ℕ) : Result (SstOutput ρ) :=
  if chunks.isEmpty then .error (.storage "nothing to flush")
  else do
    let identity := SstIdentity.freshFlush nowMs minLsn maxLsn
    let staged ← match ← planFlush chunks with
      | .streaming chunks =>
        writeSstStreamingTryWithConfig identity (flushTmpDir dataDir) fileSize (chunks.map .ok)
      | .sorted flush =>
        writeSstStreamingTryWithConfig identity (flushTmpDir dataDir) fileSize
          (flush.windowBatches (max flushWindowRows 1))
    .ok { staged with filePath := dataDir ++ "/" ++ identity.filename }

/-! ## The test -/

theorem getLastD_mem_cons (first : ℤ × ρ) (rows : RowBatch ρ) :
    rows.getLastD first ∈ first :: rows := by
  induction rows generalizing first with
  | nil => exact mem_cons_self
  | cons row rows ih =>
    rw [getLastD_cons]
    exact mem_cons_of_mem _ (ih row)

variable {rows : RowBatch ρ} {chunks : List (RowBatch ρ)} {first : ℤ × ρ}

section

variable (h : (first :: rows).Pairwise (·.1 < ·.1))

include h

theorem fst_le_getLastD : ∀ x ∈ first :: rows, x.1 ≤ (rows.getLastD first).1 := by
  induction rows generalizing first with
  | nil => simp
  | cons row rows ih =>
    obtain ⟨hfst, hrows⟩ := pairwise_cons.mp h
    rw [getLastD_cons, forall_mem_cons]
    exact ⟨(hfst row mem_cons_self).le.trans (ih hrows row mem_cons_self), ih hrows⟩

theorem fst_le_of_mem : ∀ x ∈ first :: rows, first.1 ≤ x.1 := by
  rw [forall_mem_cons]
  exact ⟨le_rfl, fun x hx ↦ ((pairwise_cons.mp h).1 x hx).le⟩

end

theorem strictlyOrderedFrom_eq_true_iff {prevLast : Option ℤ} :
    strictlyOrderedFrom prevLast chunks = true ↔
      chunks.flatten.Pairwise (·.1 < ·.1) ∧
        ∀ prev ∈ prevLast, ∀ x ∈ chunks.flatten, prev < x.1 := by
  induction chunks generalizing prevLast with
  | nil => simp [strictlyOrderedFrom]
  | cons batch chunks ih =>
    cases batch with
    | nil => exact ih
    | cons first rows =>
      rw [strictlyOrderedFrom, flatten_cons, pairwise_append]
      split_ifs with hcha hprev
      · obtain ⟨prev, hmem, hle⟩ := (Option.any_eq_true _ _).mp hprev
        refine iff_of_false nofun fun ⟨_, hlt⟩ ↦ ?_
        exact (hlt prev hmem first mem_cons_self).not_ge (of_decide_eq_true hle)
      · -- before the chunk only its first row matters, behind it only the last
        have hbat := pairwise_map.mp (isChain_iff_pairwise.mp hcha)
        have hlt : ∀ prev ∈ prevLast, prev < first.1 := fun prev hmem ↦ not_le.mp fun hle ↦
          hprev ((Option.any_eq_true _ _).mpr ⟨prev, hmem, decide_eq_true hle⟩)
        simp only [ih, mem_some_iff, forall_eq']
        constructor
        · rintro ⟨hch, hlast⟩
          refine ⟨⟨hbat, hch, fun x hx y hy ↦ ?_⟩, fun prev hmem x hx ↦ ?_⟩
          · exact (fst_le_getLastD hbat x hx).trans_lt (hlast y hy)
          · refine (hlt prev hmem).trans_le ?_
            rcases mem_append.mp hx with hx | hx
            · exact fst_le_of_mem hbat x hx
            · exact ((fst_le_getLastD hbat _ mem_cons_self).trans_lt (hlast x hx)).le
        · rintro ⟨⟨-, hch, hbef⟩, -⟩
          exact ⟨hch, hbef _ (getLastD_mem_cons first rows)⟩
      · refine iff_of_false nofun fun ⟨⟨h, _⟩, _⟩ ↦ hcha ?_
        exact isChain_iff_pairwise.mpr (pairwise_map.mpr h)

theorem chunksStrictlyOrdered_eq_true_iff :
    chunksStrictlyOrdered chunks = true ↔ chunks.flatten.Pairwise (·.1 < ·.1) := by
  simp [chunksStrictlyOrdered, strictlyOrderedFrom_eq_true_iff]

/-! ## Gathering rows -/

theorem gatherRows_eq_ok {indices : List (ℕ × ℕ)} :
    gatherRows chunks indices = .ok rows ↔ indices.map (rowAt chunks) = rows.map some := by
  rw [← gather_eq_some, gatherRows]
  cases gather chunks indices with
  | none => exact ⟨nofun, nofun⟩
  | some out =>
    exact ⟨fun h ↦ congrArg some (Except.ok.inj h), fun h ↦ congrArg _ (some.inj h)⟩

/-- The windows cut the coordinates behind the cursor. -/
theorem SortedFlushBatches.toList_eq (fuel : ℕ) (it : SortedFlushBatches ρ) (hpos : 0 < it.window)
    (hfuel : it.coords.length ≤ it.cursor + fuel) :
    ∃ parts : List (List (ℕ × ℕ)), it.toList fuel = parts.map (gatherRows it.chunks) ∧
      parts.flatten = it.coords.drop it.cursor := by
  induction fuel generalizing it with
  | zero => exact ⟨[], rfl, (drop_eq_nil_of_le hfuel).symm⟩
  | succ fuel ih =>
    rw [toList, next]
    split_ifs with hend
    · exact ⟨[], rfl, (drop_eq_nil_of_le hend).symm⟩
    · simp only
      have hstop : it.cursor < min (it.cursor + it.window) it.coords.length := by omega
      set stop := min (it.cursor + it.window) it.coords.length
      obtain ⟨parts, hpart, hflat⟩ := ih { it with cursor := stop } hpos (by
        simp only
        omega)
      refine ⟨(it.coords.take stop).drop it.cursor :: parts, congrArg _ hpart, ?_⟩
      rw [flatten_cons, hflat, ← drop_append_of_le_length, take_append_drop]
      rw [length_take]
      omega

/-! ## What the writer leaves -/

namespace SstWriter

variable {w : SstWriter ρ}

theorem writeAll_eq_ok {w' : SstWriter ρ} {batches : List (Result (RowBatch ρ))} :
    w.writeAll batches = .ok w' ↔
      ∃ bs : List (RowBatch ρ), batches = bs.map .ok ∧ bs.foldl write w = w' := by
  induction batches generalizing w with
  | nil =>
    constructor
    · intro h
      exact ⟨[], rfl, Except.ok.inj h⟩
    · rintro ⟨bs, hbs, rfl⟩
      rw [map_eq_nil_iff.mp hbs.symm]
      rfl
  | cons batch batches ih =>
    cases batch with
    | error =>
      refine ⟨nofun, ?_⟩
      rintro ⟨bs, hbs, -⟩
      obtain ⟨_, _, -, h, -⟩ := map_eq_cons_iff.mp hbs.symm
      cases h
    | ok batch =>
      rw [writeAll, ih]
      constructor
      · rintro ⟨bs, rfl, h⟩
        exact ⟨batch :: bs, rfl, h⟩
      · rintro ⟨bs, hbs, h⟩
        obtain ⟨_, bs, rfl, heq, rfl⟩ := map_eq_cons_iff.mp hbs.symm
        cases heq
        exact ⟨bs, rfl, h⟩

theorem rows_foldl_write (w : SstWriter ρ) (batches : List (RowBatch ρ)) :
    (batches.foldl write w).rows = w.rows ++ batches.flatten := by
  induction batches generalizing w with
  | nil => simp
  | cons batch batches ih =>
    rw [foldl_cons, ih, flatten_cons, ← append_assoc]
    cases batch with
    | nil => simp [write]
    | cons => rfl

/-- The bounds so far enclose the rows and are among their timestamps, unless they are still those
of the start. -/
structure Tracks (w : SstWriter ρ) : Prop where
  rowCount : w.rowCount = w.rows.length
  lower : ∀ x ∈ w.rows, w.minTs ≤ x.1
  upper : ∀ x ∈ w.rows, x.1 ≤ w.maxTs
  minTs : w.minTs ∈ w.rows.map Prod.fst ∨ w.minTs = i64Max
  maxTs : w.maxTs ∈ w.rows.map Prod.fst ∨ w.maxTs = i64Min

theorem tracks_start : (start : SstWriter ρ).Tracks := ⟨rfl, nofun, nofun, .inr rfl, .inr rfl⟩

variable (hw : w.Tracks)

include hw

theorem Tracks.write {batch : RowBatch ρ} (hbat : batch.Pairwise (·.1 < ·.1)) :
    (w.write batch).Tracks := by
  cases batch with
  | nil => exact hw
  | cons first rows =>
    simp only [SstWriter.write]
    refine ⟨?_, ?_, ?_, ?_, ?_⟩
    · rw [hw.rowCount, length_append]
    · exact forall_mem_append.mpr ⟨fun x hx ↦ (min_le_left _ _).trans (hw.lower x hx),
        fun x hx ↦ (min_le_right _ _).trans (fst_le_of_mem hbat x hx)⟩
    · exact forall_mem_append.mpr ⟨fun x hx ↦ (hw.upper x hx).trans (le_max_left _ _),
        fun x hx ↦ (fst_le_getLastD hbat x hx).trans (le_max_right _ _)⟩
    · rw [map_append, mem_append]
      rcases min_choice w.minTs first.1 with h | h
      · rw [h]
        exact hw.minTs.imp_left .inl
      · rw [h]
        exact .inl (.inr mem_cons_self)
    · rw [map_append, mem_append]
      rcases max_choice w.maxTs (rows.getLastD first).1 with h | h
      · rw [h]
        exact hw.maxTs.imp_left .inl
      · rw [h]
        exact .inl (.inr (List.mem_map_of_mem (getLastD_mem_cons first rows)))

theorem Tracks.foldl_write {batches : List (RowBatch ρ)}
    (hbs : ∀ b ∈ batches, b.Pairwise (·.1 < ·.1)) : (batches.foldl SstWriter.write w).Tracks := by
  induction batches generalizing w with
  | nil => exact hw
  | cons batch batches ih =>
    obtain ⟨hbat, hrest⟩ := forall_mem_cons.mp hbs
    exact ih (hw.write hbat) hrest

/-- Once there are rows the start does not matter: no timestamp lies beyond it. -/
theorem Tracks.isLeast (hne : w.rows ≠ []) (hts : ∀ x ∈ w.rows, x.1 ≤ i64Max) :
    IsLeast {t | t ∈ w.rows.map Prod.fst} w.minTs := by
  refine ⟨?_, fun t ht ↦ ?_⟩
  · rcases hw.minTs with h | h
    · exact h
    · obtain ⟨x, hx⟩ := exists_mem_of_ne_nil _ hne
      have heq : w.minTs = x.1 := (hw.lower x hx).antisymm (h ▸ hts x hx)
      exact heq ▸ List.mem_map_of_mem hx
  · obtain ⟨x, hx, rfl⟩ := List.mem_map.mp ht
    exact hw.lower x hx

theorem Tracks.isGreatest (hne : w.rows ≠ []) (hts : ∀ x ∈ w.rows, i64Min ≤ x.1) :
    IsGreatest {t | t ∈ w.rows.map Prod.fst} w.maxTs := by
  refine ⟨?_, fun t ht ↦ ?_⟩
  · rcases hw.maxTs with h | h
    · exact h
    · obtain ⟨x, hx⟩ := exists_mem_of_ne_nil _ hne
      have heq : w.maxTs = x.1 := (h ▸ hts x hx : w.maxTs ≤ x.1).antisymm (hw.upper x hx)
      exact heq ▸ List.mem_map_of_mem hx
  · obtain ⟨x, hx, rfl⟩ := List.mem_map.mp ht
    exact hw.upper x hx

end SstWriter

/-- The metadata reports the rows of the file: how many there are, and their time bounds. -/
structure SstOutput.Reports (sst : SstOutput ρ) : Prop where
  rowCount : sst.rowCount = sst.rows.length
  minTs : IsLeast {t | t ∈ sst.rows.map Prod.fst} sst.minTs
  maxTs : IsGreatest {t | t ∈ sst.rows.map Prod.fst} sst.maxTs

/-- The file has the newest rows, and its metadata is right. -/
structure SstOutput.Exact (sst : SstOutput ρ) (xs : RowBatch ρ) : Prop extends sst.Reports where
  newest : IsNewest sst.rows xs

theorem keys_of_isNewest {out xs : RowBatch ρ} (h : IsNewest out xs) {t : ℤ} :
    t ∈ out.map Prod.fst ↔ t ∈ xs.map Prod.fst := by
  rw [← not_iff_not, ← KWayMerge.lookup_eq_none_iff, h.lookup, lastRow_eq_none_iff]

/-- **The writer's file is the right one** if and only if it is given the newest rows. -/
theorem writeSst_exact_iff (identity : SstIdentity) (dataDir : String) (fileSize : ℕ)
    {batches : List (Result (RowBatch ρ))} {xs : RowBatch ρ} (hne : xs ≠ [])
    (hts : ∀ x ∈ xs, i64Min ≤ x.1 ∧ x.1 ≤ i64Max) :
    (∃ sst, writeSstStreamingTryWithConfig identity dataDir fileSize batches = .ok sst ∧
        sst.Exact xs) ↔
      ∃ bs : List (RowBatch ρ), batches = bs.map .ok ∧ IsNewest bs.flatten xs := by
  constructor
  · rintro ⟨_, hsst, hex⟩
    obtain ⟨w, hw, hsst⟩ := Result.bind_eq_ok.mp hsst
    obtain ⟨bs, rfl, rfl⟩ := SstWriter.writeAll_eq_ok.mp hw
    split_ifs at hsst
    cases hsst
    have hnew := hex.newest
    rw [SstWriter.rows_foldl_write] at hnew
    exact ⟨bs, rfl, hnew⟩
  · rintro ⟨bs, rfl, hnew⟩
    have hrows := SstWriter.rows_foldl_write SstWriter.start bs
    have htrk := SstWriter.tracks_start.foldl_write (pairwise_flatten.mp hnew.sorted).1
    set w := bs.foldl SstWriter.write SstWriter.start
    have hw : w.rows = bs.flatten := hrows
    have hkeys (x : ℤ × ρ) (hx : x ∈ w.rows) : i64Min ≤ x.1 ∧ x.1 ≤ i64Max := by
      have hmem := (keys_of_isNewest (hw ▸ hnew)).mp (List.mem_map_of_mem hx)
      obtain ⟨y, hy, heq⟩ := List.mem_map.mp hmem
      exact heq ▸ hts y hy
    have hwne : w.rows ≠ [] := by
      obtain ⟨x, hx⟩ := exists_mem_of_ne_nil _ hne
      have hmem := (keys_of_isNewest (hw ▸ hnew)).mpr (List.mem_map_of_mem hx)
      exact fun h ↦ not_mem_nil (map_eq_nil_iff.mpr h ▸ hmem)
    have hcnt : w.rowCount ≠ 0 := by
      rw [htrk.rowCount]
      exact fun h ↦ hwne (eq_nil_of_length_eq_zero h)
    refine ⟨_, Result.bind_eq_ok.mpr ⟨w, SstWriter.writeAll_eq_ok.mpr ⟨bs, rfl, rfl⟩,
      if_neg hcnt⟩, ⟨htrk.rowCount, ?_, ?_⟩, hw ▸ hnew⟩
    · exact htrk.isLeast hwne fun x hx ↦ (hkeys x hx).2
    · exact htrk.isGreatest hwne fun x hx ↦ (hkeys x hx).1

/-! ## The kept entries -/

theorem FlushEntry.ts_le {a b : FlushEntry} (h : a ≤ b) : a.ts ≤ b.ts := by
  rcases Prod.Lex.le_iff.mp h with h | h
  · exact h.le
  · exact h.1.le

namespace SortedFlush

variable {chunks : List (RowBatch ρ)} {e : FlushEntry}

theorem mem_entries :
    e ∈ entries chunks ↔
      ∃ c r x, rowAt chunks (c, r) = some x ∧ e = .new x.1 c r := by
  simp only [entries, mem_flatMap, List.mem_map, Prod.exists, mem_zipIdx_iff_getElem?,
    rowAt, bind_eq_some_iff]
  constructor
  · rintro ⟨batch, c, hbat, t, v, r, hrow, rfl⟩
    exact ⟨c, r, t, v, ⟨batch, hbat, hrow⟩, rfl⟩
  · rintro ⟨c, r, t, v, ⟨batch, hbat, hrow⟩, rfl⟩
    exact ⟨batch, c, hbat, t, v, r, hrow, rfl⟩

theorem entries_sorted : ((entries chunks).insertionSort (· ≤ ·)).Pairwise (· ≤ ·) :=
  pairwise_insertionSort _ _

theorem mem_keptEntries :
    e ∈ keptEntries chunks ↔
      e ∈ entries chunks ∧ ∀ e' ∈ entries chunks, e'.ts = e.ts → e' ≤ e := by
  rw [keptEntries, mem_lastOfRuns (fun _ _ ↦ ts_le) entries_sorted]
  simp only [mem_insertionSort]

theorem mem_flatten_iff {x : ℤ × ρ} :
    x ∈ chunks.flatten ↔ ∃ coord, rowAt chunks coord = some x := by
  rw [mem_flatten]
  simp only [rowAt, bind_eq_some_iff]
  constructor
  · rintro ⟨batch, hbat, hx⟩
    obtain ⟨c, hc⟩ := mem_iff_getElem?.mp hbat
    obtain ⟨r, hr⟩ := mem_iff_getElem?.mp hx
    exact ⟨(c, r), batch, hc, hr⟩
  · rintro ⟨_, batch, hc, hr⟩
    exact ⟨batch, mem_of_getElem? hc, mem_of_getElem? hr⟩

theorem exists_mem_keptEntries_iff {t : ℤ} :
    (∃ e ∈ keptEntries chunks, e.ts = t) ↔ t ∈ chunks.flatten.map Prod.fst := by
  constructor
  · rintro ⟨_, he, rfl⟩
    obtain ⟨c, r, x, hx, rfl⟩ := mem_entries.mp (mem_keptEntries.mp he).1
    exact List.mem_map_of_mem (mem_flatten_iff.mpr ⟨(c, r), hx⟩)
  · intro ht
    obtain ⟨x, hx, rfl⟩ := List.mem_map.mp ht
    obtain ⟨⟨c, r⟩, hcoord⟩ := mem_flatten_iff.mp hx
    have hmem : new x.1 c r ∈ (entries chunks).insertionSort (· ≤ ·) :=
      (mem_insertionSort _).mpr (mem_entries.mpr ⟨c, r, x, hcoord, rfl⟩)
    exact exists_mem_lastOfRuns hmem

/-- The row that should be written for an entry. -/
def newestFor (chunks : List (RowBatch ρ)) (e : FlushEntry) : Option (ℤ × ρ) :=
  (lastRow chunks.flatten e.ts).map fun r ↦ (e.ts, r)

theorem newestFor_eq_some_iff {t : ℤ} {r : ρ} :
    newestFor chunks e = some (t, r) ↔ e.ts = t ∧ lastRow chunks.flatten t = some r := by
  rw [newestFor, map_eq_some_iff]
  constructor
  · rintro ⟨_, hr', heq⟩
    cases heq
    exact ⟨rfl, hr'⟩
  · rintro ⟨rfl, hr⟩
    exact ⟨r, hr, rfl⟩

theorem isSome_newestFor (h : e ∈ keptEntries chunks) : (newestFor chunks e).isSome := by
  rw [newestFor, isSome_map, isSome_iff_ne_none]
  exact fun hnone ↦ lastRow_eq_none_iff.mp hnone (exists_mem_keptEntries_iff.mp ⟨e, h, rfl⟩)

theorem isNewest_filterMap_newestFor :
    IsNewest ((keptEntries chunks).filterMap (newestFor chunks)) chunks.flatten := by
  refine isNewest_iff.mpr ⟨?_, fun t r ↦ ?_⟩
  · rw [pairwise_filterMap]
    refine (lastOfRuns_sorted (fun _ _ ↦ ts_le) entries_sorted).imp ?_
    rintro a b hlt ⟨t, _⟩ hx ⟨_, _⟩ hy
    rwa [(newestFor_eq_some_iff.mp hx).1, (newestFor_eq_some_iff.mp hy).1] at hlt
  · rw [mem_filterMap]
    constructor
    · rintro ⟨e, -, he⟩
      exact (newestFor_eq_some_iff.mp he).2
    · intro hr
      have ht : t ∈ chunks.flatten.map Prod.fst := by
        by_contra hnot
        cases hr.symm.trans (lastRow_eq_none_iff.mpr hnot)
      obtain ⟨e, he, hts⟩ := exists_mem_keptEntries_iff.mpr ht
      exact ⟨e, he, newestFor_eq_some_iff.mpr ⟨hts, hr⟩⟩

/-- The rows at the kept coordinates are the newest ones if and only if each of them is. -/
theorem exists_rows_isNewest_iff :
    (∃ rows : RowBatch ρ,
        ((keptEntries chunks).map coord).map (rowAt chunks) = rows.map some ∧
          IsNewest rows chunks.flatten) ↔
      ∀ e ∈ keptEntries chunks, rowAt chunks e.coord = newestFor chunks e := by
  have hsome : ((keptEntries chunks).filterMap (newestFor chunks)).map some =
      (keptEntries chunks).map (newestFor chunks) :=
    map_some_filterMap fun e he ↦ isSome_newestFor he
  rw [List.map_map, ← map_inj_left, ← hsome]
  constructor
  · rintro ⟨_, hrows, hnew⟩
    rw [← hnew.unique isNewest_filterMap_newestFor]
    exact hrows
  · exact fun h ↦ ⟨_, h, isNewest_filterMap_newestFor⟩

end SortedFlush

/-- **The coordinates fit.** For every timestamp, the row at the largest of its coordinates cut to
32 bits is its last row. -/
def CoordsFit (chunks : List (RowBatch ρ)) : Prop :=
  ∀ c r x, rowAt chunks (c, r) = some x →
    (∀ c' r' x', rowAt chunks (c', r') = some x' → x'.1 = x.1 →
      toLex (asU32 c', asU32 r') ≤ toLex (asU32 c, asU32 r)) →
    ∃ v, lastRow chunks.flatten x.1 = some v ∧
      rowAt chunks (asU32 c, asU32 r) = some (x.1, v)

theorem SortedFlush.forall_keptEntries_iff :
    (∀ e ∈ keptEntries chunks, rowAt chunks e.coord = newestFor chunks e) ↔
      CoordsFit chunks := by
  constructor
  · intro h c r x hx hmax
    have hkept : new x.1 c r ∈ keptEntries chunks := by
      refine mem_keptEntries.mpr ⟨mem_entries.mpr ⟨c, r, x, hx, rfl⟩, fun e' he' hts ↦ ?_⟩
      obtain ⟨c', r', x', hx', rfl⟩ := mem_entries.mp he'
      exact Prod.Lex.le_iff.mpr (.inr ⟨hts, hmax c' r' x' hx' hts⟩)
    obtain ⟨⟨_, v⟩, hv⟩ := isSome_iff_exists.mp (isSome_newestFor hkept)
    obtain ⟨hts, hlast⟩ := newestFor_eq_some_iff.mp hv
    cases hts
    exact ⟨v, hlast, (h _ hkept).trans hv⟩
  · intro h e he
    obtain ⟨hmem, hmax⟩ := mem_keptEntries.mp he
    obtain ⟨c, r, x, hx, rfl⟩ := mem_entries.mp hmem
    obtain ⟨v, hlast, hrow⟩ := h c r x hx fun c' r' x' hx' hts ↦ by
      have hle := hmax (.new x'.1 c' r') (mem_entries.mpr ⟨c', r', x', hx', rfl⟩) hts
      rcases Prod.Lex.le_iff.mp hle with hlt | hle
      · exact absurd hts hlt.ne
      · exact hle.2
    have hnew : newestFor chunks (.new x.1 c r) = some (x.1, v) :=
      newestFor_eq_some_iff.mpr ⟨rfl, hlast⟩
    exact hrow.trans hnew.symm

/-- The rows in front of a coordinate, the row at it, and those behind. -/
theorem flatten_eq_of_rowAt {c r : ℕ} {x : ℤ × ρ} (h : rowAt chunks (c, r) = some x) :
    ∃ before behind, chunks.flatten = before ++ x :: behind ∧
      ∀ y ∈ behind, ∃ c' r', rowAt chunks (c', r') = some y ∧
        toLex (c, r) < toLex (c', r') := by
  obtain ⟨batch, hbat, hx⟩ := bind_eq_some_iff.mp h
  obtain ⟨_, rfl⟩ := List.getElem?_eq_some_iff.mp hbat
  obtain ⟨_, rfl⟩ := List.getElem?_eq_some_iff.mp hx
  refine ⟨(chunks.take c).flatten ++ chunks[c].take r,
    chunks[c].drop (r + 1) ++ (chunks.drop (c + 1)).flatten, ?_, fun y hy ↦ ?_⟩
  · have hch : chunks.take c ++ chunks[c] :: chunks.drop (c + 1) = chunks := by
      rw [getElem_cons_drop, take_append_drop]
    have hrows : chunks[c].take r ++ chunks[c][r] :: chunks[c].drop (r + 1) = chunks[c] := by
      rw [getElem_cons_drop, take_append_drop]
    conv_lhs => rw [← hch, flatten_append, flatten_cons]
    conv_lhs => arg 2; arg 1; rw [← hrows]
    simp only [append_assoc, cons_append]
  · rcases mem_append.mp hy with hy | hy
    · obtain ⟨i, hi⟩ := mem_iff_getElem?.mp hy
      rw [getElem?_drop] at hi
      refine ⟨c, r + 1 + i, bind_eq_some_iff.mpr ⟨_, hbat, hi⟩, ?_⟩
      exact Prod.Lex.lt_iff.mpr (.inr ⟨rfl, by simp; omega⟩)
    · obtain ⟨⟨c', r'⟩, hcoord⟩ := mem_flatten_iff.mp hy
      obtain ⟨_, hbat', hy⟩ := bind_eq_some_iff.mp hcoord
      rw [getElem?_drop] at hbat'
      refine ⟨c + 1 + c', r', bind_eq_some_iff.mpr ⟨_, hbat', hy⟩, ?_⟩
      exact Prod.Lex.lt_iff.mpr (.inl (by simp; omega))

theorem coordsFit_of_length_le (hch : chunks.length ≤ 2 ^ 32)
    (hrows : ∀ b ∈ chunks, b.length ≤ 2 ^ 32) : CoordsFit chunks := by
  have hfit {c r : ℕ} {x : ℤ × ρ} (h : rowAt chunks (c, r) = some x) :
      asU32 c = c ∧ asU32 r = r := by
    obtain ⟨batch, hbat, hx⟩ := bind_eq_some_iff.mp h
    have hc := (List.getElem?_eq_some_iff.mp hbat).1
    have hr := (List.getElem?_eq_some_iff.mp hx).1
    have hle := hrows batch (mem_of_getElem? hbat)
    exact ⟨Nat.mod_eq_of_lt (by omega), Nat.mod_eq_of_lt (by omega)⟩
  intro c r x hx hmax
  rw [(hfit hx).1, (hfit hx).2] at hmax ⊢
  refine ⟨x.2, ?_, hx⟩
  obtain ⟨_, _, hflat, hbeh⟩ := flatten_eq_of_rowAt hx
  rw [hflat]
  refine lastRow_append_cons fun hmem ↦ ?_
  obtain ⟨y, hy, hts⟩ := List.mem_map.mp hmem
  obtain ⟨c', r', hy', hlt⟩ := hbeh y hy
  have hle := hmax c' r' y hy' hts
  rw [(hfit hy').1, (hfit hy').2] at hle
  exact hle.not_gt hlt

/-! ## The flush -/

theorem planFlush_eq_error (h : chunks.flatten = []) :
    planFlush chunks = .error (.storage "nothing to flush") := by
  have hnone : nonEmptyBatches chunks = [] := by
    refine filter_eq_nil_iff.mpr fun b hb ↦ ?_
    simp [flatten_eq_nil_iff.mp h b hb]
  rw [planFlush, hnone]
  rfl

theorem SortedFlush.build_eq_ok (hne : chunks.flatten ≠ []) :
    build chunks = .ok ⟨chunks, (keptEntries chunks).map coord⟩ := by
  obtain ⟨x, hx⟩ := exists_mem_of_ne_nil _ hne
  obtain ⟨⟨c, r⟩, hcoord⟩ := mem_flatten_iff.mp hx
  have hmem : new x.1 c r ∈ entries chunks := mem_entries.mpr ⟨c, r, x, hcoord, rfl⟩
  rw [build, if_neg]
  rw [List.isEmpty_iff]
  exact ne_nil_of_mem hmem

theorem SortedFlush.windowBatches_isNewest_iff (window : ℕ) :
    (∃ bs : List (RowBatch ρ),
        (⟨chunks, (keptEntries chunks).map coord⟩ : SortedFlush ρ).windowBatches window =
          bs.map .ok ∧ IsNewest bs.flatten chunks.flatten) ↔
      CoordsFit chunks := by
  rw [← forall_keptEntries_iff, ← exists_rows_isNewest_iff, windowBatches]
  obtain ⟨parts, hpart, hflat⟩ := SortedFlushBatches.toList_eq
    ((keptEntries chunks).map coord).length
    ⟨chunks, (keptEntries chunks).map coord, max window 1, 0⟩ (by simp) (by simp)
  have hcoor : parts.flatten = (keptEntries chunks).map coord := hflat.trans drop_zero
  simp only [hpart]
  rw [← hcoor]
  constructor
  · rintro ⟨bs, hbs, hnew⟩
    refine ⟨_, ?_, hnew⟩
    rw [map_flatten, ← flatMap_def]
    exact (Windows.exists_map_ok_iff fun _ _ _ ↦ gatherRows_eq_ok).mp ⟨bs, hbs, rfl⟩
  · rintro ⟨_, hrows, hnew⟩
    rw [map_flatten, ← flatMap_def] at hrows
    obtain ⟨bs, hbs, rfl⟩ := (Windows.exists_map_ok_iff fun _ _ _ ↦ gatherRows_eq_ok).mpr hrows
    exact ⟨bs, hbs, hnew⟩

section

variable {chunks : List (RowBatch ρ)} {dataDir : String} {flushWindowRows : ℕ} {nowMs : ℤ}
variable {minLsn maxLsn fileSize : ℕ}

theorem writeMemtableParquet_of_flatten_eq_nil (h : chunks.flatten = []) :
    writeMemtableParquet chunks dataDir flushWindowRows nowMs minLsn maxLsn fileSize =
      .error (.storage "nothing to flush") := by
  rw [writeMemtableParquet, planFlush_eq_error h]
  exact ite_self _

/-- The batches that are given to the writer. -/
def flushedBatches (chunks : List (RowBatch ρ)) (flushWindowRows : ℕ) :
    List (Result (RowBatch ρ)) :=
  if chunksStrictlyOrdered chunks then chunks.map .ok
  else
    windowBatches ⟨chunks, (keptEntries chunks).map coord⟩
      (max flushWindowRows 1)

theorem writeMemtableParquet_eq (hne : chunks.flatten ≠ []) :
    writeMemtableParquet chunks dataDir flushWindowRows nowMs minLsn maxLsn fileSize =
      (writeSstStreamingTryWithConfig (.freshFlush nowMs minLsn maxLsn) (flushTmpDir dataDir)
        fileSize (flushedBatches (nonEmptyBatches chunks) flushWindowRows)).map fun staged ↦
        let path := dataDir ++ "/" ++ (SstIdentity.freshFlush nowMs minLsn maxLsn).filename
        { staged with filePath := path } := by
  have hch : ¬ chunks.isEmpty = true := by
    rintro h
    rw [List.isEmpty_iff.mp h] at hne
    exact hne rfl
  rw [← flatten_nonEmptyBatches chunks] at hne
  have hnemp : ¬ (nonEmptyBatches chunks).isEmpty = true := by
    rintro h
    rw [List.isEmpty_iff.mp h] at hne
    exact hne rfl
  rw [writeMemtableParquet, if_neg hch, planFlush, flushedBatches, build_eq_ok hne]
  simp only [if_neg hnemp]
  split_ifs with hord
  · rfl
  · rfl

theorem writeMemtableParquet_exact_iff_isNewest (hne : chunks.flatten ≠ [])
    (hts : ∀ x ∈ chunks.flatten, i64Min ≤ x.1 ∧ x.1 ≤ i64Max) :
    (∃ sst, writeMemtableParquet chunks dataDir flushWindowRows nowMs minLsn maxLsn fileSize =
        .ok sst ∧ sst.Exact chunks.flatten) ↔
      ∃ bs : List (RowBatch ρ), flushedBatches (nonEmptyBatches chunks) flushWindowRows =
        bs.map .ok ∧ IsNewest bs.flatten chunks.flatten := by
  rw [writeMemtableParquet_eq hne, ← writeSst_exact_iff (.freshFlush nowMs minLsn maxLsn)
    (flushTmpDir dataDir) fileSize hne hts]
  constructor
  · rintro ⟨_, hsst, hex⟩
    cases hstage : writeSstStreamingTryWithConfig (.freshFlush nowMs minLsn maxLsn)
      (flushTmpDir dataDir) fileSize (flushedBatches (nonEmptyBatches chunks) flushWindowRows) with
    | error e =>
      rw [hstage] at hsst
      cases hsst
    | ok staged =>
      rw [hstage] at hsst
      cases hsst
      exact ⟨staged, rfl, { hex with }, hex.newest⟩
  · rintro ⟨_, hstage, hex⟩
    rw [hstage]
    exact ⟨_, rfl, { hex with }, hex.newest⟩

theorem flushedBatches_sorted_isNewest_iff
    (h : chunksStrictlyOrdered (nonEmptyBatches chunks) = false) :
    (∃ bs : List (RowBatch ρ), flushedBatches (nonEmptyBatches chunks) flushWindowRows =
        bs.map .ok ∧ IsNewest bs.flatten chunks.flatten) ↔
      CoordsFit (nonEmptyBatches chunks) := by
  rw [flushedBatches, h, ← flatten_nonEmptyBatches chunks]
  exact windowBatches_isNewest_iff _

/-- **A flush writes the newest rows.** Without rows there is nothing to flush. Otherwise the file
has for every timestamp the row that was written last, in order, and its row count and time bounds
are those of its rows, if and only if the chunks are strictly ordered or the coordinates fit. -/
theorem writeMemtableParquet_exact_iff
    (hts : ∀ x ∈ chunks.flatten, i64Min ≤ x.1 ∧ x.1 ≤ i64Max) :
    (chunks.flatten = [] →
        writeMemtableParquet chunks dataDir flushWindowRows nowMs minLsn maxLsn fileSize =
          .error (.storage "nothing to flush")) ∧
      (chunks.flatten ≠ [] →
        ((∃ sst, writeMemtableParquet chunks dataDir flushWindowRows nowMs minLsn maxLsn fileSize =
            .ok sst ∧ sst.Exact chunks.flatten) ↔
          chunksStrictlyOrdered (nonEmptyBatches chunks) = true ∨
            CoordsFit (nonEmptyBatches chunks))) := by
  refine ⟨writeMemtableParquet_of_flatten_eq_nil, fun hne ↦ ?_⟩
  rw [writeMemtableParquet_exact_iff_isNewest hne hts]
  cases hord : chunksStrictlyOrdered (nonEmptyBatches chunks) with
  | true =>
    refine iff_of_true ⟨nonEmptyBatches chunks, if_pos hord, ?_⟩ (.inl rfl)
    have hsort := chunksStrictlyOrdered_eq_true_iff.mp hord
    rw [flatten_nonEmptyBatches] at hsort ⊢
    exact isNewest_of_perm (.refl _) hsort
  | false =>
    rw [flushedBatches_sorted_isNewest_iff hord]
    exact (or_iff_right Bool.false_ne_true).symm

end

/-- Three chunks out of order, one of them empty, with a timestamp in both others. -/
def sampleChunks : List (RowBatch Char) := [[(3, 'a'), (1, 'b')], [], [(2, 'c'), (3, 'd')]]

theorem sampleChunks_flushed :
    ∃ sst, writeMemtableParquet sampleChunks "data" 2 0 1 4 100 = .ok sst ∧
      sst.Exact sampleChunks.flatten := by
  refine ((writeMemtableParquet_exact_iff ?_).2 (by decide)).mpr (.inr ?_)
  · decide
  · exact coordsFit_of_length_le (by decide) (by decide)

/-- Rows with the same timestamp, of which the last is another one. -/
def repeatedChunk (n : ℕ) : RowBatch Char := List.replicate n (1, 'b') ++ [(1, 'c')]

variable {n : ℕ}

theorem mem_repeatedChunk {x : ℤ × Char} (h : x ∈ repeatedChunk n) : x.1 = 1 := by
  rcases mem_append.mp h with h | h
  · rw [eq_of_mem_replicate h]
  · rw [mem_singleton.mp h]

theorem lastRow_repeatedChunk (n : ℕ) : lastRow (repeatedChunk n) 1 = some 'c' :=
  lastRow_append_cons not_mem_nil

/-- The last position is cut to the first one, and the largest is that of the row before. -/
theorem not_coordsFit_repeatedChunk (hn : n = 2 ^ 32) : ¬ CoordsFit [repeatedChunk n] := by
  intro hfit
  have hrow : rowAt [repeatedChunk n] (0, n - 1) = some (1, 'b') := by
    simp only [rowAt, getElem?_cons_zero, bind_some, repeatedChunk]
    rw [getElem?_append_left (by simp; omega), getElem?_replicate_of_lt (by omega)]
  have hmax : asU32 (n - 1) = n - 1 := Nat.mod_eq_of_lt (by omega)
  obtain ⟨_, hlast, hv⟩ := hfit 0 (n - 1) (1, 'b') hrow fun c r x hx _ ↦ by
    obtain ⟨_, hbat, -⟩ := bind_eq_some_iff.mp hx
    obtain rfl : c = 0 := by
      have := (List.getElem?_eq_some_iff.mp hbat).1
      simpa using this
    refine Prod.Lex.le_iff.mpr (.inr ⟨rfl, ?_⟩)
    have : asU32 r < 2 ^ 32 := Nat.mod_lt _ (by decide)
    simp only [ofLex_toLex, hmax]
    omega
  rw [flatten_singleton, lastRow_repeatedChunk] at hlast
  cases hlast
  rw [hmax] at hv
  cases hrow.symm.trans hv

theorem not_exact_repeatedChunk (hn : n = 2 ^ 32) :
    ¬ ∃ sst, writeMemtableParquet [repeatedChunk n] "data" 8192 0 1 1 100 = .ok sst ∧
      sst.Exact (repeatedChunk n) := by
  have hflat : [repeatedChunk n].flatten = repeatedChunk n := flatten_singleton
  have hnemp : nonEmptyBatches [repeatedChunk n] = [repeatedChunk n] :=
    filter_cons_of_pos (by simp [repeatedChunk])
  have hord : chunksStrictlyOrdered (nonEmptyBatches [repeatedChunk n]) = false := by
    rw [Bool.eq_false_iff, Ne, chunksStrictlyOrdered_eq_true_iff, flatten_nonEmptyBatches, hflat]
    intro hsort
    have hmem : ((1, 'b') : ℤ × Char) ∈ List.replicate n (1, 'b') :=
      mem_replicate.mpr ⟨by omega, rfl⟩
    exact absurd ((pairwise_append.mp hsort).2.2 _ hmem _ mem_cons_self) (lt_irrefl _)
  have hne : [repeatedChunk n].flatten ≠ [] := by simp [repeatedChunk]
  have hts : ∀ x ∈ [repeatedChunk n].flatten, i64Min ≤ x.1 ∧ x.1 ≤ i64Max := by
    intro x hx
    rw [mem_repeatedChunk (hflat ▸ hx)]
    decide
  rintro ⟨sst, hsst, hex⟩
  rw [← hflat] at hex
  have hnew := (writeMemtableParquet_exact_iff_isNewest hne hts).mp ⟨sst, hsst, hex⟩
  rw [flushedBatches_sorted_isNewest_iff hord, hnemp] at hnew
  exact not_coordsFit_repeatedChunk hn hnew

/-- A chunk with `2 ^ 32` rows and one more, all with the same timestamp. The last row has the
position `2 ^ 32`, which is cut to `0`, and the row before it is written. -/
theorem last_row_lost_beyond_32_bits :
    lastRow (repeatedChunk (2 ^ 32)) 1 = some 'c' ∧
      ¬ ∃ sst, writeMemtableParquet [repeatedChunk (2 ^ 32)] "data" 8192 0 1 1 100 = .ok sst ∧
        sst.Exact (repeatedChunk (2 ^ 32)) :=
  ⟨lastRow_repeatedChunk _, not_exact_repeatedChunk rfl⟩

end MonoTS
