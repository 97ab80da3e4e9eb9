import MonoTS.Compaction.FlushPlan

/-!
# The merge, batch by batch

`merge_files` reads its inputs batch by batch. A heap has a key for every input that is not
exhausted; the loop pops the smallest timestamp, of the newest input that has it, notes the row
unless its timestamp was the last one, and advances that input. Noted rows are references: the
batch, the row in it, and a key for the batch under which a chunk keeps it. Every `8192` rows the
chunk looks its references up and becomes an output batch.

The references are the rows of the merge of `MonoTS.Compaction.Merge`, with more attached to them
(`MergeState.Represents.run_eq`, and `map_value_references` for forgetting it). What is left to say
is when a reference finds its row. The key packs the number of the input and of the batch into 64
bits, and the position in the batch is cut to 32 bits; `mergeFiles_exact_iff` says that the output
is right if and only if this does not lead to another row, and `resolves_of_length_le` that it does
not for up to `2 ^ 24` inputs with fewer than `2 ^ 40` batches of up to `2 ^ 32` rows.

Reading a file and aligning its batches with the schema do not fail here.
-/

open List Option KWayMerge

namespace MonoTS

open Windows SstWriter

namespace MergeStream

variable {ρ : Type*}

/-! ## The heap -/

/-- The timestamp an input is at. -/
structure HeapKey where
  ts : ℤ
  sourceIdx : ℕ

/-- The order in which keys are popped: smaller timestamps first, then later inputs. -/
def HeapKey.rank (k : HeapKey) : ℤ ×ₗ ℕᵒᵈ := toLex (k.ts, OrderDual.toDual k.sourceIdx)

def popKey (heap : List HeapKey) : Option (HeapKey × List HeapKey) :=
  popMin HeapKey.rank heap

/-! ## The cursors -/

/-- An input: the batches that have not been read yet, the current one and the row in it. -/
structure ParquetCursor (ρ : Type*) where
  reader : List (RowBatch ρ)
  current : Option (RowBatch ρ)
  row : ℕ
  sourceIdx : ℕ
  loadCount : ℕ

/-- The key of a batch, in 64 bits. -/
def packedKey (sourceIdx loadCount : ℕ) : ℕ := (sourceIdx <<< 40) % 2 ^ 64 ||| loadCount

namespace ParquetCursor

/-- The loop over the reader. Batches without rows are skipped and not counted. -/
def loadFrom (c : ParquetCursor ρ) : List (RowBatch ρ) → ParquetCursor ρ
  | [] => { c with reader := [], current := none, row := 0 }
  | [] :: reader => c.loadFrom reader
  | (x :: rows) :: reader =>
    { c with
      reader := reader
      current := some (x :: rows)
      row := 0
      loadCount := (c.loadCount + 1) % 2 ^ 64 }

variable (c : ParquetCursor ρ)

def loadNextBatch : ParquetCursor ρ := c.loadFrom c.reader

/-- `ParquetCursor::open` -/
def openFile (batches : List (RowBatch ρ)) (sourceIdx : ℕ) : ParquetCursor ρ :=
  loadNextBatch ⟨batches, none, 0, sourceIdx, 0⟩

def peekTs : Option ℤ :=
  c.current.bind fun batch ↦ batch[c.row]?.map Prod.fst

def currentRowOwned : Result (RowBatch ρ × ℕ × ℕ) :=
  match c.current with
  | none => .error (.storage "merge cursor exhausted")
  | some batch => .ok (batch, c.row, packedKey c.sourceIdx c.loadCount)

def advance : ParquetCursor ρ :=
  let c := { c with row := c.row + 1 }
  if c.current.any fun batch ↦ batch.length ≤ c.row then c.loadNextBatch else c

end ParquetCursor

/-! ## The chunk -/

/-- The rows of the next output batch, as references to batches that are kept once for every key. -/
structure MergeChunk (ρ : Type*) extends Gather.Table ℕ (ℤ × ρ) where
  len : ℕ
  deriving DecidableEq, Repr

namespace MergeChunk

def new : MergeChunk ρ := ⟨.empty, 0⟩

def push (c : MergeChunk ρ) (batch : RowBatch ρ) (row key : ℕ) : MergeChunk ρ :=
  ⟨c.toTable.push batch (asU32 row) key, c.len + 1⟩

def build (c : MergeChunk ρ) : Result (RowBatch ρ) :=
  if c.len = 0 then .error (.storage "empty merge chunk") else gatherRows c.sources c.indices

end MergeChunk

/-! ## The loop -/

def streamMergeBatchRows : ℕ := 8192

/-- What the loop has collected. -/
structure MergeOutput (ρ : Type*) where
  chunk : MergeChunk ρ
  outBatches : List (RowBatch ρ)
  totalRows : ℕ
  minTs : ℤ
  maxTs : ℤ
  deriving DecidableEq, Repr

namespace MergeOutput

def start : MergeOutput ρ := ⟨.new, [], 0, i64Max, i64Min⟩

variable (o : MergeOutput ρ)

/-- Note a row; a full chunk becomes a batch. -/
def emit (ts : ℤ) (batch : RowBatch ρ) (row key : ℕ) : Result (MergeOutput ρ) := do
  let o := { o with
    minTs := min o.minTs ts
    maxTs := max o.maxTs ts
    chunk := o.chunk.push batch row key
    totalRows := o.totalRows + 1 }
  if streamMergeBatchRows ≤ o.chunk.len then
    let built ← o.chunk.build
    .ok { o with outBatches := o.outBatches ++ [built], chunk := .new }
  else .ok o

/-- The batches, with what is left in the chunk. -/
def finish : Result (List (RowBatch ρ)) :=
  if 0 < o.chunk.len then do
    let built ← o.chunk.build
    .ok (o.outBatches ++ [built])
  else .ok o.outBatches

end MergeOutput

open MergeOutput

/-- The state of the merge loop. -/
structure MergeState (ρ : Type*) where
  cursors : List (ParquetCursor ρ)
  heap : List HeapKey
  lastTs : Option ℤ
  out : MergeOutput ρ

/-- The body of the loop, or nothing when the heap is empty. -/
def MergeState.step (s : MergeState ρ) : Option (Result (MergeState ρ)) :=
  match popKey s.heap with
  | none => none
  | some (⟨ts, sourceIdx⟩, heap) => some <|
    match s.cursors[sourceIdx]? with
    | none => .error (.storage "index out of bounds")
    | some cursor => do
      let out ←
        if s.lastTs = some ts then .ok s.out
        else do
          let (batch, row, key) ← cursor.currentRowOwned
          s.out.emit ts batch row key
      let advanced := cursor.advance
      let heap := match advanced.peekTs with
        | some nextTs => ⟨nextTs, sourceIdx⟩ :: heap
        | none => heap
      .ok ⟨s.cursors.set sourceIdx advanced, heap, some ts, out⟩

/-- The loop, with a bound on the number of rounds. -/
def MergeState.run : ℕ → MergeState ρ → Result (MergeOutput ρ)
  | 0, s => .ok s.out
  | fuel + 1, s =>
    match s.step with
    | none => .ok s.out
    | some next => do (← next).run fuel

/-- An input file: what its name says, and its batches. -/
structure MergeInput (ρ : Type*) where
  identity : SstIdentity
  batches : List (RowBatch ρ)

/-- The rows of the input. -/
def MergeInput.rows (f : MergeInput ρ) : RowBatch ρ := f.batches.flatten

/-- The cursors and the heap before the loop. -/
def openFiles (files : List (MergeInput ρ)) : MergeState ρ :=
  let cursors := files.zipIdx.map fun (f, idx) ↦ ParquetCursor.openFile f.batches idx
  { cursors
    heap := cursors.zipIdx.filterMap fun (cursor, idx) ↦ cursor.peekTs.map fun ts ↦ ⟨ts, idx⟩
    lastTs := none
    out := .start }

/-- Merge the files. Every round of the loop consumes a row, so that their number is a bound. -/
def mergeFiles (dataDir : String) (nowMs : ℤ) (fileSize : ℕ) (files : List (MergeInput ρ)) :
    Result (SstOutput ρ) :=
  if files.length < 2 then .error (.storage "compaction requires at least two files")
  else do
    let identity := SstIdentity.afterInnerMergeRun nowMs (files.map MergeInput.identity)
    let out ← (openFiles files).run (files.map fun f ↦ f.rows.length).sum
    let outBatches ← out.finish
    if out.totalRows = 0 then .error (.storage "empty merge result")
    else
      .ok ⟨.fromIdentity identity (dataDir ++ "/" ++ identity.filename) out.minTs out.maxTs
        out.totalRows fileSize, outBatches.flatten⟩

/-! ## References -/

/-- A row with what is noted of it: its batch, its position, the key of the batch. -/
structure RowRef (ρ : Type*) where
  batch : RowBatch ρ
  row : ℕ
  key : ℕ
  value : ρ

variable (sourceIdx loadCount : ℕ) (batch : RowBatch ρ)

/-- The rows of a batch, as references. -/
def tagBatch : List (ℤ × RowRef ρ) :=
  batch.zipIdx.map fun (x, i) ↦ (x.1, ⟨batch, i, packedKey sourceIdx loadCount, x.2⟩)

/-- The rows that a cursor will read, after the given number of loads. -/
def tagBatches (sourceIdx : ℕ) : ℕ → List (RowBatch ρ) → List (ℤ × RowRef ρ)
  | _, [] => []
  | loadCount, [] :: reader => tagBatches sourceIdx loadCount reader
  | loadCount, (x :: rows) :: reader =>
    tagBatch sourceIdx ((loadCount + 1) % 2 ^ 64) (x :: rows) ++
      tagBatches sourceIdx ((loadCount + 1) % 2 ^ 64) reader

theorem map_value_tagBatch :
    (tagBatch sourceIdx loadCount batch).map (fun x ↦ (x.1, x.2.value)) = batch := by
  rw [tagBatch, List.map_map]
  exact zipIdx_map_fst 0 batch

theorem map_value_tagBatches (batches : List (RowBatch ρ)) :
    (tagBatches sourceIdx loadCount batches).map (fun x ↦ (x.1, x.2.value)) = batches.flatten := by
  induction batches generalizing loadCount with
  | nil => rfl
  | cons batch batches ih =>
    cases batch with
    | nil => exact ih loadCount
    | cons =>
      rw [tagBatches, map_append, map_value_tagBatch, ih, flatten_cons]

namespace ParquetCursor

/-- The rows from the current one on. -/
def rest (c : ParquetCursor ρ) : List (ℤ × RowRef ρ) :=
  (c.current.elim [] fun batch ↦ (tagBatch c.sourceIdx c.loadCount batch).drop c.row) ++
    tagBatches c.sourceIdx c.loadCount c.reader

/-- The cursor is at a row, or at the end. -/
structure Valid (c : ParquetCursor ρ) : Prop where
  row_lt : ∀ batch ∈ c.current, c.row < batch.length
  exhausted : c.current = none → c.reader = []

/-- The cursor reads the rows of the input. -/
structure Reads (cursor : ParquetCursor ρ) (sourceIdx : ℕ) (rows : List (ℤ × RowRef ρ)) :
    Prop extends cursor.Valid where
  source : cursor.sourceIdx = sourceIdx
  rest_eq : cursor.rest = rows

section

variable (c : ParquetCursor ρ) (reader : List (RowBatch ρ))

theorem loadFrom_reads :
    (c.loadFrom reader).Reads c.sourceIdx (tagBatches c.sourceIdx c.loadCount reader) := by
  induction reader with
  | nil => exact ⟨⟨nofun, fun _ ↦ rfl⟩, rfl, rfl⟩
  | cons batch reader ih =>
    cases batch with
    | nil => exact ih
    | cons =>
      refine ⟨⟨fun batch hbat ↦ ?_, nofun⟩, rfl, rfl⟩
      cases hbat
      exact Nat.succ_pos _

end

variable {c : ParquetCursor ρ}

theorem Valid.advance (h : c.Valid) : c.advance.Valid := by
  rw [ParquetCursor.advance]
  simp only
  split_ifs with hend
  · exact (loadFrom_reads _ _).toValid
  · refine ⟨fun batch hbat ↦ ?_, h.exhausted⟩
    refine not_le.mp fun hle ↦ hend ((Option.any_eq_true _ _).mpr ⟨batch, hbat, ?_⟩)
    exact decide_eq_true hle

theorem advance_sourceIdx (c : ParquetCursor ρ) : c.advance.sourceIdx = c.sourceIdx := by
  rw [ParquetCursor.advance]
  simp only
  split_ifs
  · exact (loadFrom_reads _ _).source
  · rfl

/-- A cursor at the end has no row to peek at. -/
theorem Valid.rest_eq_nil (h : c.Valid) (hnone : c.current = none) :
    c.rest = [] ∧ c.peekTs = none := by
  rw [rest, peekTs, hnone, h.exhausted hnone]
  exact ⟨rfl, rfl⟩

/-- **A cursor at a row**: what it reads there, and what is left for the advanced cursor. -/
theorem Valid.rest_eq_cons (h : c.Valid) {batch : RowBatch ρ} (hcur : c.current = some batch) :
    ∃ x, batch[c.row]? = some x ∧
      c.rest = (x.1, ⟨batch, c.row, packedKey c.sourceIdx c.loadCount, x.2⟩) :: c.advance.rest := by
  have hlt := h.row_lt batch hcur
  refine ⟨batch[c.row], getElem?_eq_getElem hlt, ?_⟩
  have hlen : (tagBatch c.sourceIdx c.loadCount batch).length = batch.length := by
    simp [tagBatch]
  have hdrop : (tagBatch c.sourceIdx c.loadCount batch).drop c.row =
      (batch[c.row].1, ⟨batch, c.row, packedKey c.sourceIdx c.loadCount, batch[c.row].2⟩) ::
        (tagBatch c.sourceIdx c.loadCount batch).drop (c.row + 1) := by
    rw [drop_eq_getElem_cons (hlen ▸ hlt)]
    simp [tagBatch]
  rw [rest, hcur, elim_some, hdrop, cons_append, ParquetCursor.advance]
  simp only [hcur, any_some, decide_eq_true_eq]
  split_ifs with hend
  · -- the batch is used up
    rw [drop_eq_nil_of_le (hlen ▸ hend), nil_append, loadNextBatch, (loadFrom_reads _ _).rest_eq]
  · rw [rest]
    simp only [elim_some]

end ParquetCursor

/-! ## The loop is the merge of the references -/

/-- An input of the merge of references. -/
abbrev RefCursor (ρ : Type*) := Cursor ℕ ℤ (RowRef ρ)

def heapKey (c : RefCursor ρ) : HeapKey := ⟨c.head.1, c.priority⟩

theorem popKey_map (heap : List (RefCursor ρ)) :
    popKey (heap.map heapKey) =
      (pop heap).map fun (c, rest) ↦ (heapKey c, rest.map heapKey) := by
  rw [popKey, popMin_map, pop_eq_popMin]
  rfl

/-- The heap has the keys of the inputs, and the cursors read their rows. -/
structure MergeState.Represents (s : MergeState ρ) (heap : List (RefCursor ρ)) : Prop where
  heap_eq : s.heap = heap.map heapKey
  reads : ∀ c ∈ heap, ∃ cursor, s.cursors[c.priority]? = some cursor ∧
    cursor.Reads c.priority c.rows
  distinct : (heap.map Cursor.priority).Nodup

variable {cursor : ParquetCursor ρ} {c : RefCursor ρ} {s : MergeState ρ} {heap : List (RefCursor ρ)}
  {batches : List (RowBatch ρ)} {refs : List (ℤ × RowRef ρ)}

theorem ParquetCursor.Reads.heapKey_eq {idx : ℕ} {rows : List (ℤ × RowRef ρ)}
    (h : cursor.Reads idx rows) :
    (cursor.peekTs.map fun ts ↦ (⟨ts, idx⟩ : HeapKey)) =
      (Cursor.ofRows idx rows).map heapKey := by
  rw [← h.rest_eq]
  cases hcur : cursor.current with
  | none =>
    obtain ⟨hrest, hpeek⟩ := h.rest_eq_nil hcur
    rw [hrest, hpeek]
    rfl
  | some batch =>
    obtain ⟨x, hx, hrest⟩ := h.rest_eq_cons hcur
    have hpeek : cursor.peekTs = some x.1 := by
      rw [peekTs, hcur, bind_some, hx, map_some]
    rw [hrest, hpeek]
    rfl

theorem ParquetCursor.Reads.push_heapKey (h : cursor.Reads c.priority c.tail)
    (rest : List (RefCursor ρ)) :
    (match cursor.peekTs with
      | some nextTs => ⟨nextTs, c.priority⟩ :: rest.map heapKey
      | none => rest.map heapKey) = (push c rest).map heapKey := by
  have hkey : (cursor.peekTs.map fun ts ↦ (⟨ts, c.priority⟩ : HeapKey)) = c.advance.map heapKey :=
    h.heapKey_eq
  rw [push]
  cases hpeek : cursor.peekTs with
  | none =>
    rw [hpeek] at hkey
    rw [map_eq_none_iff.mp hkey.symm]
    rfl
  | some ts =>
    rw [hpeek] at hkey
    obtain ⟨_, hd, hkey⟩ := map_eq_some_iff.mp hkey.symm
    rw [hd]
    exact congrArg (· :: rest.map heapKey) hkey.symm

variable {rest : List (RefCursor ρ)}

/-- The popped input has a cursor at its first row, and advancing the cursor leaves the others. -/
theorem MergeState.Represents.popped (h : s.Represents heap) (hpop : pop heap = some (c, rest)) :
    ∃ cursor, s.cursors[c.priority]? = some cursor ∧ cursor.Reads c.priority c.rows ∧
      (∃ batch, ∃ x : ℤ × ρ, cursor.current = some batch ∧ c.head =
        (x.1, ⟨batch, cursor.row, packedKey cursor.sourceIdx cursor.loadCount, x.2⟩)) ∧
      cursor.advance.Reads c.priority c.tail := by
  obtain ⟨hperm, -⟩ := pop_spec hpop
  obtain ⟨cursor, hcurs, hrd⟩ := h.reads c (hperm.mem_iff.mpr mem_cons_self)
  obtain ⟨batch, hcur⟩ : ∃ batch, cursor.current = some batch := by
    refine ne_none_iff_exists'.mp fun hnone ↦ ?_
    exact cons_ne_nil _ _ (hrd.rest_eq.symm.trans (hrd.rest_eq_nil hnone).1)
  obtain ⟨x, -, hrest⟩ := hrd.rest_eq_cons hcur
  obtain ⟨hhead, htail⟩ := List.cons.inj (hrd.rest_eq.symm.trans hrest)
  exact ⟨cursor, hcurs, hrd, ⟨batch, x, hcur, hhead⟩, hrd.toValid.advance,
    cursor.advance_sourceIdx.trans hrd.source, htail.symm⟩

theorem MergeState.Represents.advance {advanced : ParquetCursor ρ} (h : s.Represents heap)
    (hpop : pop heap = some (c, rest)) (hcur : s.cursors[c.priority]? = some cursor)
    (hadvd : advanced.Reads c.priority c.tail) (lastTs : Option ℤ) (out : MergeOutput ρ) :
    MergeState.Represents
      ⟨s.cursors.set c.priority advanced, (push c rest).map heapKey, lastTs, out⟩
      (push c rest) := by
  obtain ⟨hperm, -⟩ := pop_spec hpop
  have hnd := (hperm.map Cursor.priority).nodup_iff.mp h.distinct
  refine ⟨rfl, fun d hd ↦ ?_, nodup_priority_push hperm h.distinct⟩
  rcases mem_push.mp hd with ⟨hprio, hrows⟩ | hd
  · rw [hprio, hrows]
    exact ⟨advanced, getElem?_set_self (List.getElem?_eq_some_iff.mp hcur).1, hadvd⟩
  · have hne : c.priority ≠ d.priority := fun heq ↦
      (nodup_cons.mp hnd).1 (heq ▸ List.mem_map_of_mem hd)
    rw [getElem?_set_ne hne]
    exact h.reads d (hperm.mem_iff.mpr (mem_cons_of_mem _ hd))

/-- **One round** pops the same input as the merge, and notes its row. -/
theorem MergeState.Represents.step (h : s.Represents heap) (hpop : pop heap = some (c, rest)) :
    ∃ cursors : List (ParquetCursor ρ),
      (∀ lastTs out, MergeState.Represents
        ⟨cursors, (push c rest).map heapKey, lastTs, out⟩ (push c rest)) ∧
      s.step = some (do
        let out ←
          if s.lastTs = some c.head.1 then .ok s.out
          else s.out.emit c.head.1 c.head.2.batch c.head.2.row c.head.2.key
        .ok ⟨cursors, (push c rest).map heapKey, some c.head.1, out⟩) := by
  obtain ⟨cursor, hcurs, -, ⟨_, _, hcur, hhead⟩, hadvd⟩ := h.popped hpop
  refine ⟨s.cursors.set c.priority cursor.advance, h.advance hpop hcurs hadvd, ?_⟩
  rw [MergeState.step, h.heap_eq, popKey_map, hpop, ← hadvd.push_heapKey rest]
  simp only [map_some, heapKey, hcurs, ParquetCursor.currentRowOwned, hcur, hhead]
  rfl

/-- Note the rows one after the other. -/
def MergeOutput.emitAll : MergeOutput ρ → List (ℤ × RowRef ρ) → Result (MergeOutput ρ)
  | o, [] => .ok o
  | o, (ts, ref) :: refs => do (← o.emit ts ref.batch ref.row ref.key).emitAll refs

/-- **The loop notes the rows of the merge of references.** -/
theorem MergeState.Represents.run_eq (h : s.Represents heap) (fuel : ℕ) :
    s.run fuel = s.out.emitAll (KWayMerge.merge fuel heap s.lastTs) := by
  induction fuel generalizing s heap with
  | zero => rfl
  | succ fuel ih =>
    rw [MergeState.run, KWayMerge.merge]
    cases hpop : pop heap with
    | none =>
      rw [MergeState.step, h.heap_eq, popKey_map, hpop]
      rfl
    | some cr =>
      obtain ⟨c, _⟩ := cr
      obtain ⟨_, hnext, hstep⟩ := h.step hpop
      rw [hstep]
      simp only
      split_ifs with hlast
      · rw [hlast]
        exact ih (hnext _ _)
      · rw [emitAll]
        cases s.out.emit c.head.1 c.head.2.batch c.head.2.row c.head.2.key with
        | error => rfl
        | ok => exact ih (hnext _ _)

variable (files : List (MergeInput ρ))

/-- The inputs of the merge of references. -/
def refSources : List (ℕ × List (ℤ × RowRef ρ)) :=
  files.zipIdx.map fun (f, idx) ↦ (idx, tagBatches idx 0 f.batches)

/-- The rows that the loop notes, in order. -/
def references : List (ℤ × RowRef ρ) :=
  mergeSources (refSources files)

theorem map_value_references :
    (references files).map (fun x ↦ (x.1, x.2.value)) = mergeRows (files.map MergeInput.rows) := by
  rw [references, ← mergeSources_map, mergeRows, refSources, List.map_map, zipIdx_map, List.map_map]
  congr 1
  refine map_congr_left fun x _ ↦ ?_
  simp only [Function.comp_apply, map_value_tagBatches]
  rfl

theorem openFile_reads (batches : List (RowBatch ρ)) (idx : ℕ) :
    (ParquetCursor.openFile batches idx).Reads idx (tagBatches idx 0 batches) :=
  ParquetCursor.loadFrom_reads _ _

theorem zipIdx_map_zipIdx {α β : Type*} (g : α × ℕ → β) (l : List α) (k : ℕ) :
    ((l.zipIdx k).map g).zipIdx k = (l.zipIdx k).map fun p ↦ (g p, p.2) := by
  induction l generalizing k with
  | nil => rfl
  | cons a l ih =>
    rw [zipIdx_cons, map_cons, zipIdx_cons, ih, map_cons]

theorem openFiles_represents : (openFiles files).Represents
      ((refSources files).filterMap fun s ↦ Cursor.ofRows s.1 s.2) := by
  refine ⟨?_, fun c hc ↦ ?_, ?_⟩
  · rw [openFiles]
    simp only
    rw [zipIdx_map_zipIdx, filterMap_map, refSources, filterMap_map, map_filterMap]
    exact filterMap_congr fun ⟨f, idx⟩ _ ↦ (openFile_reads f.batches idx).heapKey_eq
  · obtain ⟨_, hs, hcs⟩ := mem_filterMap.mp hc
    obtain ⟨⟨f, idx⟩, hmem, rfl⟩ := List.mem_map.mp hs
    obtain ⟨hprio, hrows⟩ := Cursor.ofRows_eq_some.mp hcs
    rw [hprio, hrows]
    refine ⟨_, ?_, openFile_reads f.batches idx⟩
    rw [openFiles, getElem?_map, getElem?_zipIdx, mem_zipIdx_iff_getElem?.mp hmem]
    simp
  · refine nodup_priority_sources ?_
    rw [refSources, List.map_map]
    exact (zipIdx_map_snd 0 files).symm ▸ nodup_range'

/-! ## The output batches -/

section

variable (refs : List (ℤ × RowRef ρ))

/-- A chunk with the given references. -/
def chunkOf : MergeChunk ρ :=
  refs.foldl (fun c x ↦ c.push x.2.batch x.2.row x.2.key) .new

theorem chunkOf_append_singleton (x : ℤ × RowRef ρ) :
    chunkOf (refs ++ [x]) = (chunkOf refs).push x.2.batch x.2.row x.2.key := by
  rw [chunkOf, foldl_append]
  rfl

/-- What is pushed for a reference. -/
def RowRef.entry (r : RowRef ρ) : Gather.Entry ℕ (ℤ × ρ) := ⟨r.batch, asU32 r.row, r.key⟩

theorem chunkOf_holds : (chunkOf refs).len = refs.length ∧
      (chunkOf refs).toTable.Holds (refs.map fun x ↦ x.2.entry) := by
  induction refs using List.reverseRecOn with
  | nil => exact ⟨rfl, Gather.Table.holds_empty⟩
  | append_singleton refs x ih =>
    rw [chunkOf_append_singleton, map_append, length_append]
    exact ⟨congrArg (· + 1) ih.1, ih.2.push x.2.entry⟩

end

/-- The row that a reference finds in its window: in the first batch with its key, at its position
cut to 32 bits. -/
def resolve (window : List (ℤ × RowRef ρ)) (x : ℤ × RowRef ρ) : Option (ℤ × ρ) :=
  Gather.resolve (window.map fun y ↦ y.2.entry) x.2.entry

theorem build_chunkOf_eq_ok {window : List (ℤ × RowRef ρ)} (hne : window ≠ []) {rows : RowBatch ρ} :
    (chunkOf window).build = .ok rows ↔ window.map (resolve window) = rows.map some := by
  obtain ⟨hlen, hhold⟩ := chunkOf_holds window
  have hlen : (chunkOf window).len ≠ 0 := by
    rw [hlen]
    exact fun h ↦ hne (eq_nil_of_length_eq_zero h)
  rw [MergeChunk.build, if_neg hlen, gatherRows_eq_ok, hhold.map_rowAt, List.map_map]
  rfl

/-- **The batches are built window by window.** -/
theorem exists_finish_emitAll_iff {o : MergeOutput ρ} (cur : List (ℤ × RowRef ρ))
    (hcur : o.chunk = chunkOf cur) (refs : List (ℤ × RowRef ρ)) :
    (∃ out, o.emitAll refs = .ok out ∧ out.finish = .ok batches) ↔
      ∃ bs : List (RowBatch ρ), batches = o.outBatches ++ bs ∧
        (windowsFrom streamMergeBatchRows cur refs).map (fun w ↦ (chunkOf w).build) =
          bs.map .ok := by
  have hlen (refs : List (ℤ × RowRef ρ)) : (chunkOf refs).len = refs.length :=
    (chunkOf_holds refs).1
  induction refs generalizing o cur with
  | nil =>
    have hfin : (∃ out, o.emitAll [] = .ok out ∧ out.finish = .ok batches) ↔
        o.finish = .ok batches :=
      ⟨fun ⟨_, hout, hfin⟩ ↦ Except.ok.inj hout ▸ hfin, fun h ↦ ⟨o, rfl, h⟩⟩
    rw [hfin, finish, hcur, hlen, windowsFrom]
    cases cur with
    | nil =>
      constructor
      · rintro h
        cases h
        exact ⟨[], (append_nil _).symm, rfl⟩
      · rintro ⟨bs, rfl, hbs⟩
        rw [map_eq_nil_iff.mp hbs.symm, append_nil]
        rfl
    | cons =>
      rw [if_pos (length_pos_of_mem mem_cons_self), Result.bind_eq_ok]
      constructor
      · rintro ⟨built, hbuilt, h⟩
        cases h
        exact ⟨[built], rfl, congrArg (fun b ↦ [b]) hbuilt⟩
      · rintro ⟨bs, rfl, hbs⟩
        obtain ⟨built, _, rfl, hbuilt, hrest⟩ := map_eq_cons_iff.mp hbs.symm
        rw [map_eq_nil_iff.mp hrest]
        exact ⟨built, hbuilt.symm, rfl⟩
  | cons x refs ih =>
    obtain ⟨ts, ref⟩ := x
    have hch : o.chunk.push ref.batch ref.row ref.key = chunkOf (cur ++ [(ts, ref)]) := by
      rw [hcur, chunkOf_append_singleton]
    rw [emitAll, emit]
    simp only [hch, hlen]
    rw [windowsFrom]
    split_ifs with hfull
    · -- the window is full, and the next one starts
      rw [map_cons]
      constructor
      · rintro ⟨out, hout, hfin⟩
        obtain ⟨_, ho', hout⟩ := Result.bind_eq_ok.mp hout
        obtain ⟨built, hbuilt, ho'⟩ := Result.bind_eq_ok.mp ho'
        cases ho'
        obtain ⟨bs, rfl, hbs⟩ := (ih [] rfl).mp ⟨out, hout, hfin⟩
        refine ⟨built :: bs, by simp, ?_⟩
        rw [map_cons, hbuilt, hbs]
      · rintro ⟨bs, rfl, hbs⟩
        obtain ⟨_, bs, rfl, hbuilt, hrest⟩ := map_eq_cons_iff.mp hbs.symm
        rw [← hbuilt]
        exact (ih [] rfl).mpr ⟨bs, by simp, hrest.symm⟩
    · exact ih _ rfl

/-- Noting rows one by one counts them and bounds them as writing them one by one does. -/
theorem emitAll_summary {o out : MergeOutput ρ} {w : SstWriter ρ} (hcnt : o.totalRows = w.rowCount)
    (hmin : o.minTs = w.minTs) (hmax : o.maxTs = w.maxTs) (h : o.emitAll refs = .ok out) :
    let w' := (refs.map fun x ↦ [(x.1, x.2.value)]).foldl write w
    out.totalRows = w'.rowCount ∧ out.minTs = w'.minTs ∧ out.maxTs = w'.maxTs := by
  induction refs generalizing o w with
  | nil =>
    cases h
    exact ⟨hcnt, hmin, hmax⟩
  | cons x refs ih =>
    obtain ⟨ts, _⟩ := x
    obtain ⟨_, ho', h⟩ := Result.bind_eq_ok.mp h
    rw [emit] at ho'
    simp only at ho'
    split_ifs at ho' with hfull
    · obtain ⟨_, -, ho'⟩ := Result.bind_eq_ok.mp ho'
      cases ho'
      exact ih (congrArg (· + 1) hcnt) (congrArg (min · ts) hmin) (congrArg (max · ts) hmax) h
    · cases ho'
      exact ih (congrArg (· + 1) hcnt) (congrArg (min · ts) hmin) (congrArg (max · ts) hmax) h

/-! ## When the merge is right -/

/-- The references of every window find their rows. -/
def Resolves : Prop :=
  ∀ window ∈ windows streamMergeBatchRows (references files),
    ∀ x ∈ window, resolve window x = some (x.1, x.2.value)

/-- The output has, in order, for every timestamp of an input the first row with it of the last
input that has it, and reports these rows. -/
structure IsMerge (sst : SstOutput ρ) (inputs : List (RowBatch ρ)) : Prop extends sst.Reports where
  sorted : sst.rows.Pairwise (·.1 < ·.1)
  lookup : ∀ ts, sst.rows.lookup ts = inputs.reverse.findSome? fun rows ↦ rows.lookup ts

variable {sst : SstOutput ρ}

theorem isMerge_rows_iff {inputs : List (RowBatch ρ)}
    (hsort : ∀ rows ∈ inputs, rows.Pairwise (·.1 ≤ ·.1)) :
    IsMerge sst inputs ↔ sst.Reports ∧ sst.rows = mergeRows inputs := by
  have hmrg := mergeRows_sorted hsort
  constructor
  · rintro ⟨hrep, hrows, hlook⟩
    refine ⟨hrep, eq_of_sorted hrows hmrg fun ⟨t, r⟩ ↦ ?_⟩
    rw [← lookup_eq_some_iff_mem hrows, ← lookup_eq_some_iff_mem hmrg,
      hlook, mergeRows_lookup hsort]
  · rintro ⟨hrep, hrows⟩
    refine ⟨hrep, ?_, fun ts ↦ ?_⟩
    · rw [hrows]
      exact hmrg
    · rw [hrows]
      exact mergeRows_lookup hsort ts

section

variable (files : List (MergeInput ρ))

theorem exists_batches_rows_iff {rows : RowBatch ρ} :
    (∃ batches, (∃ out, start.emitAll (references files) = .ok out ∧
        out.finish = .ok batches) ∧ batches.flatten = rows) ↔
      (windows streamMergeBatchRows (references files)).flatMap
        (fun w ↦ w.map (resolve w)) = rows.map some := by
  rw [← exists_map_ok_iff fun w hw rows ↦
    build_chunkOf_eq_ok (ne_nil_of_mem_windows hw)]
  constructor
  · rintro ⟨_, hout, hflat⟩
    obtain ⟨bs, hbats, hbs⟩ := (exists_finish_emitAll_iff [] rfl _).mp hout
    rw [hbats] at hflat
    exact ⟨bs, hbs, hflat⟩
  · rintro ⟨bs, hbs, hflat⟩
    exact ⟨bs, (exists_finish_emitAll_iff [] rfl _).mpr ⟨bs, rfl, hbs⟩, hflat⟩

/-- The batches have the rows of the merge if and only if the references find them. -/
theorem exists_batches_iff : (∃ batches, (∃ out, start.emitAll (references files) = .ok out ∧
        out.finish = .ok batches) ∧ batches.flatten = mergeRows (files.map MergeInput.rows)) ↔
      Resolves files := by
  have hrows : (mergeRows (files.map MergeInput.rows)).map some =
      (windows streamMergeBatchRows (references files)).flatMap fun w ↦
        w.map fun x ↦ some (x.1, x.2.value) := by
    rw [← map_value_references, flatMap_def, ← map_flatten, flatten_windows, List.map_map]
    rfl
  rw [exists_batches_rows_iff, hrows, flatMap_eq_iff fun w ↦ by rw [length_map, length_map]]
  exact forall₂_congr fun w _ ↦ map_inj_left

theorem length_refSources :
    (refSources files).map (fun s ↦ s.2.length) = files.map fun f ↦ f.rows.length := by
  rw [refSources, List.map_map]
  nth_rewrite 2 [← zipIdx_map_fst 0 files]
  rw [List.map_map]
  refine map_congr_left fun ⟨f, idx⟩ _ ↦ ?_
  simp only [Function.comp_apply, MergeInput.rows]
  rw [← map_value_tagBatches idx 0, length_map]

theorem run_openFiles : (openFiles files).run (files.map fun f ↦ f.rows.length).sum =
      start.emitAll (references files) := by
  rw [(openFiles_represents files).run_eq, references, mergeSources, length_refSources]
  rfl

end

/-- The metadata of the output. -/
def mergedMeta (dataDir : String) (nowMs : ℤ) (fileSize : ℕ) (files : List (MergeInput ρ))
    (out : MergeOutput ρ) : SstMeta :=
  let identity := SstIdentity.afterInnerMergeRun nowMs (files.map MergeInput.identity)
  .fromIdentity identity (dataDir ++ "/" ++ identity.filename) out.minTs out.maxTs out.totalRows
    fileSize

section

variable {files : List (MergeInput ρ)} {dataDir : String} {nowMs : ℤ} {fileSize : ℕ}

theorem mergeFiles_eq_ok (hlen : 2 ≤ files.length) :
    mergeFiles dataDir nowMs fileSize files = .ok sst ↔
      ∃ out batches, start.emitAll (references files) = .ok out ∧
        out.finish = .ok batches ∧ out.totalRows ≠ 0 ∧
        sst = ⟨mergedMeta dataDir nowMs fileSize files out, batches.flatten⟩ := by
  rw [mergeFiles, if_neg (by omega), run_openFiles]
  simp only [Result.bind_eq_ok]
  constructor
  · rintro ⟨out, hout, batches, hbs, h⟩
    split_ifs at h with hzero
    cases h
    exact ⟨out, batches, hout, hbs, hzero, rfl⟩
  · rintro ⟨out, batches, hout, hbs, hzero, rfl⟩
    exact ⟨out, hout, batches, hbs, if_neg hzero⟩

theorem exists_mem_rows_of_mem_mergeRows {x : ℤ × ρ}
    (hx : x ∈ mergeRows (files.map MergeInput.rows)) : ∃ f ∈ files, x ∈ f.rows := by
  obtain ⟨_, hs, hxs⟩ := exists_mem_of_mem_mergeSources hx
  obtain ⟨⟨_, _⟩, hmem, rfl⟩ := List.mem_map.mp hs
  obtain ⟨f, hf, rfl⟩ := List.mem_map.mp (fst_mem_of_mem_zipIdx hmem)
  exact ⟨f, hf, hxs⟩

theorem mergeFiles_of_rows_eq_nil (hlen : 2 ≤ files.length) (h : ∀ f ∈ files, f.rows = []) :
    mergeFiles dataDir nowMs fileSize files = .error (.storage "empty merge result") := by
  have hrefs : references files = [] := by
    rw [← map_eq_nil_iff, map_value_references]
    refine eq_nil_iff_forall_not_mem.mpr fun x hx ↦ ?_
    obtain ⟨f, hf, hxf⟩ := exists_mem_rows_of_mem_mergeRows hx
    exact not_mem_nil (h f hf ▸ hxf)
  rw [mergeFiles, if_neg (by omega), run_openFiles, hrefs]
  rfl

theorem emitAll_reports {out : MergeOutput ρ}
    (hout : start.emitAll (references files) = .ok out)
    (hrows : sst.rows = mergeRows (files.map MergeInput.rows)) (hne : sst.rows ≠ [])
    (hts : ∀ x ∈ sst.rows, i64Min ≤ x.1 ∧ x.1 ≤ i64Max)
    (hcnt : sst.rowCount = out.totalRows) (hmin : sst.minTs = out.minTs)
    (hmax : sst.maxTs = out.maxTs) : sst.Reports := by
  obtain ⟨hcnt', hmin', hmax'⟩ := emitAll_summary (w := .start) rfl rfl rfl hout
  set w := ((references files).map fun x ↦ [(x.1, x.2.value)]).foldl write .start
  have hw : w.rows = sst.rows := by
    rw [rows_foldl_write, hrows, ← map_value_references, ← flatMap_def]
    exact (map_eq_flatMap).symm
  have htrk : w.Tracks := by
    refine tracks_start.foldl_write fun b hb ↦ ?_
    obtain ⟨x, -, rfl⟩ := List.mem_map.mp hb
    exact pairwise_singleton _ _
  rw [← hw] at hne hts
  refine ⟨?_, ?_, ?_⟩
  · rw [hcnt, hcnt', htrk.rowCount, hw]
  · rw [hmin, hmin', ← hw]
    exact htrk.isLeast hne fun x hx ↦ (hts x hx).2
  · rw [hmax, hmax', ← hw]
    exact htrk.isGreatest hne fun x hx ↦ (hts x hx).1

/-- **The merge is the newest-wins merge.** Without rows its result is empty, which is an error.
Otherwise the output has for every timestamp the first row with it of the last input that has it, in
order, and reports these rows, if and only if the references find their rows. -/
theorem mergeFiles_exact_iff (hlen : 2 ≤ files.length)
    (hsorted : ∀ f ∈ files, f.rows.Pairwise (·.1 ≤ ·.1))
    (hts : ∀ f ∈ files, ∀ x ∈ f.rows, i64Min ≤ x.1 ∧ x.1 ≤ i64Max) :
    ((∀ f ∈ files, f.rows = []) →
        mergeFiles dataDir nowMs fileSize files = .error (.storage "empty merge result")) ∧
      ((∃ f ∈ files, f.rows ≠ []) → ((∃ sst, mergeFiles dataDir nowMs fileSize files = .ok sst ∧
            IsMerge sst (files.map MergeInput.rows)) ↔ Resolves files)) := by
  refine ⟨mergeFiles_of_rows_eq_nil hlen, fun ⟨f, hf, hne⟩ ↦ ?_⟩
  have hsort' : ∀ rows ∈ files.map MergeInput.rows, rows.Pairwise (·.1 ≤ ·.1) :=
    List.forall_mem_map.mpr hsorted
  simp only [isMerge_rows_iff hsort', ← exists_batches_iff]
  constructor
  · rintro ⟨_, hsst, -, hrows⟩
    obtain ⟨out, batches, hout, hbs, -, rfl⟩ := (mergeFiles_eq_ok hlen).mp hsst
    exact ⟨batches, ⟨out, hout, hbs⟩, hrows⟩
  · rintro ⟨batches, ⟨out, hout, hbs⟩, hrows⟩
    have hmrg : batches.flatten ≠ [] := by
      obtain ⟨x, hx⟩ := exists_mem_of_ne_nil _ hne
      intro hnil
      have hlook := mergeRows_lookup hsort' x.1
      rw [← hrows, hnil, lookup_nil, eq_comm, findSome?_eq_none_iff] at hlook
      have hnone := hlook f.rows (mem_reverse.mpr (List.mem_map_of_mem hf))
      exact KWayMerge.lookup_eq_none_iff.mp hnone (List.mem_map_of_mem hx)
    have hbds : ∀ x ∈ batches.flatten, i64Min ≤ x.1 ∧ x.1 ≤ i64Max := by
      intro x hx
      obtain ⟨f, hf, hxf⟩ := exists_mem_rows_of_mem_mergeRows (hrows ▸ hx)
      exact hts f hf x hxf
    have hrep : SstOutput.Reports ⟨mergedMeta dataDir nowMs fileSize files out, batches.flatten⟩ :=
      emitAll_reports hout hrows hmrg hbds rfl rfl rfl
    have htot : out.totalRows ≠ 0 := fun hzero ↦
      hmrg (eq_nil_of_length_eq_zero (hrep.rowCount.symm.trans hzero))
    exact ⟨_, (mergeFiles_eq_ok hlen).mpr ⟨out, batches, hout, hbs, htot, rfl⟩, hrep, hrows⟩

end

/-! ## Keys and positions that fit -/

/-- Numbers that fit into their part of the key are not mixed up. -/
theorem packedKey_inj {s s' l l' : ℕ} (hs : s < 2 ^ 24) (hs' : s' < 2 ^ 24) (hl : l < 2 ^ 40)
    (hl' : l' < 2 ^ 40) (h : packedKey s l = packedKey s' l') : s = s' ∧ l = l' := by
  have hpack {a b : ℕ} (ha : a < 2 ^ 24) (hb : b < 2 ^ 40) : packedKey a b = a * 2 ^ 40 + b := by
    rw [packedKey, Nat.mod_eq_of_lt (by rw [Nat.shiftLeft_eq]; omega),
      ← Nat.shiftLeft_add_eq_or_of_lt hb, Nat.shiftLeft_eq]
  rw [hpack hs hl, hpack hs' hl'] at h
  omega

variable {sourceIdx loadCount : ℕ}

theorem mem_tagBatch {batch : RowBatch ρ} {x : ℤ × RowRef ρ}
    (h : x ∈ tagBatch sourceIdx loadCount batch) :
    x.2.batch = batch ∧ x.2.key = packedKey sourceIdx loadCount ∧
      batch[x.2.row]? = some (x.1, x.2.value) := by
  obtain ⟨⟨_, _⟩, hmem, rfl⟩ := List.mem_map.mp h
  exact ⟨rfl, rfl, mem_zipIdx_iff_getElem?.mp hmem⟩

/-- A reference belongs to a batch with rows, and its key has the number of that batch. -/
theorem mem_tagBatches {x : ℤ × RowRef ρ}
    (h : x ∈ tagBatches sourceIdx loadCount batches) (hcnt : loadCount + batches.length < 2 ^ 64) :
    ∃ n, n < batches.length ∧ (nonEmptyBatches batches)[n]? = some x.2.batch ∧
      x.2.key = packedKey sourceIdx (loadCount + n + 1) ∧
      x.2.batch[x.2.row]? = some (x.1, x.2.value) := by
  induction batches generalizing loadCount with
  | nil => cases h
  | cons batch batches ih =>
    rw [length_cons] at hcnt
    cases batch with
    | nil =>
      obtain ⟨n, hn, hbat, hkey, hrow⟩ := ih h (by omega)
      exact ⟨n, Nat.lt_succ_of_lt hn, hbat, hkey, hrow⟩
    | cons y rows =>
      have hcons : nonEmptyBatches ((y :: rows) :: batches) =
          (y :: rows) :: nonEmptyBatches batches := filter_cons_of_pos (by simp)
      rw [tagBatches, Nat.mod_eq_of_lt (by omega), mem_append] at h
      rw [hcons]
      rcases h with h | h
      · obtain ⟨hbat, hkey, hrow⟩ := mem_tagBatch h
        exact ⟨0, Nat.succ_pos _, hbat ▸ rfl, hkey, hbat ▸ hrow⟩
      · obtain ⟨n, hn, hbat, hkey, hrow⟩ := ih h (by omega)
        refine ⟨n + 1, Nat.succ_lt_succ hn, hbat, ?_, hrow⟩
        rw [hkey]
        congr 1
        omega

/-- **For inputs of ordinary size the references find their rows.** -/
theorem resolves_of_length_le {files : List (MergeInput ρ)} (hfs : files.length ≤ 2 ^ 24)
    (hbs : ∀ f ∈ files, f.batches.length < 2 ^ 40)
    (hrows : ∀ f ∈ files, ∀ b ∈ f.batches, b.length ≤ 2 ^ 32) : Resolves files := by
  have hspec (x : ℤ × RowRef ρ) (hx : x ∈ references files) :
      ∃ idx n f, files[idx]? = some f ∧ n < f.batches.length ∧
        (nonEmptyBatches f.batches)[n]? = some x.2.batch ∧ x.2.key = packedKey idx (n + 1) ∧
        x.2.batch[x.2.row]? = some (x.1, x.2.value) := by
    obtain ⟨_, hs, hxs⟩ := exists_mem_of_mem_mergeSources hx
    obtain ⟨⟨f, idx⟩, hmem, rfl⟩ := List.mem_map.mp hs
    have hf := mem_zipIdx_iff_getElem?.mp hmem
    have hlen := hbs f (mem_of_getElem? hf)
    obtain ⟨n, hn, hbat, hkey, hrow⟩ := mem_tagBatches hxs (by omega)
    exact ⟨idx, n, f, hf, hn, hbat, by rw [hkey, Nat.zero_add], hrow⟩
  intro window hwin x hx
  have hmem (y : ℤ × RowRef ρ) (hy : y ∈ window) : y ∈ references files := by
    rw [← flatten_windows streamMergeBatchRows (references files)]
    exact mem_flatten.mpr ⟨window, hwin, hy⟩
  obtain ⟨_, n, f, hf, _, hbat, hkey, hrow⟩ := hspec x (hmem x hx)
  have hidx := (List.getElem?_eq_some_iff.mp hf).1
  have hlen := hbs f (mem_of_getElem? hf)
  have hfit : asU32 x.2.row = x.2.row := by
    have hlt := (List.getElem?_eq_some_iff.mp hrow).1
    have hb := mem_of_getElem? hbat
    have hle := hrows f (mem_of_getElem? hf) _ (mem_filter.mp hb).1
    exact Nat.mod_eq_of_lt (by omega)
  have hres : resolve window x = x.2.batch[asU32 x.2.row]? := by
    refine Gather.resolve_eq (List.mem_map_of_mem hx) (List.forall_mem_map.mpr fun y hy hkeys ↦ ?_)
    obtain ⟨_, n', f', hf', _, hbat', hkey', -⟩ := hspec y (hmem y hy)
    have hidx' := (List.getElem?_eq_some_iff.mp hf').1
    have hlen' := hbs f' (mem_of_getElem? hf')
    -- the keys are equal only for the same batch of the same input
    obtain ⟨rfl, _⟩ := packedKey_inj (by omega) (by omega) (by omega) (by omega)
      (hkey'.symm.trans (Eq.trans hkeys hkey))
    cases hf.symm.trans hf'
    obtain rfl : n' = n := by omega
    exact some.inj (hbat'.symm.trans hbat)
  rw [hres, hfit, hrow]

/-! ## The merge of rows -/

theorem foldl_write_singletons (w : SstWriter ρ) (rows : RowBatch ρ) :
    (rows.map fun x ↦ [x]).foldl write w =
      ⟨(rows.map Prod.fst).foldl min w.minTs, (rows.map Prod.fst).foldl max w.maxTs,
        w.rowCount + rows.length, w.rows ++ rows⟩ := by
  induction rows generalizing w with
  | nil => simp
  | cons x rows ih =>
    rw [map_cons, foldl_cons, ih]
    simp [write, Nat.add_comm, Nat.add_left_comm]

theorem emitAll_totalRows {out : MergeOutput ρ} (h : start.emitAll refs = .ok out) :
    out.totalRows = refs.length := by
  have hcnt := (emitAll_summary (w := .start) rfl rfl rfl h).1
  have hrefs : (refs.map fun x ↦ [(x.1, x.2.value)]) =
      (refs.map fun x ↦ (x.1, x.2.value)).map fun x ↦ [x] := by
    rw [List.map_map]
    rfl
  rw [hrefs, foldl_write_singletons, length_map] at hcnt
  exact hcnt.trans (Nat.zero_add _)

/-- **The merge of batches refines the merge of rows**: where the references find their rows, the
result is the same, whatever the batches are. -/
theorem mergeFiles_refines {dataDir : String} {nowMs : ℤ} {fileSize : ℕ} {files : List (SstFile ρ)}
    {inputs : List (MergeInput ρ)} (hids : inputs.map MergeInput.identity = files.map (·.identity))
    (hrows : inputs.map MergeInput.rows = files.map (·.rows)) (h : Resolves inputs) :
    mergeFiles dataDir nowMs fileSize inputs =
      (MonoTS.mergeFiles dataDir nowMs fileSize files).map fun f ↦ ⟨f.toSstMeta, f.rows⟩ := by
  have hsize : inputs.length = files.length := by
    rw [← length_map (f := MergeInput.rows), hrows, length_map]
  obtain ⟨batches, ⟨out, hout, hfin⟩, hflat⟩ := (exists_batches_iff inputs).mpr h
  obtain ⟨hcnt, hmin, hmax⟩ := emitAll_summary (w := .start) rfl rfl rfl hout
  have hrefs : ((references inputs).map fun x ↦ [(x.1, x.2.value)]) =
      (mergeRows (files.map (·.rows))).map fun x ↦ [x] := by
    rw [← hrows, ← map_value_references, List.map_map]
    rfl
  rw [hrefs, foldl_write_singletons] at hcnt hmin hmax
  have htot : out.totalRows = (mergeRows (files.map (·.rows))).length := hcnt.trans (Nat.zero_add _)
  have hmeta : mergedMeta dataDir nowMs fileSize inputs out =
      (mergedFile dataDir nowMs fileSize files).toSstMeta := by
    rw [mergedMeta, hids, htot, hmin, hmax]
    rfl
  rw [MonoTS.mergeFiles]
  split_ifs with hlen hemp
  · rw [mergeFiles, if_pos (hsize ▸ hlen)]
    rfl
  · rw [List.isEmpty_iff.mp hemp] at htot
    rw [mergeFiles, if_neg (hsize ▸ hlen), run_openFiles, hout]
    simp only [bind, Except.bind, hfin]
    exact if_pos htot
  · refine (mergeFiles_eq_ok (hsize ▸ not_lt.mp hlen)).mpr ⟨out, batches, hout, hfin, ?_, ?_⟩
    · rw [htot]
      simpa using hemp
    · rw [hmeta, hflat, hrows]
      rfl

theorem sampleFiles_refined :
    let files := [sampleFile 1 (1, 5) (3, 6) (by decide), sampleFile 2 (1, 7) (2, 8) (by decide)]
    mergeFiles "data" 10 100 (files.map fun f ↦ ⟨f.identity, f.rows.map fun x ↦ [x]⟩) =
      (MonoTS.mergeFiles "data" 10 100 files).map fun f ↦ ⟨f.toSstMeta, f.rows⟩ :=
  mergeFiles_refines (by decide) (by decide)
    (resolves_of_length_le (by decide) (by decide) (by decide))

/-- Two inputs in several batches, one of them empty, with a timestamp in both and one twice. -/
def sampleInputs : List (MergeInput Char) :=
  [⟨⟨0, 1, 4, 0, 0⟩, [[(1, 'a'), (3, 'b')], [], [(3, 'c'), (5, 'd')]]⟩,
    ⟨⟨1, 5, 7, 0, 0⟩, [[(3, 'e')], [(3, 'f'), (4, 'g')]]⟩]

theorem sampleInputs_merged :
    ∃ sst, mergeFiles "data" 10 100 sampleInputs = .ok sst ∧
      IsMerge sst (sampleInputs.map MergeInput.rows) := by
  refine ((mergeFiles_exact_iff (by decide) (by decide) (by decide)).2 (by decide)).mpr ?_
  exact resolves_of_length_le (by decide) (by decide) (by decide)

/-! ## Keys that do not fit -/

variable (n : ℕ)

/-- An input with a row, inputs without rows, and another input with a row. -/
def farInputs : List (MergeInput Char) :=
  [⟨⟨0, 1, 1, 0, 0⟩, [[(1, 'a')]]⟩] ++ List.replicate n ⟨⟨0, 0, 0, 0, 0⟩, []⟩ ++
    [⟨⟨0, 2, 2, 0, 0⟩, [[(2, 'b')]]⟩]

theorem length_farInputs : (farInputs n).length = n + 2 := by
  simp [farInputs]

theorem refSources_farInputs : ∃ middle : List (ℕ × List (ℤ × RowRef Char)),
    (∀ s ∈ middle, s.2 = []) ∧ refSources (farInputs n) =
      [(0, tagBatches 0 0 [[(1, 'a')]])] ++ middle ++
        [(n + 1, tagBatches (n + 1) 0 [[(2, 'b')]])] := by
  let empty : MergeInput Char := ⟨⟨0, 0, 0, 0, 0⟩, []⟩
  refine ⟨((List.replicate n empty).zipIdx 1).map fun (f, idx) ↦
    (idx, tagBatches idx 0 f.batches), fun s hs ↦ ?_, ?_⟩
  · obtain ⟨⟨f, _⟩, hmem, rfl⟩ := List.mem_map.mp hs
    obtain rfl : f = empty := eq_of_mem_replicate (fst_mem_of_mem_zipIdx hmem)
    rfl
  · rw [refSources, farInputs, zipIdx_append, zipIdx_append]
    simp [empty]

theorem references_farInputs : references (farInputs n) =
    [(1, ⟨[(1, 'a')], 0, packedKey 0 1, 'a'⟩), (2, ⟨[(2, 'b')], 0, packedKey (n + 1) 1, 'b'⟩)] := by
  obtain ⟨middle, hmid, hsrc⟩ := refSources_farInputs n
  let a : RefCursor Char := ⟨0, (1, ⟨[(1, 'a')], 0, packedKey 0 1, 'a'⟩), []⟩
  let b : RefCursor Char := ⟨n + 1, (2, ⟨[(2, 'b')], 0, packedKey (n + 1) 1, 'b'⟩), []⟩
  have hheap : ((refSources (farInputs n)).filterMap fun s ↦
      Cursor.ofRows s.1 s.2) = [a, b] := by
    have hnone : (middle.filterMap fun s ↦ Cursor.ofRows s.1 s.2) = [] :=
      filterMap_eq_nil_iff.mpr fun s hs ↦ by rw [hmid s hs]; rfl
    rw [hsrc, filterMap_append, filterMap_append, hnone]
    rfl
  have hfuel : ((refSources (farInputs n)).map fun s ↦ s.2.length).sum = 2 := by
    have hzero : (middle.map fun s ↦ s.2.length).sum = 0 :=
      sum_eq_zero (List.forall_mem_map.mpr fun s hs ↦ by rw [hmid s hs]; rfl)
    rw [hsrc, map_append, sum_append, map_append, sum_append, hzero]
    rfl
  have hrank : ¬ b.rank < a.rank := by
    simp [Cursor.rank, Prod.Lex.toLex_lt_toLex, a, b]
  have hpop : pop [a, b] = some (a, [b]) := by
    simp only [pop, if_neg hrank]
  rw [references, mergeSources, hheap, hfuel, KWayMerge.merge, hpop]
  rfl

/-- What the loop has when it is done: both rows refer to the first batch. -/
def farOutput : MergeOutput Char :=
  ⟨⟨⟨[(0, 0), (0, 0)], [[(1, 'a')]], [(1, 0)]⟩, 2⟩, [], 2, 1, 2⟩

/-- With `2 ^ 24` inputs in front of it, the number of the last input does not fit into its 24 bits
of the key. Its batch is taken for the one of the first input, whose row is written twice. -/
theorem far_input_mistaken_for_first :
    ∃ sst, mergeFiles "data" 10 100 (farInputs (2 ^ 24 - 1)) = .ok sst ∧
      sst.rows = [(1, 'a'), (1, 'a')] := by
  have hkey : packedKey (2 ^ 24 - 1 + 1) 1 = 1 := by decide
  have hlen : 2 ≤ (farInputs (2 ^ 24 - 1)).length := by
    rw [length_farInputs]
    omega
  refine ⟨_, (mergeFiles_eq_ok hlen).mpr ⟨farOutput, [[(1, 'a'), (1, 'a')]], ?_, by decide,
    by decide, rfl⟩, rfl⟩
  rw [references_farInputs, hkey]
  decide

end MergeStream

end MonoTS
