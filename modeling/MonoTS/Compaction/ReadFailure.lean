import MonoTS.Compaction.MergeStream
import MonoTS.Compaction.Passes
import MonoTS.Compaction.Window

/-!
# Reads that fail in a compaction

An input is read batch by batch, and every read may fail. A failure before the first row is found
when the file is opened, and ends the merge with an error. Later reads are made by `advance`, which
drops their result: the cursor then stays at the old batch, with its row behind the last one. The
timestamp that is looked up next is that of this row, and Arrow panics.

Up to the first failure the merge is the one of `MonoTS.Compaction.MergeStream`, on the batches that
can be read (`ParquetCursor.clean`). An input whose reading fails stays in the heap until its last
readable row, so that the loop cannot end before it has panicked (`run_of_breaks`). Neither an error
nor a panic lets the pass go on to the index.
-/

open List Option KWayMerge

namespace MonoTS

open MergeStream (tagBatches heapKey mergedMeta references resolve)

namespace ReadFailure

open MergeStream (HeapKey popKey packedKey MergeOutput MergeInput RefCursor)
open MergeStream.ParquetCursor (loadFrom_reads openFile)

variable {ρ : Type*}

/-! ## How a call ends -/

/-- A call returns a result, or it panics. -/
inductive Outcome (α : Type*) where
  | returned (result : Result α)
  | panicked
  deriving DecidableEq, Repr

namespace Outcome

variable {α β : Type*}

/-- The next call. An error is handed on by `?`, and a panic unwinds. -/
def andThen (x : Outcome α) (f : α → Outcome β) : Outcome β :=
  match x with
  | .returned (.ok a) => f a
  | .returned (.error e) => .returned (.error e)
  | .panicked => .panicked

def ok (a : α) : Outcome α := .returned (.ok a)

/-- What is an error in the models of Arrow's kernels is a panic. -/
def orPanic : Result α → Outcome α
  | .ok a => .ok a
  | .error _ => .panicked

theorem andThen_eq_ok {x : Outcome α} {f : α → Outcome β} {b : β} :
    x.andThen f = .ok b ↔ ∃ a, x = .ok a ∧ f a = .ok b := by
  constructor
  · intro h
    match x, h with
    | .returned (.ok a), h => exact ⟨a, rfl, h⟩
  · rintro ⟨_, rfl, h⟩
    exact h

theorem orPanic_eq_ok {r : Result α} {a : α} : orPanic r = .ok a ↔ r = .ok a := by
  cases r with
  | error => exact ⟨nofun, nofun⟩
  | ok => exact ⟨fun h ↦ congrArg Except.ok (Except.ok.inj (returned.inj h)), congrArg orPanic⟩

end Outcome

open Outcome

open Outcome (orPanic)

/-! ## Inputs -/

/-- What a reader yields, batch by batch; aligning a batch with the schema is part of reading it. -/
abbrev Reader (ρ : Type*) := List (Result (RowBatch ρ))

/-- The batches before the first failure. -/
def readable : Reader ρ → List (RowBatch ρ)
  | .ok batch :: reader => batch :: readable reader
  | _ => []

def breaks (reader : Reader ρ) : Bool := reader.any fun r ↦ r.toOption.isNone

/-- An input file: what its name says, and what opening it gives. -/
structure Input (ρ : Type*) where
  identity : SstIdentity
  opened : Result (Reader ρ)

namespace Input

variable (f : Input ρ)

def reader : Reader ρ := f.opened.toOption.getD []

/-- The file cannot be opened, or one of its batches cannot be read. -/
def fails : Bool := f.opened.toOption.isNone || breaks f.reader

/-- The failure comes before the first row. -/
def failsAtOpen : Bool :=
  f.opened.toOption.isNone || breaks f.reader && (readable f.reader).flatten.isEmpty

/-- What can be read of the file. -/
def clean : MergeInput ρ := ⟨f.identity, readable f.reader⟩

end Input

open Input

/-! ## The cursors -/

/-- An input that may fail. -/
structure ParquetCursor (ρ : Type*) where
  reader : Reader ρ
  current : Option (RowBatch ρ)
  row : ℕ
  sourceIdx : ℕ
  loadCount : ℕ

namespace ParquetCursor

/-- The loop over the reader. A failure leaves the current batch and the row as they are. -/
def loadFrom (c : ParquetCursor ρ) : Reader ρ → Result Unit × ParquetCursor ρ
  | [] => (.ok (), { c with reader := [], current := none, row := 0 })
  | .error e :: reader => (.error e, { c with reader })
  | .ok [] :: reader => c.loadFrom reader
  | .ok (x :: rows) :: reader =>
    (.ok (), { c with
        reader := reader
        current := some (x :: rows)
        row := 0
        loadCount := (c.loadCount + 1) % 2 ^ 64 })

variable (c : ParquetCursor ρ)

def loadNextBatch : Result Unit × ParquetCursor ρ := c.loadFrom c.reader

/-- `ParquetCursor::open` -/
def openFile (opened : Result (Reader ρ)) (sourceIdx : ℕ) : Result (ParquetCursor ρ) := do
  let reader ← opened
  match loadNextBatch ⟨reader, none, 0, sourceIdx, 0⟩ with
  | (.error e, _) => .error e
  | (.ok (), cursor) => .ok cursor

/-- The timestamp of the current row. The access to the row is checked by Arrow, which panics. -/
def peekTs : Outcome (Option ℤ) :=
  match c.current with
  | none => .ok none
  | some batch =>
    match batch[c.row]? with
    | some x => .ok (some x.1)
    | none => .panicked

def currentRowOwned : Result (RowBatch ρ × ℕ × ℕ) :=
  match c.current with
  | none => .error (.storage "merge cursor exhausted")
  | some batch => .ok (batch, c.row, packedKey c.sourceIdx c.loadCount)

/-- Go to the next row. The result of loading a batch is dropped. -/
def advance : ParquetCursor ρ :=
  let c := { c with row := c.row + 1 }
  if c.current.any fun batch ↦ batch.length ≤ c.row then c.loadNextBatch.2 else c

end ParquetCursor

open ParquetCursor (openFile)

/-! ## The merge -/

/-- The state of the merge loop. -/
structure MergeState (ρ : Type*) where
  cursors : List (ParquetCursor ρ)
  heap : List HeapKey
  lastTs : Option ℤ
  out : MergeOutput ρ

/-- The body of the loop, or nothing when the heap is empty. -/
def MergeState.step (s : MergeState ρ) : Option (Outcome (MergeState ρ)) :=
  match popKey s.heap with
  | none => none
  | some (⟨ts, sourceIdx⟩, heap) => some <|
    match s.cursors[sourceIdx]? with
    | none => .panicked
    | some cursor =>
      let emitted :=
        if s.lastTs = some ts then .ok s.out
        else
          (returned cursor.currentRowOwned).andThen fun (batch, row, key) ↦
            orPanic (s.out.emit ts batch row key)
      emitted.andThen fun out ↦
        let advanced := cursor.advance
        advanced.peekTs.andThen fun peeked ↦
          let heap := match peeked with
            | some nextTs => ⟨nextTs, sourceIdx⟩ :: heap
            | none => heap
          .ok ⟨s.cursors.set sourceIdx advanced, heap, some ts, out⟩

/-- The loop, with a bound on the number of rounds. -/
def MergeState.run : ℕ → MergeState ρ → Outcome (MergeOutput ρ)
  | 0, s => .ok s.out
  | fuel + 1, s =>
    match s.step with
    | none => .ok s.out
    | some next => next.andThen fun s ↦ s.run fuel

/-- The loop that opens the files; it stops at the first that cannot be opened. -/
def openAll : List (Input ρ) → ℕ → Result (List (ParquetCursor ρ))
  | [], _ => .ok []
  | f :: files, idx => do
    let cursor ← openFile f.opened idx
    let cursors ← openAll files (idx + 1)
    .ok (cursor :: cursors)

/-- The heap before the loop. -/
def initialHeap : List (ParquetCursor ρ) → ℕ → Outcome (List HeapKey)
  | [], _ => .ok []
  | cursor :: cursors, idx =>
    cursor.peekTs.andThen fun peeked ↦
      (initialHeap cursors (idx + 1)).andThen fun keys ↦
        .ok (match peeked with
          | some ts => ⟨ts, idx⟩ :: keys
          | none => keys)

/-- Merge the files. Every round of the loop consumes a row, so that their number is a bound.
`written` is what writing the output and moving it into the data directory gives. -/
def mergeFiles (dataDir : String) (nowMs : ℤ) (written : Result ℕ) (files : List (Input ρ)) :
    Outcome (SstOutput ρ) :=
  if files.length < 2 then
    .returned (.error (.storage "compaction requires at least two files"))
  else
    let identity := SstIdentity.afterInnerMergeRun nowMs (files.map identity)
    let rows := (files.map fun f ↦ f.clean.rows.length).sum
    (returned (openAll files 0)).andThen fun cursors ↦
    (initialHeap cursors 0).andThen fun heap ↦
    (MergeState.run rows ⟨cursors, heap, none, .start⟩).andThen fun out ↦
    (orPanic out.finish).andThen fun outBatches ↦
    if out.totalRows = 0 then .returned (.error (.storage "empty merge result"))
    else
      (returned written).andThen fun fileSize ↦
        .ok ⟨.fromIdentity identity (dataDir ++ "/" ++ identity.filename) out.minTs out.maxTs
          out.totalRows fileSize, outBatches.flatten⟩

/-! ## The pass -/

/-- What the calls of a pass to its surroundings give. -/
structure PassIo where
  cancelled : Bool
  /-- Whether the disk is read-only, if there is a disk controller. -/
  diskReadOnly : Option (Result Bool)
  atOrOverSoftThreshold : Bool
  nowMs : ℤ
  written : Result ℕ
  /-- The file must stay until the WAL of a bulk load is collected. -/
  retain : String → Bool
  removeFails : String → Bool

/-- The index of a table, and the paths of the files that were unlinked. -/
structure TableFiles where
  index : List SstMeta
  removed : List String

/-- An SST of the index as an input; `read` is what opening its path gives. -/
def inputOf (read : String → Result (Reader ρ)) (m : SstMeta) : Input ρ :=
  ⟨m.identity, read m.filePath⟩

/-- Pick a run, merge it, and replace it in the index; its files are unlinked. -/
def pickAndReplace (c : Compactor) (io : PassIo) (read : String → Result (Reader ρ))
    (s : TableFiles) : Outcome Unit × TableFiles :=
  match pickCompaction s.index c.strategy c.thresholdBytes c.maxMergeFiles with
  | none => (.ok (), s)
  | some (start, len) =>
    let inputs := runOf s.index start len
    match mergeFiles c.dataDir io.nowMs io.written (inputs.map (inputOf read)) with
    | .panicked => (.panicked, s)
    | .returned (.error e) => (.returned (.error e), s)
    | .returned (.ok merged) =>
      match FileIndex.replaceRange start len merged.toSstMeta s.index with
      | none => (.panicked, s)
      | some index =>
        (.ok (),
          { index
            removed := s.removed ++ (inputs.map SstMeta.filePath).filter fun path ↦
              !io.retain path && !io.removeFails path })

def runCompactionPass (c : Compactor) (io : PassIo) (read : String → Result (Reader ρ))
    (s : TableFiles) : Outcome Unit × TableFiles :=
  if io.cancelled then (.ok (), s)
  else
    match io.diskReadOnly with
    | some (.error e) => (.returned (.error e), s)
    | some (.ok true) => (.ok (), s)
    | some (.ok false) | none =>
      if io.atOrOverSoftThreshold then (.ok (), s) else pickAndReplace c io read s

/-! ## The readable part of an input -/

theorem tagBatches_eq_nil_iff {sourceIdx loadCount : ℕ} {batches : List (RowBatch ρ)} :
    tagBatches sourceIdx loadCount batches = [] ↔ batches.flatten = [] := by
  rw [← MergeStream.map_value_tagBatches sourceIdx loadCount, map_eq_nil_iff]

namespace ParquetCursor

/-- The cursor on what can be read. -/
def clean (c : ParquetCursor ρ) : MergeStream.ParquetCursor ρ :=
  ⟨readable c.reader, c.current, c.row, c.sourceIdx, c.loadCount⟩

section

variable (c : ParquetCursor ρ) {reader : Reader ρ}

/-- A failure before the next row leaves the cursor where it is. -/
theorem loadFrom_of_end (hbr : breaks reader = true) (hrows : (readable reader).flatten = []) :
    ∃ e rest, c.loadFrom reader = (.error e, { c with reader := rest }) := by
  induction reader with
  | nil => cases hbr
  | cons r reader ih =>
    match r with
    | .error e => exact ⟨e, reader, rfl⟩
    | .ok [] => exact ih hbr hrows
    | .ok (x :: rows) => exact absurd hrows (cons_ne_nil _ _)

theorem loadFrom_of_rows (h : ¬ (breaks reader = true ∧ (readable reader).flatten = [])) :
    ∃ next, c.loadFrom reader = (.ok (), next) ∧
      next.clean = c.clean.loadFrom (readable reader) ∧ breaks next.reader = breaks reader := by
  induction reader with
  | nil => exact ⟨_, rfl, rfl, rfl⟩
  | cons r reader ih =>
    match r with
    | .error e => exact absurd ⟨rfl, rfl⟩ h
    | .ok [] => exact ih h
    | .ok (x :: rows) => exact ⟨_, rfl, rfl, rfl⟩

end

variable {c : ParquetCursor ρ}

theorem peekTs_of_valid (h : c.clean.Valid) : c.peekTs = .ok c.clean.peekTs := by
  rw [peekTs, MergeStream.ParquetCursor.peekTs]
  change _ = ok (c.current.bind fun batch ↦ batch[c.row]?.map Prod.fst)
  cases hcur : c.current with
  | none => rfl
  | some batch =>
    have hlt : c.row < batch.length := h.row_lt batch hcur
    simp only [bind_some]
    rw [getElem?_eq_getElem hlt]
    rfl

section

variable {batch : RowBatch ρ} (hcur : c.current = some batch)

include hcur

theorem advance_eq :
    c.advance = if batch.length ≤ c.row + 1 then ({ c with row := c.row + 1 }.loadFrom c.reader).2
      else { c with row := c.row + 1 } := by
  simp only [advance, hcur, any_some, decide_eq_true_eq]
  rfl

theorem clean_advance_eq :
    c.clean.advance =
      if batch.length ≤ c.row + 1 then
        { c with row := c.row + 1 }.clean.loadFrom (readable c.reader)
      else { c with row := c.row + 1 }.clean := by
  obtain ⟨_, _, _, _, _⟩ := c
  cases hcur
  exact if_congr decide_eq_true_iff rfl rfl

/-- **The cursor at its last readable row** is left behind it. -/
theorem advance_of_end (hbr : breaks c.reader = true) (hrest : c.clean.advance.rest = []) :
    c.advance.peekTs = .panicked := by
  rw [clean_advance_eq hcur] at hrest
  rw [advance_eq hcur]
  split_ifs at hrest ⊢ with hend
  · rw [(loadFrom_reads _ _).rest_eq, tagBatches_eq_nil_iff] at hrest
    obtain ⟨_, _, hload⟩ := loadFrom_of_end { c with row := c.row + 1 } hbr hrest
    rw [hload, peekTs]
    simp only [hcur, getElem?_eq_none hend]
  · -- there is another row in the batch
    obtain ⟨hdrop, -⟩ := append_eq_nil_iff.mp hrest
    have hlen := congrArg List.length hdrop
    simp only [clean, hcur, elim_some, length_drop, MergeStream.tagBatch,
      length_map, length_zipIdx, length_nil] at hlen
    omega

theorem advance_of_rows (h : ¬ (breaks c.reader = true ∧ c.clean.advance.rest = [])) :
    c.advance.clean = c.clean.advance ∧ breaks c.advance.reader = breaks c.reader := by
  rw [clean_advance_eq hcur] at h ⊢
  rw [advance_eq hcur]
  split_ifs at h ⊢ with hend
  · rw [(loadFrom_reads _ _).rest_eq, tagBatches_eq_nil_iff] at h
    obtain ⟨_, hload, hcl, hbr⟩ := loadFrom_of_rows { c with row := c.row + 1 } h
    rw [hload]
    exact ⟨hcl, hbr⟩
  · exact ⟨rfl, rfl⟩

end

end ParquetCursor

/-! ## The loop -/

namespace MergeState

/-- The state on what can be read. -/
def clean (s : MergeState ρ) : MergeStream.MergeState ρ :=
  ⟨s.cursors.map ParquetCursor.clean, s.heap, s.lastTs, s.out⟩

/-- The row is noted unless its timestamp was the last one. -/
def emitted (s : MergeState ρ) (c : RefCursor ρ) : Outcome (MergeOutput ρ) :=
  if s.lastTs = some c.head.1 then .ok s.out
  else orPanic (s.out.emit c.head.1 c.head.2.batch c.head.2.row c.head.2.key)

section

variable {s : MergeState ρ} {heap rest : List (RefCursor ρ)} {c : RefCursor ρ}
  (h : s.clean.Represents heap) (hpop : pop heap = some (c, rest))

include h hpop

theorem popped : ∃ cursor, s.cursors[c.priority]? = some cursor ∧
    (∃ batch, cursor.current = some batch) ∧ cursor.clean.advance.Reads c.priority c.tail ∧
    s.step = some (s.emitted c |>.andThen fun out ↦ cursor.advance.peekTs.andThen fun peeked ↦
      .ok ⟨s.cursors.set c.priority cursor.advance,
        match peeked with
          | some nextTs => ⟨nextTs, c.priority⟩ :: rest.map heapKey
          | none => rest.map heapKey, some c.head.1, out⟩) := by
  obtain ⟨_, hget, -, ⟨batch, _, hcur, hhead⟩, hadvd⟩ := h.popped hpop
  rw [clean, getElem?_map] at hget
  obtain ⟨cursor, hcurs, rfl⟩ := map_eq_some_iff.mp hget
  have hcur : cursor.current = some batch := hcur
  refine ⟨cursor, hcurs, ⟨batch, hcur⟩, hadvd, ?_⟩
  have hheap : s.heap = heap.map heapKey := h.heap_eq
  rw [step, hheap, MergeStream.popKey_map, hpop, emitted]
  simp only [map_some, heapKey, hcurs, ParquetCursor.currentRowOwned, hcur, hhead]
  rfl

variable {cursor : ParquetCursor ρ} (hcurs : s.cursors[c.priority]? = some cursor)

include hcurs

/-- At the last readable row of an input whose reading fails, the loop panics. -/
theorem step_of_end
    (hbr : breaks cursor.reader = true) (htail : c.tail = []) : s.step = some .panicked := by
  obtain ⟨cursor', hcur', ⟨_, hcur⟩, hrd, hstep⟩ := popped h hpop
  obtain rfl : cursor = cursor' := some.inj (hcurs.symm.trans hcur')
  rw [hstep, ParquetCursor.advance_of_end hcur hbr (hrd.rest_eq.trans htail), emitted]
  split_ifs
  · rfl
  · cases s.out.emit c.head.1 c.head.2.batch c.head.2.row c.head.2.key <;> rfl

/-- **At every other row** the loop does what it does on the readable part. -/
theorem step_of_rows (hrows : ¬ (breaks cursor.reader = true ∧ c.tail = [])) :
    let next out : MergeState ρ := ⟨s.cursors.set c.priority cursor.advance,
      (push c rest).map heapKey, some c.head.1, out⟩
    s.step = some (s.emitted c |>.andThen fun out ↦ .ok (next out)) ∧
      (∀ out, (next out).clean.Represents (push c rest)) ∧
      breaks cursor.advance.reader = breaks cursor.reader := by
  obtain ⟨cursor', hcur', ⟨_, hcur⟩, hrd, hstep⟩ := popped h hpop
  obtain rfl : cursor = cursor' := some.inj (hcurs.symm.trans hcur')
  rw [← hrd.rest_eq] at hrows
  obtain ⟨hcl, hbr⟩ := ParquetCursor.advance_of_rows hcur hrows
  have hval : cursor.advance.clean.Valid := hcl ▸ hrd.toValid
  refine ⟨?_, fun out ↦ ?_, hbr⟩
  · rw [hstep, ParquetCursor.peekTs_of_valid hval, hcl, ← hrd.push_heapKey rest]
    rfl
  · have hget : s.clean.cursors[c.priority]? = some cursor.clean := by
      rw [clean, getElem?_map, hcurs, map_some]
    have hnext := h.advance hpop hget hrd (some c.head.1) out
    rw [← hcl, clean, ← map_set] at hnext
    exact hnext

end

variable {s : MergeState ρ} {heap : List (RefCursor ρ)}

theorem step_of_nil (h : s.clean.Represents heap) (hpop : pop heap = none) : s.step = none := by
  have hheap : s.heap = heap.map heapKey := h.heap_eq
  rw [step, hheap, MergeStream.popKey_map, hpop]
  rfl

/-- **Without failures** the loop notes the rows of the merge. -/
theorem run_of_reads (h : s.clean.Represents heap)
    (hrd : ∀ cursor ∈ s.cursors, breaks cursor.reader = false) (fuel : ℕ) :
    s.run fuel = orPanic (s.out.emitAll (KWayMerge.merge fuel heap s.lastTs)) := by
  induction fuel generalizing s heap with
  | zero => rfl
  | succ fuel ih =>
    rw [run, KWayMerge.merge]
    cases hpop : pop heap with
    | none =>
      rw [step_of_nil h hpop]
      rfl
    | some cr =>
      obtain ⟨c, _⟩ := cr
      obtain ⟨cursor, hcurs, -⟩ := popped h hpop
      have hcur' := hrd cursor (mem_of_getElem? hcurs)
      obtain ⟨hstep, hnext, hbr⟩ :=
        step_of_rows h hpop hcurs fun hend ↦ Bool.false_ne_true (hcur'.symm.trans hend.1)
      have hset : ∀ d ∈ s.cursors.set c.priority cursor.advance, breaks d.reader = false := by
        intro d hd
        rcases mem_or_eq_of_mem_set hd with hd | rfl
        · exact hrd d hd
        · exact hbr.trans hcur'
      rw [hstep, emitted]
      simp only
      split_ifs with hlast
      · rw [hlast]
        exact ih (hnext s.out) hset
      · rw [MergeOutput.emitAll]
        cases s.out.emit c.head.1 c.head.2.batch c.head.2.row c.head.2.key with
        | error => rfl
        | ok out => exact ih (hnext out) hset

variable {cursor : ParquetCursor ρ}

/-- An input whose reading fails stays in the heap, unless it was at its last readable row. -/
theorem breaks_push {c d : RefCursor ρ} {rest : List (RefCursor ρ)}
    {cursors : List (ParquetCursor ρ)} {popped : ParquetCursor ρ} (hperm : heap.Perm (d :: rest))
    (hc : c ∈ heap) (hcurs : cursors[c.priority]? = some cursor)
    (hbr : breaks cursor.reader = true) (hpopped : cursors[d.priority]? = some popped)
    (hadv : breaks popped.advance.reader = breaks popped.reader)
    (hend : ¬ (breaks popped.reader = true ∧ d.tail = [])) :
    ∃ c' ∈ push d rest, ∃ cursor',
      (cursors.set d.priority popped.advance)[c'.priority]? = some cursor' ∧
        breaks cursor'.reader = true := by
  by_cases hprio : d.priority = c.priority
  · obtain rfl : cursor = popped := some.inj (hcurs.symm.trans (hprio ▸ hpopped))
    obtain ⟨y, ys, htail⟩ := exists_cons_of_ne_nil fun htail ↦ hend ⟨hbr, htail⟩
    refine ⟨⟨d.priority, y, ys⟩, mem_push.mpr (.inl ⟨rfl, htail.symm⟩), cursor.advance,
      ?_, hadv.trans hbr⟩
    exact getElem?_set_self (List.getElem?_eq_some_iff.mp hpopped).1
  · have hrest : c ∈ rest := by
      rcases mem_cons.mp (hperm.mem_iff.mp hc) with rfl | hc
      · exact absurd rfl hprio
      · exact hc
    refine ⟨c, mem_push.mpr (.inr hrest), cursor, ?_, hbr⟩
    rw [getElem?_set_ne hprio]
    exact hcurs

/-- **An input whose reading fails ends the loop with a panic.** It is in the heap as long as it has
readable rows, and there are at most as many rounds as rows. -/
theorem run_of_breaks {c : RefCursor ρ} (h : s.clean.Represents heap) (hc : c ∈ heap)
    (hcurs : s.cursors[c.priority]? = some cursor) (hbr : breaks cursor.reader = true) {fuel : ℕ}
    (hfuel : size heap ≤ fuel) : s.run fuel = .panicked := by
  induction fuel generalizing s heap c cursor with
  | zero =>
    rw [eq_nil_of_size_le_zero hfuel] at hc
    cases hc
  | succ fuel ih =>
    rw [run]
    cases hpop : pop heap with
    | none =>
      rw [pop_eq_none.mp hpop] at hc
      cases hc
    | some dr =>
      obtain ⟨d, _⟩ := dr
      obtain ⟨hperm, -⟩ := pop_spec hpop
      obtain ⟨popped, hpopped, -⟩ := popped h hpop
      by_cases hend : breaks popped.reader = true ∧ d.tail = []
      · rw [step_of_end h hpop hpopped hend.1 hend.2]
        rfl
      · obtain ⟨hstep, hnext, hpopp⟩ := step_of_rows h hpop hpopped hend
        have hsize := size_push_le hperm hfuel
        obtain ⟨_, hc', _, hcur', hbr'⟩ := breaks_push hperm hc hcurs hbr hpopped hpopp hend
        rw [hstep, emitted]
        simp only
        split_ifs
        · exact ih (hnext s.out) hc' hcur' hbr' hsize
        · cases s.out.emit d.head.1 d.head.2.batch d.head.2.row d.head.2.key with
          | error => rfl
          | ok out => exact ih (hnext out) hc' hcur' hbr' hsize

end MergeState

/-! ## Opening the files -/

theorem openFile_eq (reader : Reader ρ) (idx : ℕ) :
    openFile (.ok reader) idx =
      match ParquetCursor.loadFrom ⟨reader, none, 0, idx, 0⟩ reader with
      | (.error e, _) => .error e
      | (.ok (), cursor) => .ok cursor := rfl

theorem openFile_error {f : Input ρ} (h : f.failsAtOpen = true) (idx : ℕ) :
    ∃ e, openFile f.opened idx = .error e := by
  obtain ⟨_, _ | reader⟩ := f
  · exact ⟨_, rfl⟩
  · have hend : breaks reader = true ∧ (readable reader).flatten.isEmpty = true :=
      (Bool.and_eq_true _ _).mp h
    obtain ⟨e, _, hload⟩ := ParquetCursor.loadFrom_of_end ⟨reader, none, 0, idx, 0⟩ hend.1
      (List.isEmpty_iff.mp hend.2)
    refine ⟨e, ?_⟩
    rw [openFile_eq, hload]

theorem openFile_ok {f : Input ρ} (h : f.failsAtOpen = false) (idx : ℕ) :
    ∃ cursor, openFile f.opened idx = .ok cursor ∧
      cursor.clean = openFile f.clean.batches idx ∧
      breaks cursor.reader = f.fails := by
  obtain ⟨id, _ | reader⟩ := f
  · cases h
  · have hrows : ¬ (breaks reader = true ∧ (readable reader).flatten = []) := by
      rintro ⟨hbr, hrows⟩
      have : failsAtOpen ⟨id, .ok reader⟩ = true :=
        (Bool.and_eq_true _ _).mpr ⟨hbr, List.isEmpty_iff.mpr hrows⟩
      exact Bool.false_ne_true (h.symm.trans this)
    obtain ⟨next, hload, hcl, hbr⟩ := ParquetCursor.loadFrom_of_rows ⟨reader, none, 0, idx, 0⟩ hrows
    refine ⟨next, ?_, hcl, hbr⟩
    rw [openFile_eq, hload]

variable {files : List (Input ρ)}

theorem openAll_error (h : ∃ f ∈ files, f.failsAtOpen = true) (idx : ℕ) :
    ∃ e, openAll files idx = .error e := by
  induction files generalizing idx with
  | nil => exact absurd h (by simp)
  | cons f files ih =>
    rw [openAll]
    cases hopen : openFile f.opened idx with
    | error e => exact ⟨e, rfl⟩
    | ok =>
      obtain ⟨g, hg, hfail⟩ := h
      rcases mem_cons.mp hg with rfl | hg
      · obtain ⟨e, he⟩ := openFile_error hfail idx
        rw [hopen] at he
        cases he
      · obtain ⟨e, he⟩ := ih ⟨g, hg, hfail⟩ (idx + 1)
        rw [he]
        exact ⟨e, rfl⟩

/-- The cursors are those on the readable parts, and so is the heap. -/
theorem openAll_ok (h : ∀ f ∈ files, f.failsAtOpen = false) (idx : ℕ) :
    ∃ cursors, openAll files idx = .ok cursors ∧
      cursors.map ParquetCursor.clean = (files.zipIdx idx).map (fun (f, i) ↦
        openFile f.clean.batches i) ∧
      cursors.map (fun cursor ↦ breaks cursor.reader) = files.map fails := by
  induction files generalizing idx with
  | nil => exact ⟨[], rfl, rfl, rfl⟩
  | cons f files ih =>
    obtain ⟨hf, hfs⟩ := forall_mem_cons.mp h
    obtain ⟨cursor, hopen, hcl, hbr⟩ := openFile_ok hf idx
    obtain ⟨cursors, hopenAll, hclean, hstop⟩ := ih hfs (idx + 1)
    refine ⟨cursor :: cursors, ?_, ?_, ?_⟩
    · rw [openAll, hopen, hopenAll]
      rfl
    · rw [map_cons, zipIdx_cons, map_cons, hcl, hclean]
    · rw [map_cons, map_cons, hbr, hstop]

theorem initialHeap_eq {cursors : List (ParquetCursor ρ)}
    (h : ∀ cursor ∈ cursors, cursor.clean.Valid) (idx : ℕ) :
    initialHeap cursors idx = .ok (((cursors.map ParquetCursor.clean).zipIdx idx).filterMap
      fun (cursor, i) ↦ cursor.peekTs.map fun ts ↦ ⟨ts, i⟩) := by
  induction cursors generalizing idx with
  | nil => rfl
  | cons cursor cursors ih =>
    obtain ⟨hcurs, hcursors⟩ := forall_mem_cons.mp h
    rw [initialHeap, ParquetCursor.peekTs_of_valid hcurs, ih hcursors, map_cons,
      zipIdx_cons, filterMap_cons]
    simp only
    cases cursor.clean.peekTs <;> rfl

/-- **The state before the loop.** -/
theorem opened (h : ∀ f ∈ files, f.failsAtOpen = false) :
    ∃ s : MergeState ρ, openAll files 0 = .ok s.cursors ∧ initialHeap s.cursors 0 = .ok s.heap ∧
      s.clean = MergeStream.openFiles (files.map clean) ∧
      s = ⟨s.cursors, s.heap, none, .start⟩ ∧
      s.cursors.map (fun cursor ↦ breaks cursor.reader) = files.map fails := by
  obtain ⟨cursors, hopen, hcl, hbr⟩ := openAll_ok h 0
  have hval : ∀ cursor ∈ cursors, cursor.clean.Valid := by
    intro cursor hcurs
    have hmem := List.mem_map_of_mem (f := ParquetCursor.clean) hcurs
    rw [hcl] at hmem
    obtain ⟨⟨f, i⟩, -, heq⟩ := List.mem_map.mp hmem
    rw [← heq]
    exact (loadFrom_reads _ _).toValid
  refine ⟨⟨cursors, _, none, .start⟩, hopen, initialHeap_eq hval 0, ?_, rfl, hbr⟩
  have hcursors : cursors.map ParquetCursor.clean =
      (files.map clean).zipIdx.map fun x ↦ MergeStream.ParquetCursor.openFile x.1.batches x.2 := by
    rw [hcl, zipIdx_map, List.map_map]
    rfl
  rw [MergeState.clean, MergeStream.openFiles, hcursors]

/-! ## How the merge ends -/

namespace Input

variable {f : Input ρ}

theorem failsAtOpen_of_reads (h : f.fails = false) : f.failsAtOpen = false := by
  obtain ⟨hop, hbr⟩ := Bool.or_eq_false_iff.mp h
  rw [failsAtOpen, hop, hbr]
  rfl

/-- A failure that is not found at open comes behind a row. -/
theorem rows_ne_nil (hopen : f.failsAtOpen = false) (h : f.fails = true) : f.clean.rows ≠ [] := by
  intro hrows
  obtain ⟨hop, hbr⟩ := Bool.or_eq_false_iff.mp hopen
  rw [fails, hop, Bool.false_or] at h
  rw [h, Bool.true_and, isEmpty_eq_false_iff] at hbr
  exact hbr hrows

end Input

section

variable {files : List (Input ρ)} {dataDir : String} {nowMs : ℤ} {written : Result ℕ}
  (hlen : 2 ≤ files.length)

include hlen

theorem mergeFiles_of_failsAtOpen (h : ∃ f ∈ files, f.failsAtOpen = true) :
    ∃ e, mergeFiles dataDir nowMs written files = .returned (.error e) := by
  obtain ⟨e, he⟩ := openAll_error h 0
  refine ⟨e, ?_⟩
  rw [mergeFiles, if_neg (by omega), he]
  rfl

theorem mergeFiles_of_opened {s : MergeState ρ} (hcurs : openAll files 0 = .ok s.cursors)
    (hheap : initialHeap s.cursors 0 = .ok s.heap)
    (hs : s = ⟨s.cursors, s.heap, none, .start⟩) :
    mergeFiles dataDir nowMs written files =
      (s.run (files.map fun f ↦ f.clean.rows.length).sum).andThen fun out ↦
        (orPanic out.finish).andThen fun outBatches ↦
          if out.totalRows = 0 then .returned (.error (.storage "empty merge result"))
          else (returned written).andThen fun fileSize ↦
            .ok ⟨mergedMeta dataDir nowMs fileSize (files.map clean) out,
              outBatches.flatten⟩ := by
  have hids : (files.map clean).map MergeInput.identity = files.map identity := by
    rw [List.map_map]
    rfl
  rw [mergeFiles, if_neg (by omega), hcurs, congrArg (MergeState.run _) hs]
  simp only [mergedMeta, hids]
  change (initialHeap s.cursors 0).andThen _ = _
  rw [hheap]
  rfl

/-- **A failure behind the first row makes the merge panic.** -/
theorem mergeFiles_of_breaks (hopen : ∀ f ∈ files, f.failsAtOpen = false)
    (h : ∃ f ∈ files, f.fails = true) : mergeFiles dataDir nowMs written files = .panicked := by
  obtain ⟨s, hcursors, hheap, hcl, hs, hbr⟩ := opened hopen
  have hrep : s.clean.Represents _ := hcl ▸ MergeStream.openFiles_represents _
  obtain ⟨f, hf, hfail⟩ := h
  obtain ⟨i, hi⟩ := mem_iff_getElem?.mp hf
  obtain ⟨cursor, hcurs, hcursorBreaks⟩ : ∃ cursor, s.cursors[i]? = some cursor ∧
      breaks cursor.reader = true := by
    have hget : (s.cursors.map fun cursor ↦ breaks cursor.reader)[i]? = some true := by
      rw [hbr, getElem?_map, hi, map_some, hfail]
    rw [getElem?_map] at hget
    exact map_eq_some_iff.mp hget
  -- the file has a row before the failure
  obtain ⟨x, xs, hrows⟩ : ∃ x xs, tagBatches i 0 f.clean.batches = x :: xs := by
    refine exists_cons_of_ne_nil fun hnil ↦ ?_
    exact rows_ne_nil (hopen f hf) hfail (tagBatches_eq_nil_iff.mp hnil)
  have hmem : (⟨i, x, xs⟩ : RefCursor ρ) ∈
      (MergeStream.refSources (files.map clean)).filterMap fun s ↦
        Cursor.ofRows s.1 s.2 := by
    refine mem_filterMap.mpr ⟨(i, tagBatches i 0 f.clean.batches), ?_, ?_⟩
    · refine List.mem_map.mpr ⟨(f.clean, i), mem_zipIdx_iff_getElem?.mpr ?_, rfl⟩
      rw [getElem?_map, hi, map_some]
    · rw [hrows]
      rfl
  have hfuel : size ((MergeStream.refSources (files.map clean)).filterMap fun s ↦
      Cursor.ofRows s.1 s.2) ≤ (files.map fun f ↦ f.clean.rows.length).sum := by
    rw [size_sources, MergeStream.length_refSources, List.map_map]
    rfl
  rw [mergeFiles_of_opened hlen hcursors hheap hs,
    MergeState.run_of_breaks hrep hmem hcurs hcursorBreaks hfuel]
  rfl

/-- **Without failures** the merge is that of the inputs. -/
theorem mergeFiles_of_reads (h : ∀ f ∈ files, f.fails = false) {sst : SstOutput ρ} :
    mergeFiles dataDir nowMs written files = .returned (.ok sst) ↔
      ∃ out batches fileSize,
        MergeOutput.start.emitAll (references (files.map clean)) = .ok out ∧
        out.finish = .ok batches ∧ out.totalRows ≠ 0 ∧ written = .ok fileSize ∧
        sst = ⟨mergedMeta dataDir nowMs fileSize (files.map clean) out,
          batches.flatten⟩ := by
  obtain ⟨s, hcursors, hheap, hcl, hs, hbr⟩ := opened fun f hf ↦ failsAtOpen_of_reads (h f hf)
  have hrep : s.clean.Represents _ := hcl ▸ MergeStream.openFiles_represents _
  have hrd : ∀ cursor ∈ s.cursors, breaks cursor.reader = false := by
    intro cursor hcurs
    have hmem := List.mem_map_of_mem (f := fun cursor ↦ breaks cursor.reader) hcurs
    rw [hbr] at hmem
    obtain ⟨f, hf, heq⟩ := List.mem_map.mp hmem
    exact heq.symm.trans (h f hf)
  have hrun : s.run (files.map fun f ↦ f.clean.rows.length).sum =
      orPanic (MergeOutput.start.emitAll (references (files.map clean))) := by
    rw [MergeState.run_of_reads hrep hrd, references, mergeSources,
      MergeStream.length_refSources, List.map_map, hs]
    rfl
  rw [mergeFiles_of_opened hlen hcursors hheap hs, hrun]
  change _ = ok sst ↔ _
  rw [andThen_eq_ok]
  constructor
  · rintro ⟨out, hout, htail⟩
    obtain ⟨batches, hbs, htail⟩ := andThen_eq_ok.mp htail
    split_ifs at htail with hzero
    · cases htail
    · obtain ⟨fileSize, hwr, hsst⟩ := andThen_eq_ok.mp htail
      refine ⟨out, batches, fileSize, orPanic_eq_ok.mp hout,
        orPanic_eq_ok.mp hbs, hzero, returned.inj hwr, ?_⟩
      exact (Except.ok.inj (returned.inj hsst)).symm
  · rintro ⟨out, batches, _, hout, hbs, hzero, rfl, rfl⟩
    refine ⟨out, orPanic_eq_ok.mpr hout, andThen_eq_ok.mpr ⟨batches, orPanic_eq_ok.mpr hbs, ?_⟩⟩
    rw [if_neg hzero]
    rfl

end

theorem reads_of_ok {dataDir : String} {nowMs : ℤ} {written : Result ℕ} {sst : SstOutput ρ}
    (h : mergeFiles dataDir nowMs written files = .returned (.ok sst)) :
    2 ≤ files.length ∧ ∀ f ∈ files, f.fails = false := by
  by_cases hlen : files.length < 2
  · rw [mergeFiles, if_pos hlen] at h
    cases h
  · refine ⟨not_lt.mp hlen, fun f hf ↦ Bool.eq_false_iff.mpr fun hfails ↦ ?_⟩
    by_cases hopen : ∃ f ∈ files, f.failsAtOpen = true
    · obtain ⟨_, he⟩ := mergeFiles_of_failsAtOpen (not_lt.mp hlen) hopen
      rw [h] at he
      cases he
    · have hopen : ∀ f ∈ files, f.failsAtOpen = false := fun f hf ↦
        Bool.eq_false_iff.mpr fun hfail ↦ hopen ⟨f, hf, hfail⟩
      rw [mergeFiles_of_breaks (not_lt.mp hlen) hopen ⟨f, hf, hfails⟩] at h
      cases h

/-! ## What a failing compaction changes -/

/-- Every reference finds a row. -/
def Finds (files : List (MergeInput ρ)) : Prop :=
  ∀ window ∈ Windows.windows MergeStream.streamMergeBatchRows (references files),
    ∀ x ∈ window, (resolve window x).isSome = true

/-- A failing read makes the merge return an error, and the pass leave the index and the files as
they are; a merge that returns a file has read everything and has all rows. -/
structure FailsCleanly (c : Compactor) (read : String → Result (Reader ρ))
    (files : List SstMeta) : Prop where
  error : (∃ m ∈ files, (inputOf read m).fails = true) → ∀ nowMs written, ∃ e,
    mergeFiles c.dataDir nowMs written (files.map (inputOf read)) = .returned (.error e)
  unchanged : (∃ m ∈ files, (inputOf read m).fails = true) → ∀ io s start len,
    pickCompaction s.index c.strategy c.thresholdBytes c.maxMergeFiles = some (start, len) →
      runOf s.index start len = files → (runCompactionPass c io read s).2 = s
  complete : ∀ nowMs written sst,
    mergeFiles c.dataDir nowMs written (files.map (inputOf read)) = .returned (.ok sst) →
      (∀ m ∈ files, (inputOf read m).fails = false) ∧
        sst.rows = mergeRows (files.map fun m ↦ (inputOf read m).clean.rows)

variable {read : String → Result (Reader ρ)}

section

variable {c : Compactor} {io : PassIo} {s : TableFiles} {start len : ℕ}
  (hpick : pickCompaction s.index c.strategy c.thresholdBytes c.maxMergeFiles = some (start, len))
  (h : ∃ m ∈ runOf s.index start len, (inputOf read m).fails = true)

include hpick h

theorem pickAndReplace_unchanged : (pickAndReplace c io read s).2 = s := by
  rw [pickAndReplace, hpick]
  simp only
  split
  · rfl
  · rfl
  · next hok =>
    obtain ⟨_, hm, hfail⟩ := h
    have hrd := (reads_of_ok hok).2 _ (List.mem_map_of_mem hm)
    exact absurd (hrd.symm.trans hfail) Bool.false_ne_true

/-- **A pass that cannot read an input changes nothing.** -/
theorem pass_unchanged : (runCompactionPass c io read s).2 = s := by
  have hrep : (pickAndReplace c io read s).2 = s := pickAndReplace_unchanged hpick h
  rw [runCompactionPass]
  split
  · rfl
  · split
    · rfl
    · rfl
    all_goals
      split
      · rfl
      · exact hrep

end

theorem finds_iff {files : List (MergeInput ρ)} :
    Finds files ↔ ∃ rows : RowBatch ρ,
      (Windows.windows MergeStream.streamMergeBatchRows (references files)).flatMap
        (fun w ↦ w.map (resolve w)) = rows.map some := by
  constructor
  · intro h
    refine ⟨(Windows.windows MergeStream.streamMergeBatchRows
      (references files)).flatMap fun w ↦ w.filterMap (resolve w), ?_⟩
    rw [map_flatMap]
    exact flatMap_congr fun w hw ↦ (Gather.map_some_filterMap (h w hw)).symm
  · rintro ⟨rows, hrows⟩ w hw x hx
    have hmem : resolve w x ∈ rows.map some :=
      hrows ▸ mem_flatMap.mpr ⟨w, hw, List.mem_map_of_mem hx⟩
    obtain ⟨_, -, hy⟩ := List.mem_map.mp hmem
    rw [← hy]
    rfl

/-- All rows are in the output if references that find rows find the right ones. -/
theorem complete_iff (dataDir : String) (hlen : 2 ≤ files.length)
    (h : ∀ f ∈ files, f.fails = false) :
    (∀ nowMs written sst, mergeFiles dataDir nowMs written files = .returned (.ok sst) →
        sst.rows = mergeRows (files.map fun f ↦ f.clean.rows)) ↔
      (Finds (files.map clean) → MergeStream.Resolves (files.map clean)) := by
  have hrows : (files.map clean).map MergeInput.rows = files.map fun f ↦ f.clean.rows :=
    List.map_map
  constructor
  · intro hall hfinds
    obtain ⟨_, hres⟩ := finds_iff.mp hfinds
    obtain ⟨batches, ⟨out, hout, hfin⟩, -⟩ := (MergeStream.exists_batches_rows_iff _).mpr hres
    have htot := MergeStream.emitAll_totalRows hout
    by_cases hzero : out.totalRows = 0
    · -- there is nothing to find
      rw [MergeStream.Resolves, eq_nil_of_length_eq_zero (htot.symm.trans hzero)]
      exact forall_mem_nil _
    · have hmrg := hall 0 (.ok 0) _
        ((mergeFiles_of_reads hlen h).mpr ⟨out, batches, 0, hout, hfin, hzero, rfl, rfl⟩)
      rw [← MergeStream.exists_batches_iff, hrows]
      exact ⟨batches, ⟨out, hout, hfin⟩, hmrg⟩
  · intro hreso nowMs written sst hok
    obtain ⟨out, batches, _, hout, hfin, -, -, rfl⟩ := (mergeFiles_of_reads hlen h).mp hok
    have hfinds := finds_iff.mpr
      ⟨_, (MergeStream.exists_batches_rows_iff _).mp ⟨batches, ⟨out, hout, hfin⟩, rfl⟩⟩
    obtain ⟨_, ⟨_, hout', hfin'⟩, hflat⟩ := (MergeStream.exists_batches_iff _).mpr (hreso hfinds)
    cases hout.symm.trans hout'
    cases hfin.symm.trans hfin'
    rw [hrows] at hflat
    exact hflat

/-- **A failing compaction fails cleanly** if the failure is found when a file is opened. It does
not if it is found later. -/
theorem fails_cleanly_iff (c : Compactor) (read : String → Result (Reader ρ))
    (files : List SstMeta) :
    FailsCleanly c read files ↔
      files.length < 2 ∨ (∃ m ∈ files, (inputOf read m).failsAtOpen = true) ∨
        (∀ m ∈ files, (inputOf read m).fails = false) ∧
          (Finds (files.map fun m ↦ (inputOf read m).clean) →
            MergeStream.Resolves (files.map fun m ↦ (inputOf read m).clean)) := by
  have hex {p : Input ρ → Prop} :
      (∃ f ∈ files.map (inputOf read), p f) ↔ ∃ m ∈ files, p (inputOf read m) := by simp
  have hsize : (files.map (inputOf read)).length = files.length := length_map _
  have hcl : (files.map (inputOf read)).map clean =
      files.map fun m ↦ (inputOf read m).clean := List.map_map
  have hrows : (files.map (inputOf read)).map (fun f ↦ f.clean.rows) =
      files.map fun m ↦ (inputOf read m).clean.rows := List.map_map
  have hcom (hlen : 2 ≤ files.length) (hrd : ∀ m ∈ files, (inputOf read m).fails = false) :=
    complete_iff c.dataDir (hsize ▸ hlen) (List.forall_mem_map.mpr hrd)
  rw [hcl, hrows] at hcom
  constructor
  · intro h
    by_cases hlen : files.length < 2
    · exact .inl hlen
    by_cases hopen : ∃ m ∈ files, (inputOf read m).failsAtOpen = true
    · exact .inr (.inl hopen)
    have hrd : ∀ m ∈ files, (inputOf read m).fails = false := by
      intro m hm
      refine Bool.eq_false_iff.mpr fun hfail ↦ ?_
      obtain ⟨_, he⟩ := h.error ⟨m, hm, hfail⟩ 0 (.ok 0)
      have hopen : ∀ f ∈ files.map (inputOf read), f.failsAtOpen = false :=
        List.forall_mem_map.mpr fun m hm ↦
          Bool.eq_false_iff.mpr fun hfailed ↦ hopen ⟨m, hm, hfailed⟩
      rw [mergeFiles_of_breaks (hsize ▸ not_lt.mp hlen) hopen (hex.mpr ⟨m, hm, hfail⟩)] at he
      cases he
    refine .inr (.inr ⟨hrd, ?_⟩)
    exact (hcom (not_lt.mp hlen) hrd).mp fun nowMs written sst hok ↦
      (h.complete nowMs written sst hok).2
  · intro h
    refine ⟨fun hfail nowMs written ↦ ?_, ?_, fun nowMs written sst hok ↦ ?_⟩
    · rcases h with hlen | hopen | ⟨hrd, -⟩
      · exact ⟨_, if_pos (hsize ▸ hlen)⟩
      · by_cases hlen : files.length < 2
        · exact ⟨_, if_pos (hsize ▸ hlen)⟩
        · exact mergeFiles_of_failsAtOpen (hsize ▸ not_lt.mp hlen) (hex.mpr hopen)
      · obtain ⟨m, hm, hfail⟩ := hfail
        exact absurd ((hrd m hm).symm.trans hfail) Bool.false_ne_true
    · rintro hfail io s start len hpick rfl
      exact pass_unchanged hpick hfail
    · obtain ⟨hlen, hrd⟩ := reads_of_ok hok
      have hrd := List.forall_mem_map.mp hrd
      refine ⟨hrd, ?_⟩
      rcases h with hshort | hopen | ⟨-, hfinds⟩
      · exact absurd hlen (hsize ▸ not_le.mpr hshort)
      · obtain ⟨m, hm, hfailed⟩ := hopen
        have hop := failsAtOpen_of_reads (hrd m hm)
        exact absurd (hop.symm.trans hfailed) Bool.false_ne_true
      · exact (hcom (hsize ▸ hlen) hrd).mpr hfinds nowMs written sst hok

/-- Two files that follow each other. -/
def twoMetas : List SstMeta :=
  [{ sizedMeta 10 1 2 with filePath := "t/a" }, { sizedMeta 10 3 3 with filePath := "t/b" }]

/-- The second batch of the first file cannot be read. -/
def brokenRead (path : String) : Result (Reader Char) :=
  if path = "t/a" then .ok [.ok [(1, 'a')], .error (.storage "read failed")]
  else .ok [.ok [(3, 'c')]]

/-- The pass picks the two files, and panics in the merge. -/
theorem broken_batch_panics :
    pickCompaction twoMetas .sizeTiered 100 8 = some (0, 2) ∧
      mergeFiles "t" 9 (.ok 20) (twoMetas.map (inputOf brokenRead)) = .panicked := by
  decide +kernel

end ReadFailure

end MonoTS
