import MonoTS.Common
import MonoTS.Lib.Gather
import MonoTS.Lib.Ledger
import MonoTS.Lib.Windows

/-!
# The merge stream of a query

`LsmPriorityMergeStream` merges the streams of the layers of a table, and is itself a stream: it is
polled, and answers that it is pending, that it has a batch, or that it is done. It polls its inputs
in turn, each of which may be pending at any time. A heap has a cursor for every input that has a
batch. The smallest timestamp is popped, of the layer with the smallest priority that has it; its
row is noted unless the timestamp was the last one, and the cursor is advanced, which may poll its
input. Noted rows become a batch every `8192` rows and when nothing is left.

An input gets its cursor back with its next batch, if that has rows. If it has none, nothing polls
the input again, and the rows behind the empty batch are not read. What is left to merge are the
rows of the cursors and what will be read of the inputs (`inputs`). A fetch leaves them as they are
(`fetch_keeps`), and a cursor that is popped and advanced takes one row of them
(`inputs_perm_of_popCursor`, `advanceCursor_spec`).

A stream is the list of its answers here. A batch is known by its stream and its number there, in
place of its address: a chunk keeps the batches it refers to, so that two of them do not have the
same address.
-/

open List

namespace MonoTS

open KWayMerge

namespace LsmStream

variable {ρ : Type*}

/-! ## Streams -/

/-- An answer of a poll. -/
inductive Poll (α : Type*) where
  | pending
  | ready (value : α)

/-- What an input answers next. -/
inductive Event (ρ : Type*) where
  | pending
  | batch (rows : List (ℤ × ρ))
  | error (e : TsdbError)
  deriving DecidableEq, Repr

/-- An input: its answers, its priority, and how many batches it has given. -/
structure LayerStream (ρ : Type*) where
  events : List (Event ρ)
  priority : ℕ
  fetched : ℕ

/-- All rows of the batches that are still to come. -/
def Event.rows : Event ρ → List (ℤ × ρ)
  | .batch rows => rows
  | _ => []

def LayerStream.rows (l : LayerStream ρ) : List (ℤ × ρ) := l.events.flatMap Event.rows

/-- `poll_next` of an input. Behind its last answer it is done. -/
def LayerStream.pollNext (l : LayerStream ρ) :
    Poll (Option (Result (List (ℤ × ρ)))) × LayerStream ρ :=
  match l.events with
  | [] => (.ready none, l)
  | .pending :: events => (.pending, { l with events := events })
  | .batch rows :: events =>
    (.ready (some (.ok rows)), { l with events := events, fetched := l.fetched + 1 })
  | .error e :: events => (.ready (some (.error e)), { l with events := events })

/-! ## The heap -/

/-- The address of a batch. -/
abbrev Address := ℕ × ℕ

/-- The row a stream is at. -/
structure HeapCursor (ρ : Type*) where
  ts : ℤ
  layerPriority : ℕ
  streamIdx : ℕ
  rowIdx : ℕ
  batch : List (ℤ × ρ)
  address : Address

/-- The order in which cursors are popped: smaller timestamps first, then smaller priorities. -/
def HeapCursor.rank (c : HeapCursor ρ) : ℤ ×ₗ ℕ := toLex (c.ts, c.layerPriority)

def popCursor (heap : List (HeapCursor ρ)) : Option (HeapCursor ρ × List (HeapCursor ρ)) :=
  popMin HeapCursor.rank heap

/-! ## The merge stream -/

def outputBatchSize : ℕ := 8192

/-- The state of the merge stream; the chunk is a table of the noted rows. -/
structure MergeStream (ρ : Type*) where
  streams : List (LayerStream ρ)
  heap : List (HeapCursor ρ)
  initialized : Bool
  streamInitIdx : ℕ
  lastEmittedTs : Option ℤ
  chunk : Gather.Table Address (ℤ × ρ)
  pendingStreamFetch : Option ℕ

namespace MergeStream

def new (streams : List (LayerStream ρ)) : MergeStream ρ :=
  ⟨streams, [], false, 0, none, .empty, none⟩

variable (s : MergeStream ρ) (idx : ℕ)

/-- Poll an input. -/
def pollStream : Poll (Option (Result (List (ℤ × ρ)))) × MergeStream ρ :=
  match s.streams[idx]? with
  | none => (.ready none, s)
  | some l => (l.pollNext.1, { s with streams := s.streams.set idx l.pollNext.2 })

/-- The batch that an input gave goes to the heap if it has rows. -/
def pushBatch : List (ℤ × ρ) → MergeStream ρ
  | [] => s
  | first :: rows =>
    match s.streams[idx]? with
    | none => s
    | some l =>
      { s with heap :=
          ⟨first.1, l.priority, idx, 0, first :: rows, (idx, l.fetched)⟩ :: s.heap }

/-- Poll an input and take its batch, as all three callers do. -/
def fetch : Poll (Result Unit) × MergeStream ρ :=
  match s.pollStream idx with
  | (.pending, s) => (.pending, s)
  | (.ready (some (.ok rows)), s) => (.ready (.ok ()), s.pushBatch idx rows)
  | (.ready (some (.error e)), s) => (.ready (.error e), s)
  | (.ready none, s) => (.ready (.ok ()), s)

def continuePendingFetch : Poll (Result Unit) × MergeStream ρ :=
  match s.fetch idx with
  | (.ready (.ok ()), s) => (.ready (.ok ()), { s with pendingStreamFetch := none })
  | (.ready (.error e), s) => (.ready (.error e), s)
  | (.pending, s) => (.pending, s)

/-- The loop of `ensure_initialized` over the given number of inputs that have not been polled. -/
def initializeFrom : ℕ → MergeStream ρ → Poll (Result Unit) × MergeStream ρ
  | 0, s => (.ready (.ok ()), { s with initialized := true })
  | left + 1, s =>
    match s.fetch s.streamInitIdx with
    | (.ready (.ok ()), s) => initializeFrom left { s with streamInitIdx := s.streamInitIdx + 1 }
    | (.ready (.error e), s) => (.ready (.error e), s)
    | (.pending, s) => (.pending, s)

def ensureInitialized : Poll (Result Unit) × MergeStream ρ :=
  if s.initialized then (.ready (.ok ()), s)
  else initializeFrom (s.streams.length - s.streamInitIdx) s

def takeChunk : Result (List (ℤ × ρ)) × MergeStream ρ :=
  let s' := { s with chunk := .empty }
  match Gather.gather s.chunk.sources s.chunk.indices with
  | some rows => (.ok rows, s')
  | none => (.error (.query "index out of bounds"), s')

def advanceCursor (cursor : HeapCursor ρ) : Poll (Result Unit) × MergeStream ρ :=
  match cursor.batch[cursor.rowIdx + 1]? with
  | some next =>
    (.ready (.ok ()), { s with heap :=
      { cursor with rowIdx := cursor.rowIdx + 1, ts := next.1 } :: s.heap })
  | none =>
    match s.fetch cursor.streamIdx with
    | (.ready (.ok ()), s) => (.ready (.ok ()), s)
    | (.ready (.error e), s) => (.ready (.error e), s)
    | (.pending, s) => (.pending, { s with pendingStreamFetch := some cursor.streamIdx })

/-- Behind the inner loop: hand on what has been collected. -/
def flush : Poll (Option (Result (List (ℤ × ρ)))) × MergeStream ρ :=
  if s.chunk.indices.isEmpty then (.ready none, s) else (.ready (some s.takeChunk.1), s.takeChunk.2)

/-- The loop of `poll_next`, with a bound on the number of rounds. -/
def mergeLoop : ℕ → MergeStream ρ → Poll (Option (Result (List (ℤ × ρ)))) × MergeStream ρ
  | 0, s => (.pending, s)
  | fuel + 1, s =>
    if outputBatchSize ≤ s.chunk.indices.length then s.flush
    else
      match popCursor s.heap with
      | none => s.flush
      | some (cursor, heap) =>
        let s := { s with heap := heap }
        if s.lastEmittedTs = some cursor.ts then
          match s.advanceCursor cursor with
          | (.ready (.ok ()), s) => s.mergeLoop fuel
          | (.ready (.error e), s) => (.ready (some (.error e)), s)
          | (.pending, s) => (.pending, s)
        else
          let s := { s with
            lastEmittedTs := some cursor.ts
            chunk := s.chunk.push cursor.batch cursor.rowIdx cursor.address }
          if outputBatchSize ≤ s.chunk.indices.length then
            match s.takeChunk with
            | (.error e, s) => (.ready (some (.error e)), s)
            | (.ok batch, s) =>
              match s.advanceCursor cursor with
              | (.ready (.ok ()), s) => (.ready (some (.ok batch)), s)
              | (.ready (.error e), s) => (.ready (some (.error e)), s)
              | (.pending, s) => (.ready (some (.ok batch)), s)
          else
            match s.advanceCursor cursor with
            | (.ready (.ok ()), s) => s.mergeLoop fuel
            | (.ready (.error e), s) => (.ready (some (.error e)), s)
            | (.pending, s) => (.pending, s)

/-- The rows of the cursors and of their inputs: a bound on the number of rounds. -/
def rowsLeft : ℕ :=
  (s.heap.map fun c ↦
    c.batch.length + (s.streams[c.streamIdx]?.elim 0 fun l ↦ l.rows.length)).sum

/-- `poll_next` behind a pending fetch. -/
def pollInitialized : Poll (Option (Result (List (ℤ × ρ)))) × MergeStream ρ :=
  match s.ensureInitialized with
  | (.ready (.ok ()), s) => s.mergeLoop (s.rowsLeft + 1)
  | (.ready (.error e), s) => (.ready (some (.error e)), s)
  | (.pending, s) => (.pending, s)

def pollNext : Poll (Option (Result (List (ℤ × ρ)))) × MergeStream ρ :=
  match s.pendingStreamFetch with
  | none => s.pollInitialized
  | some idx =>
    match s.continuePendingFetch idx with
    | (.ready (.ok ()), s) => s.pollInitialized
    | (.ready (.error e), s) => (.ready (some (.error e)), s)
    | (.pending, s) => (.pending, s)

/-- The batches that the stream gives until it is done, if the given number of polls is enough. -/
def drain : ℕ → MergeStream ρ → Option (List (List (ℤ × ρ)))
  | 0, _ => none
  | polls + 1, s =>
    match s.pollNext with
    | (.pending, s) => s.drain polls
    | (.ready none, _) => some []
    | (.ready (some (.ok batch)), s) => (s.drain polls).map (batch :: ·)
    | (.ready (some (.error _)), _) => none

end MergeStream

/-! ## What is left to merge -/

/-- A row with where it is noted, and its value. -/
abbrev Ref (ρ : Type*) := Gather.Entry Address (ℤ × ρ) × ρ

/-- The rows of a batch, with their coordinates. -/
def tagBatch (address : Address) (batch : List (ℤ × ρ)) : List (ℤ × Ref ρ) :=
  batch.zipIdx.map fun (x, i) ↦ (x.1, ⟨batch, i, address⟩, x.2)

/-- The rows that will be read of a stream: those in front of its first empty batch. -/
def visible (idx : ℕ) : ℕ → List (Event ρ) → List (ℤ × Ref ρ)
  | _, [] => []
  | fetched, .pending :: events => visible idx fetched events
  | _, .batch [] :: _ => []
  | fetched, .batch (x :: rows) :: events =>
    tagBatch (idx, fetched + 1) (x :: rows) ++ visible idx (fetched + 1) events
  | fetched, .error _ :: events => visible idx fetched events

/-- An input of the merge. Smaller numbers are higher priorities. -/
abbrev RefCursor (ρ : Type*) := Cursor ℕᵒᵈ ℤ (Ref ρ)

namespace MergeStream

variable (s : MergeStream ρ)

def priorityOf (idx : ℕ) : ℕᵒᵈ :=
  OrderDual.toDual (s.streams[idx]?.elim 0 LayerStream.priority)

def streamRows (idx : ℕ) : List (ℤ × Ref ρ) :=
  s.streams[idx]?.elim [] fun l ↦ visible idx l.fetched l.events

def cursorRows (c : HeapCursor ρ) : List (ℤ × Ref ρ) :=
  (tagBatch c.address c.batch).drop c.rowIdx ++ s.streamRows c.streamIdx

/-- The rows that are left of the inputs in the heap and of the given inputs. -/
def sources (waiting : List ℕ) : List (ℕᵒᵈ × List (ℤ × Ref ρ)) :=
  s.heap.map (fun c ↦ (s.priorityOf c.streamIdx, s.cursorRows c)) ++
    waiting.map fun idx ↦ (s.priorityOf idx, s.streamRows idx)

/-- The inputs that have to be polled before anything is merged. -/
def waiting : List ℕ :=
  s.pendingStreamFetch.toList ++
    if s.initialized then [] else List.range' s.streamInitIdx (s.streams.length - s.streamInitIdx)

def inputs (waiting : List ℕ) : List (RefCursor ρ) :=
  (s.sources waiting).filterMap fun p ↦ Cursor.ofRows p.1 p.2

def eventsLeft : ℕ := (s.streams.map fun l ↦ l.events.length).sum

/-- The cursor is at a row of its batch, and has the priority of its input. -/
structure CursorValid (s : MergeStream ρ) (c : HeapCursor ρ) : Prop where
  row : ∃ v, c.batch[c.rowIdx]? = some (c.ts, v)
  priority : s.priorityOf c.streamIdx = OrderDual.toDual c.layerPriority
  lt : c.streamIdx < s.streams.length

/-- An input has one cursor or is waiting, but not both, and none fails. -/
structure Valid (s : MergeStream ρ) (waiting : List ℕ) : Prop where
  cursors : ∀ c ∈ s.heap, s.CursorValid c
  distinct : (s.heap.map HeapCursor.streamIdx ++ waiting).Nodup
  lt : ∀ idx ∈ waiting, idx < s.streams.length
  noError : ∀ l ∈ s.streams, ∀ e, .error e ∉ l.events

variable {s : MergeStream ρ} {idx : ℕ} {waiting : List ℕ}

theorem Valid.congr {s' : MergeStream ρ} (h : s.Valid waiting)
    (hstrm : s'.streams = s.streams) (hheap : s'.heap = s.heap) : s'.Valid waiting := by
  have hprio (idx : ℕ) : s'.priorityOf idx = s.priorityOf idx := by
    rw [priorityOf, priorityOf, hstrm]
  refine ⟨fun c hc ↦ ?_, hheap ▸ h.distinct, hstrm ▸ h.lt, hstrm ▸ h.noError⟩
  have hc := h.cursors c (hheap ▸ hc)
  exact ⟨hc.row, (hprio _).trans hc.priority, hstrm ▸ hc.lt⟩

/-- The second state has the same rows left to merge. -/
structure Keeps (s : MergeStream ρ) (waiting : List ℕ) (s' : MergeStream ρ) (waiting' : List ℕ) :
    Prop where
  valid : s'.Valid waiting'
  inputs : (s'.inputs waiting').Perm (s.inputs waiting)
  lastTs : s'.lastEmittedTs = s.lastEmittedTs
  chunk : s'.chunk = s.chunk
  length : s'.streams.length = s.streams.length
  events : s'.eventsLeft ≤ s.eventsLeft

theorem Keeps.refl {w : List ℕ} (h : s.Valid w) : s.Keeps w s w :=
  ⟨h, .refl _, rfl, rfl, rfl, le_rfl⟩

theorem Keeps.congr {s' s'' : MergeStream ρ} {w w' : List ℕ} (h : s.Keeps w s' w')
    (hstrm : s''.streams = s'.streams) (hheap : s''.heap = s'.heap)
    (hlast : s''.lastEmittedTs = s'.lastEmittedTs) (hch : s''.chunk = s'.chunk) :
    s.Keeps w s'' w' where
  valid := h.valid.congr hstrm hheap
  inputs := by
    have hin : s''.inputs w' = s'.inputs w' := by
      obtain ⟨⟩ := s''
      cases hstrm
      cases hheap
      rfl
    exact hin ▸ h.inputs
  lastTs := hlast.trans h.lastTs
  chunk := hch.trans h.chunk
  length := hstrm ▸ h.length
  events := by
    rw [eventsLeft, hstrm]
    exact h.events

/-! ## Fetching a batch -/

theorem fetch_cases {l : LayerStream ρ} (hl : s.streams[idx]? = some l)
    (hnoEr : ∀ e, .error e ∉ l.events) :
    (∃ l', s.fetch idx = (.pending, { s with streams := s.streams.set idx l' }) ∧
      l'.priority = l.priority ∧ l'.events <:+ l.events ∧ l'.events.length < l.events.length ∧
      visible idx l'.fetched l'.events = visible idx l.fetched l.events) ∨
    (∃ l', s.fetch idx = (.ready (.ok ()), { s with streams := s.streams.set idx l' }) ∧
      l'.priority = l.priority ∧ l'.events <:+ l.events ∧
      visible idx l.fetched l.events = []) ∨
    ∃ l' first rows, s.fetch idx = (.ready (.ok ()), { s with
        streams := s.streams.set idx l'
        heap := ⟨first.1, l'.priority, idx, 0, first :: rows, (idx, l'.fetched)⟩ :: s.heap }) ∧
      l'.priority = l.priority ∧ l'.events <:+ l.events ∧
      visible idx l.fetched l.events =
        tagBatch (idx, l'.fetched) (first :: rows) ++ visible idx l'.fetched l'.events := by
  obtain ⟨events, priority, fetched⟩ := l
  have hlt := (List.getElem?_eq_some_iff.mp hl).1
  cases events with
  | nil =>
    refine .inr (.inl ⟨⟨[], priority, fetched⟩, ?_, rfl, suffix_refl _, rfl⟩)
    simp only [fetch, pollStream, hl, LayerStream.pollNext]
  | cons event events =>
    cases event with
    | pending =>
      refine .inl ⟨⟨events, priority, fetched⟩, ?_, rfl, suffix_cons _ _, Nat.lt_succ_self _, rfl⟩
      simp only [fetch, pollStream, hl, LayerStream.pollNext]
    | error e => exact absurd mem_cons_self (hnoEr e)
    | batch rows =>
      cases rows with
      | nil =>
        refine .inr (.inl ⟨⟨events, priority, fetched + 1⟩, ?_, rfl, suffix_cons _ _, rfl⟩)
        simp only [fetch, pollStream, hl, LayerStream.pollNext, pushBatch]
      | cons first rows =>
        refine .inr (.inr ⟨⟨events, priority, fetched + 1⟩, first, rows, ?_, rfl,
          suffix_cons _ _, rfl⟩)
        simp only [fetch, pollStream, hl, LayerStream.pollNext, pushBatch, getElem?_set_self hlt]

section

variable {s : MergeStream ρ} {idx : ℕ} {l l' : LayerStream ρ} {heap : List (HeapCursor ρ)}

abbrev setStream (s : MergeStream ρ) (idx : ℕ) (l' : LayerStream ρ) (heap : List (HeapCursor ρ)) :
    MergeStream ρ :=
  { s with streams := s.streams.set idx l', heap := heap }

theorem streamRows_set_ne {i : ℕ} (hi : idx ≠ i) :
    (s.setStream idx l' heap).streamRows i = s.streamRows i := by
  simp only [streamRows, getElem?_set_ne hi]

variable (hl : s.streams[idx]? = some l)
include hl

theorem priorityOf_set (hprio : l'.priority = l.priority) (i : ℕ) :
    (s.setStream idx l' heap).priorityOf i = s.priorityOf i := by
  by_cases hi : idx = i
  · subst hi
    simp only [priorityOf, getElem?_set_self (List.getElem?_eq_some_iff.mp hl).1, hl,
      Option.elim_some, hprio]
  · simp only [priorityOf, getElem?_set_ne hi]

theorem streamRows_set_self :
    (s.setStream idx l' heap).streamRows idx = visible idx l'.fetched l'.events := by
  simp only [streamRows, getElem?_set_self (List.getElem?_eq_some_iff.mp hl).1, Option.elim_some]

theorem streamRows_eq : s.streamRows idx = visible idx l.fetched l.events := by
  simp only [streamRows, hl, Option.elim_some]

theorem eventsLeft_set (l' : LayerStream ρ) (heap : List (HeapCursor ρ)) :
    ({ s with streams := s.streams.set idx l', heap := heap } : MergeStream ρ).eventsLeft +
      l.events.length = s.eventsLeft + l'.events.length :=
  Ledger.sum_map_set _ hl

theorem Valid.cursors_set (h : s.Valid waiting)
    (hprio : l'.priority = l.priority) : ∀ c ∈ s.heap, (s.setStream idx l' heap).CursorValid c := by
  intro c hc
  have hval := h.cursors c hc
  refine ⟨hval.row, (priorityOf_set hl hprio _).trans hval.priority, ?_⟩
  simpa using hval.lt

theorem Valid.noError_set (h : s.Valid waiting)
    (hsuff : l'.events <:+ l.events) : ∀ k ∈ s.streams.set idx l', ∀ e, .error e ∉ k.events := by
  intro k hk e he
  rcases mem_or_eq_of_mem_set hk with hk | rfl
  · exact h.noError k hk e he
  · exact h.noError l (mem_of_getElem? hl) e (hsuff.subset he)

variable (hprio : l'.priority = l.priority)

include hprio

theorem heapSources_set (hidx : idx ∉ s.heap.map HeapCursor.streamIdx) :
    s.heap.map (fun c ↦
        ((s.setStream idx l' heap).priorityOf c.streamIdx,
          (s.setStream idx l' heap).cursorRows c)) =
      s.heap.map fun c ↦ (s.priorityOf c.streamIdx, s.cursorRows c) := by
  refine map_congr_left fun c hc ↦ ?_
  have hne : idx ≠ c.streamIdx := fun heq ↦ hidx (heq ▸ mem_map_of_mem hc)
  rw [priorityOf_set hl hprio, cursorRows, cursorRows, streamRows_set_ne hne]

theorem waitingSources_set (hidx : idx ∉ waiting) : waiting.map (fun i ↦
        ((s.setStream idx l' heap).priorityOf i, (s.setStream idx l' heap).streamRows i)) =
      waiting.map fun i ↦ (s.priorityOf i, s.streamRows i) := by
  refine map_congr_left fun i hi ↦ ?_
  have hne : idx ≠ i := fun heq ↦ hidx (heq ▸ hi)
  rw [priorityOf_set hl hprio, streamRows_set_ne hne]

end

/-- **A fetch** leaves the rows where they are: the input stays a waiting one, or it goes to the
heap, or there is nothing left to read of it. -/
theorem fetch_keeps (h : s.Valid (idx :: waiting)) :
    ∃ streams heap, let s' : MergeStream ρ := { s with streams := streams, heap := heap }
      (s.fetch idx = (.pending, s') ∧ s.Keeps (idx :: waiting) s' (idx :: waiting) ∧
          s'.eventsLeft < s.eventsLeft) ∨
        (s.fetch idx = (.ready (.ok ()), s') ∧ s.Keeps (idx :: waiting) s' waiting) := by
  have hlt := h.lt idx mem_cons_self
  obtain ⟨l, hl⟩ : ∃ l, s.streams[idx]? = some l := ⟨_, getElem?_eq_getElem hlt⟩
  obtain ⟨_, hwait, hnot⟩ := nodup_append.mp h.distinct
  have hidx : idx ∉ s.heap.map HeapCursor.streamIdx := fun hmem ↦
    hnot idx hmem idx mem_cons_self rfl
  obtain ⟨hidx', _⟩ := nodup_cons.mp hwait
  rcases fetch_cases hl (h.noError l (mem_of_getElem? hl)) with
    ⟨l', hft, hprio, hsuff, hlen, hvis⟩ | ⟨l', hft, hprio, hsuff, hvis⟩ |
    ⟨l', first, rows, hft, hprio, hsuff, hvis⟩
  · refine ⟨s.streams.set idx l', s.heap, .inl ⟨hft, ⟨?_, ?_, rfl, rfl, length_set, ?_⟩, ?_⟩⟩
    · refine ⟨h.cursors_set hl hprio, h.distinct, ?_, h.noError_set hl hsuff⟩
      simpa using h.lt
    · rw [inputs, sources, map_cons, streamRows_set_self hl, priorityOf_set hl hprio, hvis,
        ← streamRows_eq hl, heapSources_set hl hprio hidx, waitingSources_set hl hprio hidx']
      exact .refl _
    · have := eventsLeft_set hl l' s.heap
      omega
    · have := eventsLeft_set hl l' s.heap
      omega
  · refine ⟨s.streams.set idx l', s.heap, .inr ⟨hft, ?_, ?_, rfl, rfl, length_set, ?_⟩⟩
    · refine ⟨h.cursors_set hl hprio, ?_, ?_, h.noError_set hl hsuff⟩
      · exact h.distinct.sublist ((sublist_cons_self _ _).append_left _)
      · simpa using fun i hi ↦ h.lt i (mem_cons_of_mem _ hi)
    · rw [inputs, sources, heapSources_set hl hprio hidx, waitingSources_set hl hprio hidx', inputs,
        sources, map_cons, streamRows_eq hl, hvis, filterMap_append,
        filterMap_append, filterMap_cons_none rfl]
    · have := eventsLeft_set hl l' s.heap
      have := hsuff.length_le
      omega
  · refine ⟨s.streams.set idx l',
      ⟨first.1, l'.priority, idx, 0, first :: rows, (idx, l'.fetched)⟩ :: s.heap,
      .inr ⟨hft, ?_, ?_, rfl, rfl, length_set, ?_⟩⟩
    · refine ⟨forall_mem_cons.mpr ⟨⟨⟨first.2, rfl⟩, ?_, ?_⟩, h.cursors_set hl hprio⟩, ?_, ?_,
        h.noError_set hl hsuff⟩
      · rw [priorityOf_set hl hprio, priorityOf, hl, hprio]
        rfl
      · simpa using hlt
      · exact perm_middle.nodup_iff.mp h.distinct
      · simpa using fun i hi ↦ h.lt i (mem_cons_of_mem _ hi)
    · rw [inputs, sources, map_cons, priorityOf_set hl hprio, cursorRows,
        streamRows_set_self hl, drop_zero, ← hvis, ← streamRows_eq hl,
        heapSources_set hl hprio hidx, waitingSources_set hl hprio hidx', inputs, sources,
        map_cons]
      exact perm_middle.symm.filterMap _
    · have := eventsLeft_set hl l'
        (⟨first.1, l'.priority, idx, 0, first :: rows, (idx, l'.fetched)⟩ :: s.heap)
      have := hsuff.length_le
      omega

/-! ## Popping and advancing a cursor -/

variable {c : HeapCursor ρ}

theorem CursorValid.cursorRows_eq (h : s.CursorValid c) :
    ∃ v, c.batch[c.rowIdx]? = some (c.ts, v) ∧ s.cursorRows c =
      (c.ts, ⟨c.batch, c.rowIdx, c.address⟩, v) ::
        ((tagBatch c.address c.batch).drop (c.rowIdx + 1) ++ s.streamRows c.streamIdx) := by
  obtain ⟨v, hrow⟩ := h.row
  obtain ⟨hlt, hget⟩ := List.getElem?_eq_some_iff.mp hrow
  have hlen : c.rowIdx < (tagBatch c.address c.batch).length := by simpa [tagBatch] using hlt
  refine ⟨v, hrow, ?_⟩
  rw [cursorRows, drop_eq_getElem_cons hlen, cons_append]
  simp [tagBatch, hget]

/-- The input of a cursor in the heap. -/
def refCursor (s : MergeStream ρ) (c : HeapCursor ρ) (v : ρ) : RefCursor ρ :=
  ⟨s.priorityOf c.streamIdx, (c.ts, ⟨c.batch, c.rowIdx, c.address⟩, v),
    (tagBatch c.address c.batch).drop (c.rowIdx + 1) ++ s.streamRows c.streamIdx⟩

theorem CursorValid.ofRows_eq (h : s.CursorValid c) :
    ∃ v, c.batch[c.rowIdx]? = some (c.ts, v) ∧
      Cursor.ofRows (s.priorityOf c.streamIdx) (s.cursorRows c) =
        some (s.refCursor c v) := by
  obtain ⟨v, hrow, hrows⟩ := h.cursorRows_eq
  exact ⟨v, hrow, by rw [hrows]; rfl⟩

theorem inputs_nil (s : MergeStream ρ) :
    s.inputs [] = (s.heap.map fun c ↦ (s.priorityOf c.streamIdx, s.cursorRows c)).filterMap
      fun p ↦ Cursor.ofRows p.1 p.2 := by
  rw [inputs, sources, map_nil, append_nil]

theorem filterMap_cons_toList {α β : Type*} (f : α → Option β) (a : α) (l : List α) :
    (a :: l).filterMap f = (f a).toList ++ l.filterMap f := by
  rw [filterMap_cons]
  cases f a <;> rfl

theorem inputs_singleton (s : MergeStream ρ) (idx : ℕ) :
    s.inputs [idx] = s.inputs [] ++
      (Cursor.ofRows (s.priorityOf idx) (s.streamRows idx)).toList := by
  rw [inputs_nil, inputs, sources, filterMap_append, map_singleton,
    filterMap_cons_toList, filterMap_nil, append_nil]

theorem waiting_eq_nil (hinit : s.initialized = true) (hpend : s.pendingStreamFetch = none) :
    s.waiting = [] := by
  simp [waiting, hinit, hpend]

theorem waiting_eq_singleton (hinit : s.initialized = true)
    (hpend : s.pendingStreamFetch = some idx) : s.waiting = [idx] := by
  simp [waiting, hinit, hpend]

theorem inputs_perm_of_popCursor {rest : List (HeapCursor ρ)} (h : s.Valid [])
    (hpop : popCursor s.heap = some (c, rest)) :
    ({ s with heap := rest } : MergeStream ρ).Valid [c.streamIdx] ∧
      ∃ v, c.batch[c.rowIdx]? = some (c.ts, v) ∧
        (s.inputs []).Perm
          (s.refCursor c v :: ({ s with heap := rest } : MergeStream ρ).inputs []) ∧
        ∀ d ∈ s.inputs [], (s.refCursor c v).rank ≤ d.rank := by
  obtain ⟨hperm, hfst⟩ := popMin_spec hpop
  have hc := h.cursors c (hperm.mem_iff.mpr mem_cons_self)
  obtain ⟨v, hrow, hcur⟩ := hc.ofRows_eq
  refine ⟨⟨fun d hd ↦ ?_, ?_, ?_, h.noError⟩, v, hrow, ?_, fun d hd ↦ ?_⟩
  · have hd := h.cursors d (hperm.mem_iff.mpr (mem_cons_of_mem _ hd))
    exact { hd with }
  · have hnd := h.distinct
    rw [append_nil, (hperm.map _).nodup_iff] at hnd
    exact perm_append_singleton _ _ |>.nodup_iff.mpr hnd
  · simpa using hc.lt
  · have hmap := (hperm.map fun c ↦ (s.priorityOf c.streamIdx, s.cursorRows c)).filterMap
      fun p ↦ Cursor.ofRows p.1 p.2
    rw [map_cons, filterMap_cons] at hmap
    simp only [hcur] at hmap
    rw [inputs_nil, inputs_nil]
    exact hmap
  · rw [inputs_nil, filterMap_map] at hd
    obtain ⟨c', hc', hd⟩ := mem_filterMap.mp hd
    have hval := h.cursors c' hc'
    obtain ⟨v', -, hcur'⟩ := hval.ofRows_eq
    obtain rfl : s.refCursor c' v' = d := Option.some.inj (hcur'.symm.trans hd)
    have hrank := Prod.Lex.toLex_le_toLex.mp (hfst c' hc')
    refine Prod.Lex.toLex_le_toLex.mpr (hrank.imp_right fun ⟨hts, hprio⟩ ↦ ⟨hts, ?_⟩)
    rw [refCursor, refCursor, hc.priority, hval.priority]
    exact hprio

/-- **An advanced cursor** is in the heap again, or its input has to be polled; either way what is
left of it is what was behind its row. -/
theorem advanceCursor_spec {v : ρ} (h : s.Valid [c.streamIdx])
    (hprio : s.priorityOf c.streamIdx = OrderDual.toDual c.layerPriority)
    (hinit : s.initialized = true) (hpend : s.pendingStreamFetch = none) :
    ∃ s' : MergeStream ρ, s'.Valid s'.waiting ∧ s'.initialized = true ∧
      (s'.inputs s'.waiting).Perm (push (s.refCursor c v) (s.inputs [])) ∧
      s'.lastEmittedTs = s.lastEmittedTs ∧ s'.chunk = s.chunk ∧ s'.eventsLeft ≤ s.eventsLeft ∧
      (s.advanceCursor c = (.ready (.ok ()), s') ∧ s'.pendingStreamFetch = none ∨
        s.advanceCursor c = (.pending, s')) := by
  rw [advanceCursor]
  cases hnext : c.batch[c.rowIdx + 1]? with
  | some next =>
    refine ⟨{ s with heap := { c with rowIdx := c.rowIdx + 1, ts := next.1 } :: s.heap }, ?_, hinit,
      ?_, rfl, rfl, le_rfl, .inl ⟨rfl, hpend⟩⟩
    · rw [waiting_eq_nil (by exact hinit) (by exact hpend)]
      refine ⟨forall_mem_cons.mpr ⟨⟨⟨next.2, hnext⟩, hprio, h.lt _ mem_cons_self⟩,
        fun d hd ↦ ?_⟩, ?_, nofun, h.noError⟩
      · exact ⟨(h.cursors d hd).row, (h.cursors d hd).priority, (h.cursors d hd).lt⟩
      · rw [append_nil]
        exact (perm_append_singleton _ _).nodup_iff.mp h.distinct
    · rw [waiting_eq_nil (by exact hinit) (by exact hpend), inputs_nil, inputs_nil,
        map_cons, filterMap_cons_toList]
      exact .refl _
  | none =>
    have hdrop : (tagBatch c.address c.batch).drop (c.rowIdx + 1) = [] := by
      refine drop_eq_nil_of_le ?_
      simpa [tagBatch] using hnext
    have hpush : (s.inputs [c.streamIdx]).Perm (push (s.refCursor c v) (s.inputs [])) := by
      rw [inputs_singleton, push, Cursor.advance, refCursor, hdrop, nil_append]
      exact perm_append_comm
    obtain ⟨streams, heap, ⟨hft, hkeep, -⟩ | ⟨hft, hkeep⟩⟩ := fetch_keeps h
    · refine ⟨{ s with
        streams := streams, heap := heap, pendingStreamFetch := some c.streamIdx }, ?_, hinit, ?_,
        rfl, rfl, hkeep.events, .inr ?_⟩
      · rw [waiting_eq_singleton (by exact hinit) rfl]
        exact hkeep.valid.congr rfl rfl
      · rw [waiting_eq_singleton (by exact hinit) rfl]
        exact hkeep.inputs.trans hpush
      · simp only [hft]
    · refine ⟨{ s with streams := streams, heap := heap }, ?_, hinit, ?_, rfl, rfl, hkeep.events,
        .inl ⟨?_, hpend⟩⟩
      · rw [waiting_eq_nil (by exact hinit) (by exact hpend)]
        exact hkeep.valid
      · rw [waiting_eq_nil (by exact hinit) (by exact hpend)]
        exact hkeep.inputs.trans hpush
      · simp only [hft]

end MergeStream

end LsmStream

end MonoTS
