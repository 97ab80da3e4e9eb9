import MonoTS.Stream.Event

/-!
# The capture buffer

What a source has captured and the pipeline has not taken yet, in three queues: logged rows and
watermarks, flushed files, and compacted files. Adjacent inserts become one, a flushed file drops
the logged rows and watermarks it covers, and a compacted file takes the place of the files it
covers.

The next event is the head with the smallest `base_lsn`; at equal LSNs a file comes before the rows
it might hold, and a watermark comes last. Taking an event removes it: nothing puts it back but
`requeue_front`, which no part of the pipeline calls.

The queues are kept sorted by `base_lsn`, and insertion looks for its place by bisection. Here the
place is the end of the initial segment of smaller LSNs, the same in a sorted queue.
-/

open List

namespace MonoTS

/-- How many events a flushed file has made superfluous. -/
structure FlushDegradeResult where
  droppedInserts : ℕ
  droppedWatermarks : ℕ

/-- A queue of the buffer. -/
inductive QType where
  | compact
  | flush
  | insert

/-- The events that wait for the dispatcher. -/
structure CaptureBuffer where
  insertQ : List DataEvent := []
  flushQ : List DataEvent := []
  compactQ : List DataEvent := []
  deriving DecidableEq, Repr

namespace CaptureBuffer

/-! ## Merging and order -/

def isFullyCovered (inner cover : LsnRange) : Bool :=
  cover.baseLsn ≤ inner.baseLsn && inner.maxLsn ≤ cover.maxLsn

def isContiguous (left right : LsnRange) : Bool := saturatingAdd left.maxLsn 1 = right.baseLsn

/-- Adjacent inserts are one if both are resident or both deferred. -/
def tryMerge : DataEvent → DataEvent → Option DataEvent
  | .insert left arrow, .insert right arrow' =>
    if isContiguous left right ∧ arrow = arrow' then
      some (.insert (.new left.baseLsn right.maxLsn) arrow)
    else none
  | _, _ => none

/-- Merge an event with those behind it as far as they are adjacent. -/
def coalesce (left : DataEvent) : List DataEvent → List DataEvent
  | [] => [left]
  | right :: rest =>
    match tryMerge left right with
    | some merged => coalesce merged rest
    | none => left :: right :: rest

variable (q : List DataEvent)

def coalesceAt (idx : ℕ) : List DataEvent :=
  match q.drop idx with
  | [] => q
  | left :: rest => q.take idx ++ coalesce left rest

/-- The place of an event in a sorted queue: behind those that do not start later. -/
def insertPos (lsn : ℕ) : ℕ :=
  (q.takeWhile fun e ↦ e.lsn.baseLsn ≤ lsn).length

variable (event : DataEvent)

def insertSorted : List DataEvent :=
  let lsn := event.lsn.baseLsn
  if q.getLast?.all fun e ↦ e.lsn.baseLsn ≤ lsn then q ++ [event]
  else q.insertIdx (insertPos q lsn) event

def insertOrMerge : List DataEvent :=
  match event with
  | .insert lsn _ =>
    match q.getLast? with
    | none => [event]
    | some back =>
      if back.lsn.baseLsn ≤ lsn.baseLsn then
        match tryMerge back event with
        | some merged => q.dropLast ++ [merged]
        | none => q ++ [event]
      else
        let pos := insertPos q lsn.baseLsn
        coalesceAt (q.insertIdx pos event) (pos - 1)
  | _ => q

section

variable {P : DataEvent → Prop} {q : List DataEvent} {event : DataEvent}

theorem tryMerge_eq_some {left right merged : DataEvent} (h : tryMerge left right = some merged) :
    ∃ lsn arrow, merged = .insert lsn arrow := by
  unfold tryMerge at h
  split at h
  · split_ifs at h
    exact ⟨_, _, (Option.some.inj h).symm⟩
  · cases h

theorem forall_coalesce (hmrg : ∀ lsn arrow, P (.insert lsn arrow)) {left : DataEvent}
    (hleft : P left) (hq : ∀ e ∈ q, P e) : ∀ e ∈ coalesce left q, P e := by
  induction q generalizing left with
  | nil => exact forall_mem_singleton.mpr hleft
  | cons right rest ih =>
    obtain ⟨_, hrest⟩ := forall_mem_cons.mp hq
    unfold coalesce
    cases hm : tryMerge left right with
    | none => exact forall_mem_cons.mpr ⟨hleft, hq⟩
    | some merged =>
      obtain ⟨lsn, arrow, rfl⟩ := tryMerge_eq_some hm
      exact ih (hmrg lsn arrow) hrest

theorem forall_insertIdx (hq : ∀ e ∈ q, P e) (hev : P event) (pos : ℕ) :
    ∀ e ∈ q.insertIdx pos event, P e := by
  intro e he
  rcases eq_or_mem_of_mem_insertIdx he with rfl | he
  · exact hev
  · exact hq e he

theorem forall_insertSorted (hq : ∀ e ∈ q, P e) (hev : P event) :
    ∀ e ∈ insertSorted q event, P e := by
  unfold insertSorted
  dsimp only
  split_ifs
  · exact forall_mem_append.mpr ⟨hq, forall_mem_singleton.mpr hev⟩
  · exact forall_insertIdx hq hev _

theorem forall_insertOrMerge (hmrg : ∀ lsn arrow, P (.insert lsn arrow)) (hq : ∀ e ∈ q, P e) :
    ∀ e ∈ insertOrMerge q event, P e := by
  unfold insertOrMerge
  split
  · next lsn arrow =>
    have hev : ∀ e ∈ [DataEvent.insert lsn arrow], P e := forall_mem_singleton.mpr (hmrg lsn arrow)
    split
    · exact hev
    · split_ifs
      · split
        · next hm =>
          obtain ⟨lsn', arrow', rfl⟩ := tryMerge_eq_some hm
          exact forall_mem_append.mpr ⟨fun e he ↦ hq e (mem_of_mem_dropLast he),
            forall_mem_singleton.mpr (hmrg lsn' arrow')⟩
        · exact forall_mem_append.mpr ⟨hq, hev⟩
      · have hins := forall_insertIdx hq (hmrg lsn arrow) (insertPos q lsn.baseLsn)
        unfold coalesceAt
        dsimp only
        split
        · exact hins
        · next hdrop =>
          rw [← take_append_drop (insertPos q lsn.baseLsn - 1) (q.insertIdx _ _), hdrop,
            forall_mem_append, forall_mem_cons] at hins
          exact forall_mem_append.mpr ⟨hins.1, forall_coalesce hmrg hins.2.1 hins.2.2⟩
  · exact hq

theorem insertSorted_append (h : ∀ e ∈ q, e.lsn.baseLsn ≤ event.lsn.baseLsn) :
    insertSorted q event = q ++ [event] := by
  refine if_pos ?_
  rw [Option.all_eq_true]
  exact fun e he ↦ decide_eq_true (h e (mem_of_mem_getLast? he))

end

/-! ## Capturing -/

variable (b : CaptureBuffer) (event : DataEvent)

def pushInsert : CaptureBuffer :=
  { b with insertQ := insertOrMerge b.insertQ event }

def pushWatermark : CaptureBuffer :=
  { b with insertQ := insertSorted b.insertQ event }

/-- Drop the inserts and watermarks that a file covers. -/
def dropCoveredInserts (cover : LsnRange) : CaptureBuffer × FlushDegradeResult :=
  let dropped := b.insertQ.filter fun e ↦ isFullyCovered e.lsn cover
  ({ b with insertQ := b.insertQ.filter fun e ↦ !isFullyCovered e.lsn cover },
    { droppedInserts := dropped.countP fun e ↦ !e.isWatermark
      droppedWatermarks := dropped.countP DataEvent.isWatermark })

def pushFlush : CaptureBuffer × FlushDegradeResult :=
  let r := b.dropCoveredInserts event.lsn
  ({ r.1 with flushQ := insertSorted r.1.flushQ event }, r.2)

def filePath? : DataEvent → Option String
  | .flushFile _ filePath _ => some filePath
  | _ => none

/-- The files of a queue that the range covers, and the queue without them. -/
def dropCoveredFiles (q : List DataEvent) (cover : LsnRange) : List DataEvent × List String :=
  (q.filter fun e ↦ !isFullyCovered e.lsn cover,
    (q.filter fun e ↦ isFullyCovered e.lsn cover).filterMap filePath?)

/-- A compacted file replaces the files it covers, whose paths are to be removed. Without any it is
superfluous itself. -/
def pushCompact : CaptureBuffer × List String :=
  match event with
  | .flushFile lsn filePath _ =>
    let flushes := dropCoveredFiles b.flushQ lsn
    let compacts := dropCoveredFiles b.compactQ lsn
    let gcPaths := flushes.2 ++ compacts.2
    if gcPaths.isEmpty then
      ({ b with flushQ := flushes.1, compactQ := compacts.1 }, [filePath])
    else
      ({ b with flushQ := flushes.1, compactQ := insertSorted compacts.1 event }, gcPaths)
  | _ => (b, [])

/-! ## Taking -/

/-- The order in which heads of the same LSN are taken. -/
def priority (q : QType) (event : DataEvent) : ℕ :=
  match q with
  | .compact => 0
  | .flush => 1
  | .insert => if event.isWatermark then 3 else 2

/-- Look at one more head. -/
def check (best : Option ((ℕ × ℕ) × QType)) (q : QType) (head : Option DataEvent) :
    Option ((ℕ × ℕ) × QType) :=
  match head with
  | none => best
  | some e =>
    let key := (e.lsn.baseLsn, priority q e)
    match best with
    | none => some (key, q)
    | some (bestKey, _) =>
      if key.1 < bestKey.1 ∨ key.1 = bestKey.1 ∧ key.2 < bestKey.2 then some (key, q) else best

def findBestHead : Option QType :=
  let best := check none .compact b.compactQ.head?
  let best := check best .flush b.flushQ.head?
  (check best .insert b.insertQ.head?).map Prod.snd

def popNext : Option (DataEvent × CaptureBuffer) :=
  match b.findBestHead with
  | none => none
  | some .compact => b.compactQ.head?.map fun e ↦ (e, { b with compactQ := b.compactQ.tail })
  | some .flush => b.flushQ.head?.map fun e ↦ (e, { b with flushQ := b.flushQ.tail })
  | some .insert => b.insertQ.head?.map fun e ↦ (e, { b with insertQ := b.insertQ.tail })

theorem popNext_cases {b b' : CaptureBuffer} {e : DataEvent} (h : b.popNext = some (e, b')) :
    (∃ rest, b.compactQ = e :: rest ∧ b' = { b with compactQ := rest }) ∨
      (∃ rest, b.flushQ = e :: rest ∧ b' = { b with flushQ := rest }) ∨
      b.findBestHead = some .insert ∧
        ∃ rest, b.insertQ = e :: rest ∧ b' = { b with insertQ := rest } := by
  have hhead : ∀ (q : List DataEvent) (f : List DataEvent → CaptureBuffer),
      (q.head?.map fun x ↦ (x, f q.tail)) = some (e, b') →
        ∃ rest, q = e :: rest ∧ b' = f rest := by
    intro q f hq
    cases q with
    | nil => cases hq
    | cons x rest =>
      obtain ⟨rfl, rfl⟩ := Prod.mk.inj (Option.some.inj hq)
      exact ⟨rest, rfl, rfl⟩
  unfold popNext at h
  split at h
  · cases h
  · exact .inl (hhead _ (fun q ↦ { b with compactQ := q }) h)
  · exact .inr (.inl (hhead _ (fun q ↦ { b with flushQ := q }) h))
  · next hbest => exact .inr (.inr ⟨hbest, hhead _ (fun q ↦ { b with insertQ := q }) h⟩)

/-- At the same LSN a flushed file comes before the rows it holds. -/
example : (CaptureBuffer.mk [.insert (.new 1 2) .resident] [.flushFile (.new 1 2) "f" 2] []).popNext
    = some (.flushFile (.new 1 2) "f" 2, ⟨[.insert (.new 1 2) .resident], [], []⟩) := by
  decide

end CaptureBuffer

end MonoTS
