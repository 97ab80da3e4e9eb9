import MonoTS.Common
import MonoTS.Lib.Handoff
import MonoTS.Lib.Transition

/-!
# The chunks of a memtable

A memtable has an active buffer and a list of frozen chunks, each behind a lock of its own. An
insertion appends to the active buffer and gets the chunks that are full by then; it pushes them to
the frozen list in a second locked section. A snapshot takes the rest of the active buffer, pushes
it to the frozen list, and copies that list. Between the two sections the rows are in neither place.

The order of the rows is that of the sections in which they leave the active buffer. It is kept as
long as nobody is overtaken on the way (`Handoff`), and a snapshot then has everything that had been
inserted when it began. Nothing in the code makes a mover wait for the ones before it.

Concatenating batches of one schema does not fail, and the accounting of bytes is left out: it
decides what an insertion returns, after the rows have been stored.
-/

open Transition List Option Handoff

namespace MonoTS

variable {α : Type*}

/-! ## The active buffer -/

/-- Batches that wait to be emitted as chunks of `capacity` rows. -/
structure BatchBuffer (α : Type*) where
  buffer : List (List α)
  bufferedRows : ℕ
  capacity : ℕ
  rows_eq : bufferedRows = buffer.flatten.length
  capacity_pos : 0 < capacity

namespace BatchBuffer

def new (capacity : ℕ) : BatchBuffer α := ⟨[], 0, max capacity 1, rfl, by omega⟩

variable (b : BatchBuffer α)

/-- The rows in the buffer. -/
def rows : List α := b.buffer.flatten

/-- The loop of `extract_capacity_batch`: the pieces that have the next rows, and what is left. -/
def collect : ℕ → List (List α) → List (List α) × List (List α)
  | _, [] => ([], [])
  | needed, front :: buffer =>
    if needed = 0 then ([], front :: buffer)
    else if front.length ≤ needed then
      let (chunks, rest) := collect (needed - front.length) buffer
      (front :: chunks, rest)
    else ([front.take needed], front.drop needed :: buffer)

theorem collect_flatten (needed : ℕ) (buffer : List (List α)) :
    (collect needed buffer).1.flatten = buffer.flatten.take needed ∧
      (collect needed buffer).2.flatten = buffer.flatten.drop needed := by
  induction buffer generalizing needed with
  | nil => simp [collect]
  | cons front buffer ih =>
    rw [collect, flatten_cons]
    split_ifs with hzero hfrt
    · subst hzero
      exact ⟨rfl, rfl⟩
    · obtain ⟨hch, hrest⟩ := ih (needed - front.length)
      simp only [flatten_cons]
      rw [hch, hrest, take_append, drop_append, take_of_length_le hfrt,
        drop_eq_nil_of_le hfrt, nil_append]
      exact ⟨rfl, rfl⟩
    · have hle : needed ≤ front.length := (not_le.mp hfrt).le
      rw [flatten_singleton, flatten_cons, take_append_of_le_length hle,
        drop_append_of_le_length hle]
      exact ⟨rfl, rfl⟩

/-- Take exactly `capacity` rows from the front of the buffer. -/
def extractCapacityBatch : List α × BatchBuffer α :=
  ((collect b.capacity b.buffer).1.flatten, { b with
      buffer := (collect b.capacity b.buffer).2
      bufferedRows := b.bufferedRows - b.capacity
      rows_eq := by rw [(collect_flatten _ _).2, length_drop, b.rows_eq] })

/-- The loop of `append_batch`, with a bound on the number of rounds. -/
def extractFull : ℕ → BatchBuffer α → List (List α) × BatchBuffer α
  | 0, b => ([], b)
  | fuel + 1, b =>
    if b.capacity ≤ b.bufferedRows then
      let (chunk, b) := b.extractCapacityBatch
      let (completed, b) := extractFull fuel b
      (chunk :: completed, b)
    else ([], b)

/-- Append a batch; the result has the chunks that are complete by then. Every round of the loop
removes a row, so that their number is a bound. -/
def appendBatch (batch : List α) : List (List α) × BatchBuffer α :=
  if batch.isEmpty then ([], b)
  else
    extractFull (b.bufferedRows + batch.length)
      { b with
        buffer := b.buffer ++ [batch]
        bufferedRows := b.bufferedRows + batch.length
        rows_eq := by simp [b.rows_eq] }

/-- Take the rest of the buffer, if there is any. -/
def finish : Option (List α) × BatchBuffer α :=
  if b.bufferedRows = 0 then (none, b)
  else (some b.buffer.flatten, { b with buffer := [], bufferedRows := 0, rows_eq := rfl })

theorem extractCapacityBatch_rows :
    b.extractCapacityBatch.1 ++ b.extractCapacityBatch.2.rows = b.rows := by
  obtain ⟨hch, hrest⟩ := collect_flatten b.capacity b.buffer
  rw [extractCapacityBatch, rows, hch, hrest, take_append_drop]
  rfl

theorem extractFull_rows (fuel : ℕ) (b : BatchBuffer α) :
    (extractFull fuel b).1.flatten ++ (extractFull fuel b).2.rows = b.rows := by
  induction fuel generalizing b with
  | zero => rfl
  | succ fuel ih =>
    rw [extractFull]
    split_ifs
    · simp only [flatten_cons]
      rw [append_assoc, ih, extractCapacityBatch_rows]
    · rfl

/-- The bound on the rounds is never reached: what is left is less than a chunk. -/
theorem extractFull_spec {fuel : ℕ} {b : BatchBuffer α} (h : b.bufferedRows ≤ fuel) :
    (∀ chunk ∈ (extractFull fuel b).1, chunk.length = b.capacity) ∧
      (extractFull fuel b).2.capacity = b.capacity ∧
      (extractFull fuel b).2.bufferedRows < b.capacity := by
  induction fuel generalizing b with
  | zero => exact ⟨nofun, rfl, (Nat.le_zero.mp h).trans_lt b.capacity_pos⟩
  | succ fuel ih =>
    rw [extractFull]
    split_ifs with hfull
    · have hpos := b.capacity_pos
      have hle : b.extractCapacityBatch.2.bufferedRows ≤ fuel := by
        change b.bufferedRows - b.capacity ≤ fuel
        omega
      obtain ⟨hlen, hrest⟩ := ih hle
      refine ⟨forall_mem_cons.mpr ⟨?_, hlen⟩, hrest⟩
      rw [extractCapacityBatch, (collect_flatten _ _).1, length_take, ← b.rows_eq]
      exact min_eq_left hfull
    · exact ⟨nofun, rfl, not_le.mp hfull⟩

/-- **Appending keeps the rows and their order**, in chunks and in the buffer. -/
theorem appendBatch_rows (batch : List α) :
    (b.appendBatch batch).1.flatten ++ (b.appendBatch batch).2.rows = b.rows ++ batch := by
  rw [appendBatch]
  split_ifs with hemp
  · rw [List.isEmpty_iff.mp hemp, append_nil]
    rfl
  · rw [extractFull_rows, rows, flatten_append, flatten_singleton]
    rfl

theorem appendBatch_spec {b : BatchBuffer α} (h : b.bufferedRows < b.capacity) (batch : List α) :
    (∀ chunk ∈ (b.appendBatch batch).1, chunk.length = b.capacity) ∧
      (b.appendBatch batch).2.capacity = b.capacity ∧
      (b.appendBatch batch).2.bufferedRows < b.capacity := by
  rw [appendBatch]
  split_ifs
  · exact ⟨nofun, rfl, h⟩
  · exact extractFull_spec le_rfl

theorem finish_rows : b.finish.1.toList.flatten = b.rows ∧ b.finish.2.rows = [] := by
  rw [finish]
  split_ifs with hzero
  · have hnil : b.rows = [] := eq_nil_of_length_eq_zero (b.rows_eq.symm.trans hzero)
    exact ⟨hnil.symm, hnil⟩
  · exact ⟨flatten_singleton, rfl⟩

/-! ### Any calls -/

/-- A buffer with what has come out of it. -/
structure Rechunked (α : Type*) where
  emitted : List (List α)
  buffer : BatchBuffer α

/-- A call of the buffer. -/
inductive Call (α : Type*) where
  | appendBatch (batch : List α) (matchesSchema : Bool)
  | finish

/-- The rows a call brings in. -/
def Call.appended : Call α → List α
  | .appendBatch batch true => batch
  | _ => []

def Rechunked.call (s : Rechunked α) : Call α → Rechunked α
  | .appendBatch batch true =>
    let (completed, b) := s.buffer.appendBatch batch
    ⟨s.emitted ++ completed, b⟩
  | .appendBatch _ false => s
  | .finish => ⟨s.emitted ++ s.buffer.finish.1.toList, s.buffer.finish.2⟩

/-- Nothing is lost, and between calls less than a chunk is left. -/
structure Rechunked.Inv (s : Rechunked α) (capacity : ℕ) (appended : List α) : Prop where
  rows : s.emitted.flatten ++ s.buffer.rows = appended
  capacity_eq : s.buffer.capacity = capacity
  lt : s.buffer.bufferedRows < s.buffer.capacity

theorem Rechunked.Inv.call {s : Rechunked α} {capacity : ℕ} {appended : List α}
    (h : s.Inv capacity appended) (c : Call α) :
    (s.call c).Inv capacity (appended ++ c.appended) := by
  rcases c with ⟨batch, _ | _⟩ | _
  · exact (append_nil appended).symm ▸ h
  · obtain ⟨-, hcap, hlt⟩ := appendBatch_spec h.lt batch
    refine ⟨?_, hcap.trans h.capacity_eq, hcap.symm ▸ hlt⟩
    rw [Rechunked.call, flatten_append, append_assoc]
    dsimp only
    rw [appendBatch_rows, ← append_assoc, h.rows]
    rfl
  · obtain ⟨htail, hrest⟩ := s.buffer.finish_rows
    refine ⟨?_, ?_, ?_⟩
    · rw [Rechunked.call, flatten_append, append_assoc]
      dsimp only
      rw [htail, hrest, append_nil, h.rows]
      exact (append_nil appended).symm
    all_goals
      dsimp only [Rechunked.call, finish]
      split_ifs
    · exact h.capacity_eq
    · exact h.capacity_eq
    · exact h.lt
    · exact s.buffer.capacity_pos

theorem Rechunked.inv_calls (capacity : ℕ) (cs : List (Call α)) :
    (cs.foldl Rechunked.call ⟨[], .new capacity⟩).Inv (max capacity 1)
      (cs.flatMap Call.appended) := by
  induction cs using reverseRecOn with
  | nil => exact ⟨rfl, rfl, capacity_pos _⟩
  | append_singleton cs c ih =>
    rw [foldl_append, flatMap_append, flatMap_singleton]
    exact ih.call c

end BatchBuffer

/-! ## The writer and the readers -/

/-- Who has taken rows out of the active buffer. -/
inductive Mover where
  | writer
  | reader (i : ℕ)
  deriving DecidableEq, Repr

/-- Where a call of `snapshot_chunks` is; `began` insertions had returned when it began. -/
inductive SnapshotPhase where
  | idle
  /-- The tail of the active buffer has been taken. -/
  | sealing (began : ℕ)
  /-- The tail has been pushed. -/
  | copying (began : ℕ)

/-- What a snapshot returned. -/
structure ChunkSnapshot (α : Type*) where
  began : ℕ
  chunks : List (List α)
  deriving DecidableEq, Repr

/-- A memtable with the calls at work on it. -/
structure ChunkedTable (α : Type*) where
  frozenBatches : List (List α)
  activeBuffer : BatchBuffer α
  /-- The chunks that have been taken out of the buffer and not been pushed, in the order in which
  they were taken. The writer is here from the first section of a call to its second. -/
  moving : List (Mover × List (List α))
  readers : List SnapshotPhase
  /-- The inserted batches. -/
  inserted : List (List α)
  snapshots : List (ChunkSnapshot α)

/-- A section of a call. -/
inductive ChunkAction (α : Type*) where
  /-- `insert_for_table` up to the end of its first section. -/
  | insert (batch : List α) (matchesSchema : Bool)
  /-- The second section of `insert_for_table`, which then returns. -/
  | extendFrozen
  /-- The first section of `flush_active_buffer`, in a snapshot. -/
  | takeTail (reader : ℕ)
  | pushTail (reader : ℕ)
  /-- Copy the frozen chunks under both locks. -/
  | copy (reader : ℕ)

namespace ChunkedTable

variable (capacity readers : ℕ)

def initial : ChunkedTable α :=
  ⟨[], .new capacity, [], List.replicate readers .idle, [], []⟩

variable (s : ChunkedTable α)

def inserting : Bool := Mover.writer ∈ s.moving.map Prod.fst

/-- How many insertions have returned. -/
def returned : ℕ :=
  if s.inserting then s.inserted.length - 1 else s.inserted.length

/-- The mover takes these chunks out of the active buffer. -/
def take (m : Mover) (taken : List (List α)) (active : BatchBuffer α) : ChunkedTable α :=
  { s with activeBuffer := active, moving := s.moving ++ [(m, taken)] }

/-- The mover pushes what it has taken. -/
def push (m : Mover) : ChunkedTable α :=
  { s with
    frozenBatches := s.frozenBatches ++ itemsOf m s.moving
    moving := remove m s.moving }

def setReader (i : ℕ) (phase : SnapshotPhase) : ChunkedTable α :=
  { s with readers := s.readers.set i phase }

def step : ChunkAction α → Option (ChunkedTable α)
  | .insert batch matchesSchema =>
    if s.inserting then none
    else if batch.isEmpty then some { s with inserted := s.inserted ++ [batch] }
    else if matchesSchema = false then some s
    else
      let appended := s.activeBuffer.appendBatch batch
      some { s.take .writer appended.1 appended.2 with inserted := s.inserted ++ [batch] }
  | .extendFrozen => if s.inserting then some (s.push .writer) else none
  | .takeTail i =>
    match s.readers[i]? with
    | some .idle =>
      let finished := s.activeBuffer.finish
      some ((s.take (.reader i) finished.1.toList finished.2).setReader i (.sealing s.returned))
    | _ => none
  | .pushTail i =>
    match s.readers[i]? with
    | some (.sealing began) => some ((s.push (.reader i)).setReader i (.copying began))
    | _ => none
  | .copy i =>
    match s.readers[i]? with
    | some (.copying began) =>
      let snapshots := s.snapshots ++ [ChunkSnapshot.mk began s.frozenBatches]
      some ({ s with snapshots }.setReader i .idle)
    | _ => none

/-- Who pushes rows has none in front that are still on their way. A reader waits for them even if
it has nothing to push, since it goes on to copy. -/
def InOrder : ChunkAction α → Prop
  | .extendFrozen => InTurn .writer s.moving
  | .pushTail i => (before (.reader i) s.moving).isEmpty = true
  | _ => True

instance (a : ChunkAction α) : Decidable (s.InOrder a) := by
  unfold InOrder
  split <;> infer_instance

/-! ## Order -/

/-- The chunks begin with the batches of the first `began` insertions. -/
def Covers (inserted : List (List α)) (began : ℕ) (chunks : List (List α)) : Prop :=
  began ≤ inserted.length ∧ (inserted.take began).flatten <+: chunks.flatten

variable {inserted : List (List α)} {i : ℕ} {phase : SnapshotPhase}

theorem Covers.mono {inserted' chunks chunks' : List (List α)} {began : ℕ}
    (h : Covers inserted began chunks) (hins : inserted <+: inserted')
    (hch : chunks <+: chunks') : Covers inserted' began chunks' := by
  obtain ⟨_, rfl⟩ := hins
  refine ⟨h.1.trans (by simp), ?_⟩
  rw [take_append_of_le_length h.1]
  exact h.2.trans hch.flatten

/-- The chunks that a sealing reader has in front of it, its own included. -/
def ahead (s : ChunkedTable α) (i : ℕ) : List (List α) :=
  s.frozenBatches ++
    (before (.reader i) s.moving ++ itemsOf (.reader i) s.moving)

/-- What a snapshot is to contain is ahead of its reader, which has rows in its hands only while it
seals. -/
def ReaderCovered (s : ChunkedTable α) (i : ℕ) : SnapshotPhase → Prop
  | .idle => Mover.reader i ∉ s.moving.map Prod.fst
  | .sealing began => Covers s.inserted began (s.ahead i)
  | .copying began =>
    Mover.reader i ∉ s.moving.map Prod.fst ∧ Covers s.inserted began s.frozenBatches

theorem ReaderCovered.mono {s s' : ChunkedTable α} (h : s.ReaderCovered i phase)
    (hins : s.inserted <+: s'.inserted) (hfroz : s.frozenBatches <+: s'.frozenBatches)
    (hahead : s.ahead i <+: s'.ahead i)
    (hmov : Mover.reader i ∈ s'.moving.map Prod.fst → Mover.reader i ∈ s.moving.map Prod.fst) :
    s'.ReaderCovered i phase := by
  cases phase with
  | idle => exact mt hmov h
  | sealing => exact Covers.mono h hins hahead
  | copying => exact ⟨mt hmov h.1, h.2.mono hins hfroz⟩

/-- The order of the rows, and what is ahead of every reader except one that is just moving. -/
structure Ordered (s : ChunkedTable α) (busy : Mover) : Prop where
  rows : (s.frozenBatches ++ items s.moving).flatten ++ s.activeBuffer.rows =
    s.inserted.flatten
  nodup : (s.moving.map Prod.fst).Nodup
  readers : ∀ i phase, busy ≠ .reader i → s.readers[i]? = some phase → s.ReaderCovered i phase
  snapshots : ∀ snap ∈ s.snapshots, Covers s.inserted snap.began snap.chunks

theorem ordered_initial : Ordered (initial capacity readers : ChunkedTable α) .writer where
  rows := rfl
  nodup := nodup_nil
  readers i phase _ h := by
    obtain rfl := eq_of_mem_replicate (mem_of_getElem? h)
    exact not_mem_nil
  snapshots _ h := absurd h not_mem_nil

variable {s s' : ChunkedTable α} {m : Mover}

/-- Rows leave the active buffer, those of a new batch with them, and are the last on their way. -/
theorem Ordered.take (h : Ordered s .writer) {taken : List (List α)} {active : BatchBuffer α}
    (hm : m ∉ s.moving.map Prod.fst) (hins : s.inserted <+: inserted)
    (hrows : (s.frozenBatches ++ items s.moving).flatten ++
      (taken.flatten ++ active.rows) = inserted.flatten) :
    Ordered { s.take m taken active with inserted := inserted } m where
  rows := by
    change (s.frozenBatches ++ items (s.moving ++ [(m, taken)])).flatten ++ active.rows =
      inserted.flatten
    have htaken : items [(m, taken)] = taken := append_nil taken
    rw [← hrows, items_append, htaken, ← append_assoc, flatten_append, append_assoc]
  nodup := by
    change ((s.moving ++ [(m, taken)]).map Prod.fst).Nodup
    rw [map_append]
    exact h.nodup.append (nodup_singleton m) (disjoint_singleton.mpr hm)
  readers i phase hbusy hi := by
    refine (h.readers i phase nofun hi).mono hins prefix_rfl ?_ ?_
    · exact (prefix_append_right_inj _).mpr before_append_prefix
    · intro hmem
      change Mover.reader i ∈ (s.moving ++ [(m, taken)]).map Prod.fst at hmem
      rw [map_append, mem_append] at hmem
      exact hmem.resolve_right fun hlast ↦ hbusy (mem_singleton.mp hlast).symm
  snapshots snap hsnap := (h.snapshots snap hsnap).mono hins prefix_rfl

/-- Who pushes its rows in turn leaves the order as it is. -/
theorem Ordered.push (h : Ordered s .writer) (hturn : InTurn m s.moving) :
    Ordered (s.push m) m where
  rows := by
    change (s.frozenBatches ++ itemsOf m s.moving ++
      items (remove m s.moving)).flatten ++ s.activeBuffer.rows = _
    rw [append_assoc, ← items_eq hturn]
    exact h.rows
  nodup := nodup_remove h.nodup
  readers i phase hbusy hi := by
    refine (h.readers i phase nofun hi).mono prefix_rfl (prefix_append _ _) ?_ ?_
    · change _ <+: s.frozenBatches ++ itemsOf m s.moving ++ _
      rw [ahead, append_assoc]
      exact (prefix_append_right_inj _).mpr (Handoff.before_remove_prefix hturn hbusy)
    · exact fun hmem ↦ (remove_sublist.map Prod.fst).subset hmem
  snapshots := h.snapshots

/-- The reader that was moving goes on to its next phase. -/
theorem Ordered.setReader (h : Ordered s (.reader i)) (hcov : s.ReaderCovered i phase) :
    Ordered (s.setReader i phase) .writer where
  __ := h
  readers j phase' _ hj := by
    change (s.readers.set i phase)[j]? = some phase' at hj
    rw [getElem?_set] at hj
    split_ifs at hj with hij
    · cases hj
      subst hij
      exact hcov
    · exact h.readers j phase' (fun heq ↦ hij (Mover.reader.inj heq)) hj

theorem returned_le (s : ChunkedTable α) : s.returned ≤ s.inserted.length := by
  rw [returned]
  split_ifs
  · exact Nat.sub_le _ _
  · exact le_rfl

section

variable (h : Ordered s .writer)

include h

theorem Ordered.insert {batch : List α} {matchesSchema : Bool}
    (hstep : s.step (.insert batch matchesSchema) = some s') : Ordered s' .writer := by
  obtain ⟨hidle, hstep⟩ := ite_none_left_eq_some.mp hstep
  have hwr : Mover.writer ∉ s.moving.map Prod.fst := fun hmem ↦ hidle (decide_eq_true hmem)
  have hins : s.inserted <+: s.inserted ++ [batch] := prefix_append _ _
  have hflat : (s.inserted ++ [batch]).flatten = s.inserted.flatten ++ batch := by
    rw [flatten_append, flatten_singleton]
  split at hstep
  · next hemp =>
    cases hstep
    refine ⟨?_, h.nodup, fun i phase _ hi ↦ ?_, fun snap hsnap ↦ ?_⟩
    · rw [hflat, List.isEmpty_iff.mp hemp, append_nil]
      exact h.rows
    · exact (h.readers i phase nofun hi).mono hins prefix_rfl prefix_rfl id
    · exact (h.snapshots snap hsnap).mono hins prefix_rfl
  · split at hstep
    · cases hstep
      exact h
    · cases hstep
      refine h.take hwr hins ?_
      rw [BatchBuffer.appendBatch_rows, ← append_assoc, h.rows, hflat]

theorem Ordered.extendFrozen (hturn : InTurn .writer s.moving)
    (hstep : s.step .extendFrozen = some s') : Ordered s' .writer := by
  obtain ⟨-, rfl⟩ := ite_some_none_eq_some.mp hstep
  exact h.push hturn

/-- A reader that takes the tail has all rows ahead of it. -/
theorem Ordered.takeTail (hstep : s.step (.takeTail i) = some s') : Ordered s' .writer := by
  rw [step] at hstep
  split at hstep <;> cases hstep
  next hi =>
    obtain ⟨htail, hrest⟩ := s.activeBuffer.finish_rows
    have hmover : Mover.reader i ∉ s.moving.map Prod.fst := h.readers i .idle nofun hi
    have hall : (s.frozenBatches ++ items s.moving).flatten ++
        s.activeBuffer.finish.1.toList.flatten = s.inserted.flatten := by
      rw [htail, h.rows]
    refine (h.take hmover prefix_rfl ?_).setReader ⟨s.returned_le, ?_⟩
    · rw [hrest, append_nil, hall]
    · change _ <+: (s.frozenBatches ++
        (before _ (s.moving ++ [(Mover.reader i, s.activeBuffer.finish.1.toList)]) ++
          itemsOf _ (s.moving ++ [(Mover.reader i, _)]))).flatten
      rw [before_concat hmover, ← append_assoc, flatten_append, hall]
      exact (List.take_prefix _ _).flatten

theorem Ordered.pushTail (hfrt : (before (.reader i) s.moving).isEmpty = true)
    (hstep : s.step (.pushTail i) = some s') : Ordered s' .writer := by
  rw [step] at hstep
  split at hstep <;> cases hstep
  next began hi =>
    refine (h.push (.inr hfrt)).setReader ⟨not_mem_remove h.nodup, ?_⟩
    have hahead : s.ahead i = s.frozenBatches ++ itemsOf (.reader i) s.moving := by
      rw [ahead, List.isEmpty_iff.mp hfrt, nil_append]
    have hcov : Covers s.inserted began (s.ahead i) := h.readers i _ nofun hi
    rw [hahead] at hcov
    exact hcov

theorem Ordered.copy (hstep : s.step (.copy i) = some s') : Ordered s' .writer := by
  rw [step] at hstep
  split at hstep <;> cases hstep
  next began hi =>
    obtain ⟨hmover, hcov⟩ : s.ReaderCovered i (.copying began) := h.readers i _ nofun hi
    refine Ordered.setReader ⟨h.rows, h.nodup, fun j phase _ hj ↦ h.readers j phase nofun hj, ?_⟩
      hmover
    exact forall_mem_append.mpr ⟨h.snapshots, forall_mem_singleton.mpr hcov⟩

end

theorem ordered_of_reaches {capacity readers : ℕ}
    (h : Reaches (guarded InOrder step) (initial capacity readers) s) : Ordered s .writer := by
  refine h.invariant (I := fun s ↦ s.Ordered .writer) (ordered_initial capacity readers)
    fun s a s' hs hstep ↦ ?_
  obtain ⟨hok, hstep⟩ := guarded_eq_some.mp hstep
  cases a with
  | insert => exact hs.insert hstep
  | extendFrozen => exact hs.extendFrozen hok hstep
  | takeTail => exact hs.takeTail hstep
  | pushTail => exact hs.pushTail hok hstep
  | copy => exact hs.copy hstep

/-- **The chunks are in the order of insertion** when nobody is overtaken: once nothing is on its
way, the frozen chunks and the active buffer are the inserted batches, and every snapshot begins
with the batches whose insertion had returned when it began. -/
theorem chunks_in_insertion_order {capacity readers : ℕ}
    (h : Reaches (guarded InOrder step) (initial capacity readers) s) :
    (Handoff.items s.moving = [] →
      s.frozenBatches.flatten ++ s.activeBuffer.rows = s.inserted.flatten) ∧
    ∀ snap ∈ s.snapshots, (s.inserted.take snap.began).flatten <+: snap.chunks.flatten := by
  have hord := ordered_of_reaches h
  refine ⟨fun hnone ↦ ?_, fun snap hsnap ↦ (hord.snapshots snap hsnap).2⟩
  have hrows := hord.rows
  rwa [hnone, append_nil] at hrows

/-- Rows of one key with different values; the second insertion completes a chunk while a reader
holds the first one. -/
def overtaking : List (ChunkAction (ℕ × Char)) :=
  [.insert [(1, 'a')] true, .extendFrozen, .takeTail 0, .takeTail 1, .pushTail 1, .copy 1,
    .insert [(1, 'b'), (2, 'c')] true, .extendFrozen, .pushTail 0, .copy 0]

/-- A reader that is overtaken puts the older row behind the newer one, and another snapshot does
not have it at all. -/
theorem overtaken_chunks : ∃ s, run step (initial 2 2) overtaking = some s ∧
    s.moving = [] ∧ s.inserted.flatten = [(1, 'a'), (1, 'b'), (2, 'c')] ∧
    s.frozenBatches.flatten ++ s.activeBuffer.rows = [(1, 'b'), (2, 'c'), (1, 'a')] ∧
    ⟨1, []⟩ ∈ s.snapshots := by
  refine ⟨_, rfl, rfl, ?_, ?_, ?_⟩ <;> decide +kernel

/-- The same calls, with the second reader waiting for the first one. -/
def waiting : List (ChunkAction (ℕ × Char)) :=
  [.insert [(1, 'a')] true, .extendFrozen, .takeTail 0, .takeTail 1, .pushTail 0, .pushTail 1,
    .copy 1, .insert [(1, 'b'), (2, 'c')] true, .extendFrozen, .copy 0]

theorem waiting_chunks : ∃ s, run (guarded InOrder step) (initial 2 2) waiting = some s ∧
    s.snapshots.length = 2 ∧
    s.frozenBatches.flatten ++ s.activeBuffer.rows = s.inserted.flatten ∧
    ∀ snap ∈ s.snapshots, (s.inserted.take snap.began).flatten <+: snap.chunks.flatten := by
  refine ⟨_, rfl, rfl, ?_⟩
  have hrun : Reaches (guarded InOrder step) (initial 2 2) _ := reaches_of_run waiting rfl
  obtain ⟨hrows, hsnap⟩ := chunks_in_insertion_order hrun
  exact ⟨hrows rfl, hsnap⟩

end ChunkedTable

end MonoTS
