import MonoTS.Lib.Ledger
import MonoTS.Table.Chunks
import MonoTS.Table.Put

/-!
# The bytes of memtables

The memtables of an engine share a `MemoryController`. Each has an estimate of its size and the
bytes it has charged; after an insertion or a seal the charge is brought to the estimate, by a
reservation or a release. An insertion that is refused its reservation has stored its rows, and the
estimate stays above the charge until the next call that compares the two. Inserting a batch without
rows returns before that.

The sizes of batches are what Arrow reports, which depends on the buffers they share, so that a call
comes with the sizes it is told.
-/

open Transition List Option

namespace MonoTS

open Ledger BatchBuffer

variable {α : Type*}

/-! ## A memtable -/

/-- The chunks of a memtable and its bytes. -/
structure ChargedTable (α : Type*) where
  frozenBatches : List (List α)
  activeBuffer : BatchBuffer α
  frozenRamBytes : ℕ
  memoryCharged : ℕ
  ramCost : ℕ

/-- A call on a memtable, with the sizes of the batches it makes. -/
inductive TableCall (α : Type*) where
  | insertForTable (batch : List α) (matchesSchema : Bool) (newlyFrozenRam activeRam : ℕ)
  | «seal» (tailRam : ℕ)
  | snapshotChunks (tailRam : ℕ)
  | releaseMemory

namespace ChargedTable

variable (memory : MemoryController)

def new (targetBatchSize : ℕ) : ChargedTable α := ⟨[], .new targetBatchSize, 0, 0, 0⟩

variable (allowReserve : Bool)

/-- Bring the charge to the size; the counter is the one of the controller. -/
def syncChargedToRam (t : ChargedTable α) (used : ℕ) : Result Unit × ChargedTable α × ℕ :=
  if t.ramCost = t.memoryCharged then (.ok (), t, used)
  else if t.memoryCharged < t.ramCost then
    let delta := t.ramCost - t.memoryCharged
    if allowReserve = true ∧ memory.tryReserve used delta = false then
      (.error (memory.memoryLimitError used), t, used)
    else (.ok (), { t with memoryCharged := t.ramCost }, used + delta)
  else (.ok (), { t with memoryCharged := t.ramCost }, used - (t.memoryCharged - t.ramCost))

variable (t : ChargedTable α)

/-- Append a batch to the buffer and keep the chunks that are full by then. -/
def store (batch : List α) (newlyFrozenRam activeRam : ℕ) : ChargedTable α :=
  let (newFrozen, active) := t.activeBuffer.appendBatch batch
  let frozenRam := t.frozenRamBytes + if newFrozen.isEmpty then 0 else newlyFrozenRam
  ⟨t.frozenBatches ++ newFrozen, active, frozenRam, t.memoryCharged, frozenRam + activeRam⟩

def flushActiveBuffer (tailRam : ℕ) : ChargedTable α :=
  let (tail, active) := t.activeBuffer.finish
  let frozenRam := t.frozenRamBytes + if tail.isSome then tailRam else 0
  ⟨t.frozenBatches ++ tail.toList, active, frozenRam, t.memoryCharged, frozenRam⟩

/-- A snapshot seals the memtable and copies its frozen chunks. -/
def call (used : ℕ) : TableCall α → Result Unit × ChargedTable α × ℕ
  | .insertForTable batch matchesSchema newlyFrozenRam activeRam =>
    if batch.isEmpty then (.ok (), t, used)
    else if matchesSchema = false then
      (.error (.schema "memtable batch schema mismatch with table schema"), t, used)
    else syncChargedToRam memory true (t.store batch newlyFrozenRam activeRam) used
  | .seal tailRam | .snapshotChunks tailRam =>
    syncChargedToRam memory false (t.flushActiveBuffer tailRam) used
  | .releaseMemory => (.ok (), ⟨[], t.activeBuffer.finish.2, 0, 0, 0⟩, used - t.memoryCharged)

variable {t : ChargedTable α} {used : ℕ} {a : TableCall α}

/-- **The charge and the counter change by the same number of bytes**, and the charge is the size
unless there was an error. -/
theorem sync_spec (t : ChargedTable α) (used : ℕ) :
    let r := syncChargedToRam memory allowReserve t used
    (t.memoryCharged ≤ used → r.2.2 + t.memoryCharged = used + r.2.1.memoryCharged) ∧
    (r.1 = .ok () → r.2.1.memoryCharged = r.2.1.ramCost) ∧
    (allowReserve = false → r.1 = .ok ()) ∧
    ∃ charged, r.2.1 = { t with memoryCharged := charged } := by
  unfold syncChargedToRam
  split
  · next heq => exact ⟨fun _ ↦ rfl, fun _ ↦ heq.symm, fun _ ↦ rfl, _, rfl⟩
  · split
    · dsimp only
      split
      · next href =>
        exact ⟨fun _ ↦ rfl, nofun, fun h ↦ absurd (h ▸ href.1) Bool.noConfusion, _, rfl⟩
      · refine ⟨fun _ ↦ ?_, fun _ ↦ rfl, fun _ ↦ rfl, _, rfl⟩
        dsimp only
        omega
    · refine ⟨fun _ ↦ ?_, fun _ ↦ rfl, fun _ ↦ rfl, _, rfl⟩
      dsimp only
      omega

/-! ## Rows -/

def rows (t : ChargedTable α) : List α := t.frozenBatches.flatten ++ t.activeBuffer.rows

/-- The rows a memtable is to have after a call. -/
def rowsAfter (before : List α) : TableCall α → List α
  | .insertForTable batch matchesSchema _ _ => if matchesSchema then before ++ batch else before
  | .seal _ | .snapshotChunks _ => before
  | .releaseMemory => []

section

variable (t : ChargedTable α)

theorem store_rows (batch : List α) (newlyFrozenRam activeRam : ℕ) :
    (t.store batch newlyFrozenRam activeRam).rows = t.rows ++ batch := by
  rw [rows, rows, append_assoc, ← appendBatch_rows, ← append_assoc, ← flatten_append]
  rfl

/-- Sealing moves all rows to the frozen chunks. -/
theorem seal_rows (used tailRam : ℕ) : let r := t.call memory used (.seal tailRam)
    r.1 = .ok () ∧ r.2.1.frozenBatches.flatten = t.rows ∧ r.2.1.rows = t.rows := by
  obtain ⟨htail, hrest⟩ := t.activeBuffer.finish_rows
  obtain ⟨-, -, hok, _, ht⟩ := sync_spec memory false (t.flushActiveBuffer tailRam) used
  have hrows : (t.flushActiveBuffer tailRam).frozenBatches.flatten = t.rows := by
    rw [flushActiveBuffer, flatten_append]
    exact congrArg _ htail
  refine ⟨hok rfl, ?_, ?_⟩
  · rw [call, ht]
    exact hrows
  · rw [call, ht, rows]
    exact (congrArg₂ _ hrows hrest).trans (append_nil _)

theorem call_rows (used : ℕ) (a : TableCall α) :
    (t.call memory used a).2.1.rows = rowsAfter t.rows a := by
  cases a with
  | insertForTable batch matchesSchema newlyFrozenRam activeRam =>
    rw [call, rowsAfter]
    split
    · next hemp => rw [List.isEmpty_iff.mp hemp, append_nil, ite_self]
    · cases matchesSchema with
      | false => rfl
      | true =>
        obtain ⟨-, -, -, _, ht⟩ :=
          sync_spec memory true (t.store batch newlyFrozenRam activeRam) used
        rw [if_neg Bool.noConfusion, if_pos rfl, ht]
        exact store_rows t batch newlyFrozenRam activeRam
  | «seal» tailRam | snapshotChunks tailRam => exact (seal_rows memory t used tailRam).2.2
  | releaseMemory => exact t.activeBuffer.finish_rows.2

/-- The calls of a thread on one memtable. -/
def calls (used : ℕ) (as : List (TableCall α)) : ChargedTable α × ℕ :=
  as.foldl (fun s a ↦ (s.1.call memory s.2 a).2) (t, used)

end

theorem calls_rows (as : List (TableCall α)) (t : ChargedTable α) (used : ℕ) :
    (t.calls memory used as).1.rows = as.foldl rowsAfter t.rows := by
  induction as generalizing t used with
  | nil => rfl
  | cons a as ih =>
    rw [foldl_cons, ← call_rows memory t used a]
    exact ih _ _

/-- **Re-chunking keeps the rows.** Whatever is appended to a buffer and taken from it, the chunks
and the rest are what was appended, a chunk that an appended batch completes has the capacity, and
less is left. So a snapshot of a memtable has its rows in the order of insertion. -/
theorem rechunking_keeps_rows (capacity : ℕ) (cs : List (Call α)) (batch : List α)
    (used : ℕ) (as : List (TableCall α)) (tailRam : ℕ) :
    let s := cs.foldl Rechunked.call ⟨[], .new capacity⟩
    let m := (new capacity).calls memory used as
    let snapshot := m.1.call memory m.2 (.snapshotChunks tailRam)
    (s.emitted.flatten ++ s.buffer.rows = cs.flatMap Call.appended ∧
      s.buffer.bufferedRows = s.buffer.rows.length ∧
      (∀ chunk ∈ (s.buffer.appendBatch batch).1, chunk.length = max capacity 1) ∧
      (s.buffer.appendBatch batch).2.bufferedRows < max capacity 1) ∧
    snapshot.1 = .ok () ∧ snapshot.2.1.frozenBatches.flatten = as.foldl rowsAfter [] := by
  intro s m snapshot
  have hinv : s.Inv (max capacity 1) _ := Rechunked.inv_calls capacity cs
  obtain ⟨hlen, -, hlt⟩ := appendBatch_spec hinv.lt batch
  rw [hinv.capacity_eq] at hlen hlt
  obtain ⟨hok, hrows, -⟩ := seal_rows memory m.1 m.2 tailRam
  refine ⟨⟨hinv.rows, s.buffer.rows_eq, hlen, hlt⟩, hok, ?_⟩
  exact hrows.trans (calls_rows memory as _ used)

/-! ## The charges of all memtables -/

theorem call_charged (a : TableCall α) (h : t.memoryCharged ≤ used) :
    (t.call memory used a).2.2 + t.memoryCharged
      = used + (t.call memory used a).2.1.memoryCharged := by
  cases a with
  | insertForTable =>
    rw [call]
    split
    · rfl
    · split
      · rfl
      · exact (sync_spec memory true _ used).1 h
  | «seal» | snapshotChunks => exact (sync_spec memory false _ used).1 h
  | releaseMemory => exact Nat.sub_add_cancel h

/-- The call compares the charge with the size. -/
def Compares : TableCall α → Prop
  | .insertForTable batch _ _ _ => batch ≠ []
  | _ => True

theorem call_ok (ha : Compares a) (h : (t.call memory used a).1 = .ok ()) :
    (t.call memory used a).2.1.memoryCharged = (t.call memory used a).2.1.ramCost := by
  cases a with
  | insertForTable =>
    rw [call, if_neg (mt List.isEmpty_iff.mp ha)] at h ⊢
    split at h
    · cases h
    · next hsch =>
      rw [if_neg hsch]
      exact (sync_spec memory true _ used).2.1 h
  | «seal» | snapshotChunks => exact (sync_spec memory false _ used).2.1 h
  | releaseMemory => rfl

end ChargedTable

open ChargedTable

/-- The memtables of a controller and its counter. -/
structure MemTables (α : Type*) where
  usedBytes : ℕ
  /-- A memtable that has been dropped leaves an empty slot. -/
  tables : List (Option (ChargedTable α))

/-- A step of one of the memtables. -/
inductive MemTablesAction (α : Type*) where
  | new (targetBatchSize : ℕ)
  | call (i : ℕ) (a : TableCall α)
  | drop (i : ℕ)

namespace MemTables

variable (memory : MemoryController) {s s' : MemTables α}

def step (s : MemTables α) : MemTablesAction α → Option (MemTables α)
  | .new targetBatchSize => some { s with tables := s.tables ++ [some (.new targetBatchSize)] }
  | .call i a => s.tables[i]?.join.map fun t ↦
    let (_, t', used) := t.call memory s.usedBytes a
    ⟨used, s.tables.set i t'⟩
  | .drop i => s.tables[i]?.join.map fun t ↦ ⟨s.usedBytes - t.memoryCharged, s.tables.set i none⟩

/-- The controller has counted what the memtables have charged. -/
def Charged (s : MemTables α) : Prop :=
  s.usedBytes = total memoryCharged s.tables

variable {memory}

theorem Charged.step {a : MemTablesAction α} (h : s.Charged) (hstep : s.step memory a = some s') :
    s'.Charged := by
  cases a with
  | new =>
    cases hstep
    rw [Charged, total_concat]
    exact h
  | call i a =>
    obtain ⟨t, ht, rfl⟩ := map_eq_some_iff.mp hstep
    rw [join_eq_some_iff] at ht
    have hcall := call_charged memory a (h ▸ le_total _ ht)
    have hset := total_set memoryCharged ht (t.call memory s.usedBytes a).2.1
    rw [← h] at hset
    exact Nat.add_right_cancel (hcall.trans hset.symm)
  | drop =>
    obtain ⟨_, ht, rfl⟩ := map_eq_some_iff.mp hstep
    rw [join_eq_some_iff] at ht
    have hset := total_set memoryCharged ht none
    rw [← h] at hset
    exact Nat.sub_eq_of_eq_add hset.symm

/-- **The controller counts the charges**, so that a memtable never releases more than there is.
After a call that compares the two, the charge of a memtable is its size. -/
theorem memory_charged_exactly (h : Reaches (step memory) ⟨0, []⟩ s) :
    s.usedBytes = total memoryCharged s.tables ∧
    (∀ t, some t ∈ s.tables → t.memoryCharged ≤ s.usedBytes) ∧
    (∀ t a, some t ∈ s.tables → Compares a → (t.call memory s.usedBytes a).1 = .ok () →
      (t.call memory s.usedBytes a).2.1.memoryCharged = (t.call memory s.usedBytes a).2.1.ramCost) ∧
    ((∀ t ∈ s.tables, t = none) → s.usedBytes = 0) := by
  have hinit : (⟨0, []⟩ : MemTables α).Charged := rfl
  have hchar : s.Charged := h.invariant hinit fun s a s' hs hstep ↦ hs.step hstep
  refine ⟨hchar, fun t ht ↦ ?_, fun t a _ ↦ call_ok memory, fun hnone ↦ ?_⟩
  · obtain ⟨_, hi⟩ := mem_iff_getElem?.mp ht
    exact hchar ▸ le_total _ hi
  · exact hchar.trans (total_eq_zero _ hnone)

/-- A memtable whose insertion is over the limit. -/
def overLimit : List (MemTablesAction ℕ) := [.new 4, .call 0 (.insertForTable [1] true 0 20)]

theorem overLimit_charged : ∃ s, Reaches (step ⟨10, 5⟩) (⟨0, []⟩ : MemTables ℕ) s ∧
    s.usedBytes = 20 ∧ s.usedBytes = total memoryCharged s.tables :=
  exists_reaches_of (overLimit ++ [.call 0 (.seal 20)]) (p := fun s ↦ s.usedBytes = 20)
    (by decide +kernel) fun _ hs hused ↦ ⟨hused, (memory_charged_exactly hs).1⟩

/-- Inserting nothing succeeds, and the charge is not the size. -/
theorem charged_ne_ramCost : ∃ s, Reaches (step ⟨10, 5⟩) (⟨0, []⟩ : MemTables ℕ) s ∧
    ∃ t, s.tables[0]? = some (some t) ∧
      let r := t.call ⟨10, 5⟩ s.usedBytes (.insertForTable [] true 0 0)
      r.1 = .ok () ∧ r.2.1.memoryCharged = 0 ∧ r.2.1.ramCost = 20 :=
  ⟨_, reaches_of_run overLimit rfl, _, rfl, rfl, rfl, rfl⟩

end MemTables

end MonoTS
