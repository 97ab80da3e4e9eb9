import MonoTS.Common

/-!
# The memtable

A memtable collects the batches of one table together with the span of the LSNs of its writes. Only
what the table does with it is kept: chunk boundaries and the byte accounting are left out, except
for the one question the table asks of the accounting, whether the memtable holds anything at all.

Batches are stored with the LSN of the write that brought them. The tag is not part of the source's
memtable; it lets a statement say which write a stored batch came from.
-/

namespace MonoTS

/-- What `insert_for_table` looks at in a batch. -/
structure BatchShape (Batch : Type*) where
  numRows : Batch → ℕ
  /-- The batch's schema equals the table's. -/
  matchesSchema : Batch → Bool

/-- A write: the LSN it was given and its batch. -/
abbrev Write (Batch : Type*) := ℕ × Batch

/-- A memtable. -/
structure MemTable (Batch : Type*) where
  /-- Smallest recorded LSN, `0` before the first. -/
  baseLsn : ℕ
  maxLsn : ℕ
  /-- The stored batches, oldest first. -/
  chunks : List (Write Batch)

namespace MemTable

variable {Batch : Type*}

def new : MemTable Batch := ⟨0, 0, []⟩

/-- `size_bytes() == 0`: every stored batch has a row, and a row takes space. -/
def isEmpty (m : MemTable Batch) : Bool := m.chunks.isEmpty

variable (m : MemTable Batch)

def recordLsn (lsn : ℕ) : MemTable Batch :=
  if lsn = 0 then m
  else
    { m with
      maxLsn := max m.maxLsn lsn
      baseLsn := if m.baseLsn = 0 ∨ lsn < m.baseLsn then lsn else m.baseLsn }

/-- Inclusive span for the SST; `(0, 0)` if nothing was recorded. -/
def lsnSpan : ℕ × ℕ :=
  if m.baseLsn = 0 ∧ m.maxLsn = 0 then (0, 0)
  else if m.maxLsn < m.baseLsn then (m.baseLsn, m.baseLsn)
  else (m.baseLsn, m.maxLsn)

/-- Give up the contents; the recorded span stays. -/
def releaseMemory : MemTable Batch := { m with chunks := [] }

/-- How the accounting answers an insertion that stored its rows. -/
inductive Accounting where
  /-- The reservation succeeded; the flag says whether the memtable has reached its size. -/
  | reserved (full : Bool)
  /-- The memory limit is reached. The rows are stored and the call fails. -/
  | overLimit (usedBytes limitBytes : ℕ)

/-- The effect of `insert_for_table` on the memtable, and its result. -/
def insertForTable (shape : BatchShape Batch) (m : MemTable Batch) (w : Write Batch)
    (accounting : Accounting) : MemTable Batch × Result Bool :=
  if shape.numRows w.2 = 0 then (m, .ok false)
  else if shape.matchesSchema w.2 = false then
    (m, .error (.schema "memtable batch schema mismatch with table schema"))
  else
    let stored := { m with chunks := m.chunks ++ [w] }
    match accounting with
    | .reserved full => (stored, .ok full)
    | .overLimit used limit => (stored, .error (.memoryLimitExceeded used limit))

/-! ## Spans -/

/-- The recorded span is an interval, and starts at `0` only when nothing was recorded. -/
structure SpanOk (m : MemTable Batch) : Prop where
  le : m.baseLsn ≤ m.maxLsn
  zero : m.baseLsn = 0 → m.maxLsn = 0

/-- The LSN lies in the span of what was recorded. -/
structure Records (m : MemTable Batch) (lsn : ℕ) : Prop where
  pos : 0 < m.baseLsn
  base_le : m.baseLsn ≤ lsn
  le_max : lsn ≤ m.maxLsn

theorem spanOk_new : (new : MemTable Batch).SpanOk := ⟨le_rfl, fun _ ↦ rfl⟩

variable {m : MemTable Batch}

theorem lsnSpan_of_pos (h : m.SpanOk) (hpos : 0 < m.baseLsn) :
    m.lsnSpan = (m.baseLsn, m.maxLsn) := by
  unfold lsnSpan
  rw [if_neg fun hzero ↦ hpos.ne' hzero.1, if_neg h.le.not_gt]

/-- Recording an LSN behind the span extends the span to it, and starts it there if it was empty. -/
theorem recordLsn_of_lt {lsn : ℕ} (hlt : m.maxLsn < lsn) : m.recordLsn lsn =
      ⟨if m.baseLsn = 0 ∨ lsn < m.baseLsn then lsn else m.baseLsn, lsn, m.chunks⟩ := by
  have hpos : lsn ≠ 0 := (Nat.zero_le _).trans_lt hlt |>.ne'
  rw [recordLsn, if_neg hpos, max_eq_right hlt.le]

section

variable {m : MemTable Batch} {lsn : ℕ}

theorem recordLsn_maxLsn (hlt : m.maxLsn < lsn) : (m.recordLsn lsn).maxLsn = lsn := by
  rw [recordLsn_of_lt hlt]

theorem recordLsn_baseLsn (h : m.SpanOk) (hlt : m.maxLsn < lsn) :
    (m.recordLsn lsn).baseLsn = if m.baseLsn = 0 then lsn else m.baseLsn := by
  have hbase : ¬ lsn < m.baseLsn := (h.le.trans hlt.le).not_gt
  simp only [recordLsn_of_lt hlt, hbase, or_false]

theorem records_recordLsn (h : m.SpanOk) (hlt : m.maxLsn < lsn) :
    (m.recordLsn lsn).Records lsn := by
  have hbase := recordLsn_baseLsn h hlt
  have hmax := recordLsn_maxLsn hlt
  by_cases hzero : m.baseLsn = 0
  · rw [if_pos hzero] at hbase
    exact ⟨by rw [hbase]; exact (Nat.zero_le _).trans_lt hlt, hbase.le, hmax.ge⟩
  · rw [if_neg hzero] at hbase
    exact ⟨hbase ▸ Nat.pos_of_ne_zero hzero, hbase ▸ h.le.trans hlt.le, hmax.ge⟩

theorem Records.spanOk (h : m.Records lsn) : m.SpanOk :=
  ⟨h.base_le.trans h.le_max, fun hzero ↦ absurd hzero h.pos.ne'⟩

theorem Records.recordLsn {l : ℕ} (h : m.Records l) (hlt : m.maxLsn < lsn) :
    (m.recordLsn lsn).Records l := by
  have hbase := recordLsn_baseLsn h.spanOk hlt
  rw [if_neg h.pos.ne'] at hbase
  refine ⟨hbase ▸ h.pos, hbase ▸ h.base_le, ?_⟩
  rw [recordLsn_maxLsn hlt]
  exact h.le_max.trans hlt.le

end

/-! ## Chunks -/

@[simp] theorem recordLsn_chunks (m : MemTable Batch) (lsn : ℕ) :
    (m.recordLsn lsn).chunks = m.chunks := by
  unfold recordLsn
  split_ifs <;> rfl

section

variable {shape : BatchShape Batch} {m m' : MemTable Batch} {w : Write Batch}
  {accounting : Accounting} {r : Result Bool}

theorem insertForTable_chunks (h : m.insertForTable shape w accounting = (m', r)) :
    m'.chunks = m.chunks ∨ m'.chunks = m.chunks ++ [w] := by
  unfold insertForTable at h
  split_ifs at h
  · cases h; exact .inl rfl
  · cases h; exact .inl rfl
  · cases accounting <;> (cases h; exact .inr rfl)

theorem mem_insertForTable {x : Write Batch} (h : m.insertForTable shape w accounting = (m', r))
    (hx : x ∈ m.chunks) : x ∈ m'.chunks := by
  rcases insertForTable_chunks h with hm | hm
  · rwa [hm]
  · rw [hm]
    exact List.mem_append_left _ hx

theorem insertForTable_span (h : m.insertForTable shape w accounting = (m', r)) :
    m'.baseLsn = m.baseLsn ∧ m'.maxLsn = m.maxLsn := by
  unfold insertForTable at h
  split_ifs at h
  · cases h; exact ⟨rfl, rfl⟩
  · cases h; exact ⟨rfl, rfl⟩
  · cases accounting <;> (cases h; exact ⟨rfl, rfl⟩)

theorem mem_of_insertForTable (hrows : shape.numRows w.2 ≠ 0)
    (hsch : shape.matchesSchema w.2 = true)
    (h : m.insertForTable shape w accounting = (m', r)) : w ∈ m'.chunks := by
  unfold insertForTable at h
  rw [if_neg hrows, if_neg (by rw [hsch]; exact Bool.noConfusion)] at h
  cases accounting <;> (cases h; simp)

theorem mem_of_insertForTable_ok {rotate : Bool} (hrows : shape.numRows w.2 ≠ 0)
    (h : m.insertForTable shape w accounting = (m', .ok rotate)) : w ∈ m'.chunks := by
  unfold insertForTable at h
  rw [if_neg hrows] at h
  split_ifs at h
  · cases h
  · cases accounting with
    | reserved => cases h; simp
    | overLimit => cases h

end

end MemTable

end MonoTS
