import MonoTS.Wal.Segment

/-!
# The recovery walk over the WAL chain

Recovery reads the numbered segment files in order, collects the batches the SSTs do not cover yet,
and hands them on in partitions: one per memtable-end marker, and one for the open tail of a
segment. A segment with an open tail then gets a marker of its own.

What is done with a partition is the caller's. The callback passes a state of the caller's choosing
and may fail, which ends the walk.
-/

namespace MonoTS

open LittleEndian ByteStream

variable {Schema Batch σ : Type*} (crc32 : Bytes → UInt32) (ipc : ArrowIpc Schema Batch)

/-- One partition of recovered batches with the span of their LSNs; `0` where there is none. -/
structure WalRecoverPartition (Batch : Type*) where
  batches : List Batch
  baseLsn : ℕ
  maxLsn : ℕ
  deriving DecidableEq, Repr

/-- A numbered segment file. -/
structure WalFile where
  fileId : ℕ
  path : String
  bytes : Bytes
  deriving DecidableEq, Repr

/-- Whether a batch frame still has to be rebuilt, given what the SSTs hold. -/
def batchNeedsRecover (frameLsn sstMaxLsn : ℕ) (sstHasFiles : Bool) : Bool :=
  if 0 < frameLsn then sstMaxLsn < frameLsn else !sstHasFiles

theorem batchNeedsRecover_zero (frameLsn : ℕ) : batchNeedsRecover frameLsn 0 false = true := by
  unfold batchNeedsRecover
  split_ifs with h
  · exact decide_eq_true h
  · rfl

/-- The variables of the walk: the partition being collected, which survives from one segment to the
next, the callback's state, and what is known of the open tail of the current segment. -/
structure WalkState (Batch σ : Type*) where
  batches : List Batch
  baseLsn : ℕ
  maxLsn : ℕ
  acc : σ
  logicalActive : ℕ
  openTailHasBatches : Bool
  openTailMaxLsn : ℕ
  segmentComplete : Bool

namespace WalkState

/-- Hand the collected partition on, unless it is empty. -/
def emit (onPartition : σ → WalRecoverPartition Batch → Result σ) (w : WalkState Batch σ) :
    Result (WalkState Batch σ) :=
  if w.batches.isEmpty then .ok { w with baseLsn := 0, maxLsn := 0 }
  else
    match onPartition w.acc ⟨w.batches, w.baseLsn, w.maxLsn⟩ with
    | .ok acc => .ok { w with acc, batches := [], baseLsn := 0, maxLsn := 0 }
    | .error e => .error e

variable (w : WalkState Batch σ)

def discardOpen : WalkState Batch σ :=
  { w with batches := [], baseLsn := 0, maxLsn := 0 }

/-- Note a batch frame on the open tail. -/
def noteBatch (lsn : ℕ) : WalkState Batch σ :=
  { w with openTailHasBatches := true, openTailMaxLsn := max w.openTailMaxLsn lsn }

/-- Add a batch to the partition. An LSN of `0` does not count towards the span. -/
def push (lsn : ℕ) (batch : Batch) : WalkState Batch σ :=
  { w with
    batches := w.batches ++ [batch]
    baseLsn := if 0 < lsn ∧ (w.baseLsn = 0 ∨ lsn < w.baseLsn) then lsn else w.baseLsn
    maxLsn := max w.maxLsn lsn }

/-- Enter the next segment. -/
def enter (memtableId : ℕ) : WalkState Batch σ :=
  { w with
    logicalActive := memtableId
    openTailHasBatches := false
    openTailMaxLsn := 0
    segmentComplete := false }

variable (payload : Bytes)

/-- A memtable-end marker closes the tail; its payload names the memtable that is active next. -/
def closeTail : WalkState Batch σ :=
  let newId := (decodeMemtableEndPayload payload).2
  { w with
    logicalActive := if 0 < newId then newId else w.logicalActive
    openTailHasBatches := false
    openTailMaxLsn := 0 }

@[simp] theorem closeTail_acc : (w.closeTail payload).acc = w.acc := rfl

@[simp] theorem closeTail_batches : (w.closeTail payload).batches = w.batches := rfl

@[simp] theorem closeTail_segmentComplete :
    (w.closeTail payload).segmentComplete = w.segmentComplete := rfl

end WalkState

variable (sstMaxLsn : ℕ) (sstHasFiles : Bool)
  (onPartition : σ → WalRecoverPartition Batch → Result σ)

/-- The frame loop of one segment. -/
def walkFrames :
    List ((FrameHeader × Bytes) × Bytes) → WalkState Batch σ → Result (WalkState Batch σ)
  | [], w => .ok w
  | ((frame, payload), _) :: frames, w =>
    match frame.recordType with
    -- The schema is remembered only to be passed to the batch decoder, which ignores it.
    | .schema => walkFrames frames w
    | .batch =>
      let w := w.noteBatch frame.lsn
      if batchNeedsRecover frame.lsn sstMaxLsn sstHasFiles = false then walkFrames frames w
      else
        match ipc.decodeBatch payload with
        | .ok batch => walkFrames frames (w.push frame.lsn batch)
        | .error _ => .ok w
    | .footer => .ok { w with segmentComplete := true }
    | .memTableEnd =>
      match (w.closeTail payload).emit onPartition with
      | .ok w => walkFrames frames w
      | .error e => .error e
    | .unknown _ => walkFrames frames w

/-- Append a memtable-end marker to a segment without a footer. -/
def sealOpenWalTail (file : WalFile) (endLsn closedMemtableId newMemtableId : ℕ) : Result WalFile :=
  match scanSegmentTail crc32 ipc file.path file.bytes with
  | .error e => .error e
  | .ok tail =>
    if tail.hasFooter then .ok file
    else
      match FramedSegmentWriter.resumeAny crc32 ipc file.path file.bytes with
      | .error e => .error e
      | .ok writer =>
        match writer.appendMemtableEnd crc32 endLsn closedMemtableId newMemtableId with
        | .error e => .error e
        | .ok writer => .ok { file with bytes := writer.file }

/-- What happens once the frames of a segment are read. -/
def finishSegment (file : WalFile) (w : WalkState Batch σ) : Result (WalkState Batch σ × WalFile) :=
  if w.openTailHasBatches then
    match w.emit onPartition with
    | .error e => .error e
    | .ok w =>
      if w.segmentComplete then .ok (w, file)
      else
        let closed := w.logicalActive
        match sealOpenWalTail crc32 ipc file w.openTailMaxLsn closed (saturatingAdd closed 1) with
        | .error e => .error e
        | .ok file => .ok (w, file)
  else .ok (w.discardOpen, file)

/-- The segment loop. A segment whose header cannot be read is passed over. -/
def walkSegments :
    List WalFile → WalkState Batch σ → Result (WalkState Batch σ × List WalFile)
  | [], w => .ok (w, [])
  | file :: files, w =>
    match SegmentHeader.decode file.bytes with
    | .error _ =>
      match walkSegments files w with
      | .error e => .error e
      | .ok (w, files) => .ok (w, file :: files)
    | .ok (header, r) =>
      match walkFrames ipc sstMaxLsn sstHasFiles onPartition (segmentFrames crc32 r).1
          (w.enter header.memtableId) with
      | .error e => .error e
      | .ok w =>
        match finishSegment crc32 ipc onPartition file w with
        | .error e => .error e
        | .ok (w, file) =>
          match walkSegments files w with
          | .error e => .error e
          | .ok (w, files) => .ok (w, file :: files)

/-- Walk the chain from the callback state `init`; the result is the callback's last state and the
chain with its open tails sealed. -/
def walkUnflushedPartitions (files : List WalFile) (init : σ) : Result (σ × List WalFile) :=
  match walkSegments crc32 ipc sstMaxLsn sstHasFiles onPartition files
      ⟨[], 0, 0, init, 0, false, 0, false⟩ with
  | .error e => .error e
  | .ok (w, files) => .ok (w.acc, files)

end MonoTS
