import MonoTS.Wal.Format

/-!
# One WAL segment: writing, reopening, reading

The writer appends frames to a file; the file is the bytes handed to the operating system and to the
write buffer in front of it, so that a crash leaves some initial part of it behind. An append that
is refused writes nothing and changes no counter.

Reopening a segment that has no footer scans it to recover the counters and opens the file for
appending. The scan stops at the first frame it cannot read. It reports no position, and the file is
opened at its end: what the scan could not read stays in the file, in front of whatever is appended
next.

Counters are natural numbers. They count frames of one file, and theorems that depend on a counter
not passing `2 ^ 64` say so.
-/

namespace MonoTS

open LittleEndian ByteStream SegmentHeader

variable {Schema Batch : Type*} (crc32 : Bytes → UInt32) (ipc : ArrowIpc Schema Batch)

/-! ## Scanning the tail -/

/-- What reopening recovers from an in-progress segment. -/
structure SegmentTailState where
  batchesWritten : ℕ
  nextBatchSequence : ℕ
  bytesWritten : ℕ
  framesWritten : ℕ
  hasFooter : Bool

/-- The state the scan starts from. -/
def SegmentTailState.start : SegmentTailState := ⟨0, 1, 0, 0, false⟩

/-- The payload accounting of one batch. -/
def batchBytes (payload : Bytes) : ℕ :=
  match ipc.decodeBatch payload with
  | .ok batch => max (ipc.arrayMemorySize batch) 1
  | .error _ => 0

/-- The loop of the scan over the frames it can read. Behind a footer nothing may follow. -/
def scanFrames (path : String) :
    List ((FrameHeader × Bytes) × Bytes) → SegmentTailState → Result SegmentTailState
  | [], tail => .ok tail
  | ((frame, payload), behind) :: frames, tail =>
    match frame.recordType with
    | .schema =>
      if frame.sequence ≠ schemaFrameSequence then
        let sequence := frame.sequence
        .error (.storage s!"invalid WAL schema sequence {sequence}")
      else scanFrames path frames { tail with framesWritten := tail.framesWritten + 1 }
    | .batch =>
      if frame.sequence ≠ tail.nextBatchSequence then
        let expected := tail.nextBatchSequence
        let found := frame.sequence
        .error (.storage s!"WAL batch sequence gap in {path}: expected {expected}, found {found}")
      else
        scanFrames path frames
          { tail with
            framesWritten := tail.framesWritten + 1
            nextBatchSequence := tail.nextBatchSequence + 1
            batchesWritten := tail.batchesWritten + 1
            bytesWritten := tail.bytesWritten + batchBytes ipc payload }
    | .footer =>
      if behind ≠ [] then .error (.storage s!"trailing bytes after WAL footer in {path}")
      else .ok { tail with framesWritten := tail.framesWritten + 1, hasFooter := true }
    | .memTableEnd | .unknown _ =>
      scanFrames path frames
        { tail with
          framesWritten := tail.framesWritten + 1
          nextBatchSequence := max (saturatingAdd frame.sequence 1) tail.nextBatchSequence }

def scanSegmentTail (path : String) (file : Bytes) : Result SegmentTailState :=
  match decode file with
  | .error e => .error e
  | .ok (_, r) => scanFrames ipc path (segmentFrames crc32 r).1 .start

/-! ## The writer -/

/-- The writer of a file. -/
structure FramedSegmentWriter where
  path : String
  memtableId : ℕ
  /-- Everything written so far, flushed or not. -/
  file : Bytes
  batchesWritten : ℕ
  framesWritten : ℕ
  bytesWritten : ℕ
  nextBatchSequence : ℕ
  /-- Largest block accepted for appends. -/
  blockMaxBytes : ℕ

namespace FramedSegmentWriter

/-- `block_max_bytes.clamp(FRAME_HEADER_SIZE, DEFAULT_WAL_BLOCK_MAX_BYTES)`. -/
def clampBlockMax (blockMaxBytes : ℕ) : ℕ :=
  max frameHeaderSize (min blockMaxBytes defaultWalBlockMaxBytes)

variable (path : String)

/-- Start a segment: header, then the schema frame. `onDisk` is the file the path names. -/
def createWithBlockMax (onDisk : Option Bytes) (memtableId now : ℕ)
    (schema : Schema) (blockMaxBytes : ℕ) : Result FramedSegmentWriter :=
  if onDisk.isSome then .error (.storage s!"WAL file already exists: {path}")
  else
    let blockMaxBytes := clampBlockMax blockMaxBytes
    let frame : Frame :=
      ⟨.schema, payloadFormatArrowIpc, schemaFrameSequence, 0, ipc.encodeSchema schema⟩
    match writeFrame crc32 frame blockMaxBytes with
    | .error e => .error e
    | .ok bytes =>
      .ok
        { path, memtableId, blockMaxBytes
          file := (newV1 memtableId now).encode ++ bytes
          batchesWritten := 0
          framesWritten := 1
          bytesWritten := 0
          nextBatchSequence := 1 }

variable (file : Bytes)

/-- Reopen a segment that has no footer. The file keeps every byte it had. -/
def resumeWithBlockMax (memtableId blockMaxBytes : ℕ) : Result FramedSegmentWriter :=
  match scanSegmentTail crc32 ipc path file with
  | .error e => .error e
  | .ok tail =>
    if tail.hasFooter then .error (.storage s!"WAL already closed: {path}")
    else
      .ok
        { path, memtableId, file
          batchesWritten := tail.batchesWritten
          framesWritten := tail.framesWritten
          bytesWritten := tail.bytesWritten
          nextBatchSequence := tail.nextBatchSequence
          blockMaxBytes := clampBlockMax blockMaxBytes }

def resume (memtableId : ℕ) : Result FramedSegmentWriter :=
  resumeWithBlockMax crc32 ipc path file memtableId defaultWalBlockMaxBytes

/-- Reopen with the memtable id of the segment header. -/
def resumeAny : Result FramedSegmentWriter :=
  match decode file with
  | .error e => .error e
  | .ok (header, _) => resume crc32 ipc path file header.memtableId

variable (w : FramedSegmentWriter)

def setBlockMaxBytes (blockMaxBytes : ℕ) : FramedSegmentWriter :=
  { w with blockMaxBytes := clampBlockMax blockMaxBytes }

def setMemtableId (memtableId : ℕ) : FramedSegmentWriter :=
  { w with memtableId }

/-- Append a batch frame; the result is the frame's sequence number. -/
def appendBatch (batch : Batch) (lsn : ℕ) : Result (FramedSegmentWriter × ℕ) :=
  let sequence := w.nextBatchSequence
  let frame : Frame := ⟨.batch, payloadFormatArrowIpc, sequence, lsn, ipc.encodeBatch batch⟩
  match writeFrame crc32 frame w.blockMaxBytes with
  | .error e => .error e
  | .ok bytes =>
    .ok
      ({ w with
          file := w.file ++ bytes
          nextBatchSequence := w.nextBatchSequence + 1
          batchesWritten := w.batchesWritten + 1
          framesWritten := w.framesWritten + 1
          bytesWritten := w.bytesWritten + max (ipc.arrayMemorySize batch) 1 }, sequence)

/-- Append a memtable-end marker. -/
def appendMemtableEnd (endLsn closedMemtableId newMemtableId : ℕ) : Result FramedSegmentWriter :=
  let frame : Frame := ⟨.memTableEnd, 0, w.nextBatchSequence, endLsn,
    encodeMemtableEndPayload closedMemtableId newMemtableId⟩
  match writeFrame crc32 frame w.blockMaxBytes with
  | .error e => .error e
  | .ok bytes =>
    .ok
      { w with
        file := w.file ++ bytes
        nextBatchSequence := w.nextBatchSequence + 1
        framesWritten := w.framesWritten + 1
        memtableId := newMemtableId }

end FramedSegmentWriter

/-- A call made on a writer. -/
inductive AppendOp (Batch : Type*) where
  | batch (batch : Batch) (lsn : UInt64)
  | memtableEnd (endLsn closedMemtableId newMemtableId : UInt64)

namespace FramedSegmentWriter

def apply (w : FramedSegmentWriter) : AppendOp Batch → Result FramedSegmentWriter
  | .batch batch lsn => (w.appendBatch crc32 ipc batch lsn.toNat).map Prod.fst
  | .memtableEnd endLsn closed new =>
    w.appendMemtableEnd crc32 endLsn.toNat closed.toNat new.toNat

/-- A sequence of calls. The caller keeps the writer when a call is refused. -/
def applyAll (w : FramedSegmentWriter) : List (AppendOp Batch) → FramedSegmentWriter
  | [] => w
  | op :: ops =>
    match w.apply crc32 ipc op with
    | .ok w' => w'.applyAll ops
    | .error _ => w.applyAll ops

end FramedSegmentWriter

/-! ## Reading the batches of a segment -/

/-- Give up with what was read so far, or with the error. -/
def stopReplay (allowPartial : Bool) (batches : List Batch) (e : TsdbError) :
    Result (List Batch × Bool) :=
  if allowPartial then .ok (batches, false) else .error e

/-- How the replay loop leaves when no further frame can be read. -/
def replayEnd (path : String) (allowPartial : Bool) (batches : List Batch) :
    Option FrameStop → Result (List Batch × Bool)
  | none | some .eof => .ok (batches, false)
  | some (.header e) => stopReplay allowPartial batches e
  | some .truncated => stopReplay allowPartial batches unexpectedEof
  | some .crcMismatch =>
    stopReplay allowPartial batches (.storage s!"WAL frame crc mismatch in {path}")

/-- The replay loop. The flag says whether a footer was seen. -/
def replayFrames (path : String) (allowPartial : Bool) (stop : Option FrameStop) :
    List ((FrameHeader × Bytes) × Bytes) → ℕ → List Batch → Result (List Batch × Bool)
  | [], _, batches => replayEnd path allowPartial batches stop
  | ((frame, payload), _) :: frames, nextBatchSequence, batches =>
    let sequence := frame.sequence
    let format := frame.payloadFormat
    match frame.recordType with
    | .schema =>
      if sequence ≠ schemaFrameSequence then
        stopReplay allowPartial batches (.storage s!"invalid WAL schema sequence {sequence}")
      else if format ≠ payloadFormatArrowIpc then
        stopReplay allowPartial batches (.storage s!"unsupported schema payload format {format}")
      else
        match ipc.decodeSchema payload with
        | .ok _ => replayFrames path allowPartial stop frames nextBatchSequence batches
        | .error e => stopReplay allowPartial batches e
    | .batch =>
      if sequence ≠ nextBatchSequence then
        stopReplay allowPartial batches (.storage
          s!"WAL batch sequence gap in {path}: expected {nextBatchSequence}, found {sequence}")
      else if format ≠ payloadFormatArrowIpc then
        stopReplay allowPartial batches (.storage s!"unsupported batch payload format {format}")
      else
        match ipc.decodeBatch payload with
        | .ok batch =>
          replayFrames path allowPartial stop frames (nextBatchSequence + 1) (batches ++ [batch])
        | .error e => stopReplay allowPartial batches e
    | .footer =>
      match SegmentFooter.decode payload with
      | .ok _ => .ok (batches, true)
      | .error e => .error e
    | .memTableEnd | .unknown _ =>
      replayFrames path allowPartial stop frames
        (max (saturatingAdd sequence 1) nextBatchSequence) batches

/-- The batches of a segment file. The memtable id of the header is not compared with anything. -/
def readSegmentBatches (path : String) (onDisk : Option Bytes) (allowPartial : Bool) :
    Result (List Batch) :=
  match onDisk with
  | none => .ok []
  | some file =>
    match decode file with
    | .error e => if allowPartial then .ok [] else .error e
    | .ok (_, r) =>
      let (frames, stop) := segmentFrames crc32 r
      match replayFrames ipc path allowPartial stop frames 1 [] with
      | .error e => .error e
      | .ok (batches, sawFooter) =>
        if allowPartial = false ∧ sawFooter = false then
          .error (.storage s!"WAL segment missing footer: {path}")
        else .ok batches

end MonoTS
