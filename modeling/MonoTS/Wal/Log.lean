import MonoTS.Wal.Frames
import MonoTS.Wal.Walk

/-!
# Segments as logs of entries

The abstract view of a segment is the list of entries its writer accepted: the schema, then batches
and memtable-end markers, numbered one after the other. `encodeLog` is the byte image of such a log,
and the results here say what each reader of the segment does with a log followed by bytes it cannot
read: the scan recovers the next sequence number, the replay and the recovery walk return exactly
the batches of the log, in order.

`Readable` is the one condition an entry has to meet. The block length of a frame is computed from
the low 32 bits of the payload's length, so a payload of `2 ^ 32` bytes or more passes the size
check of the writer and is not readable.
-/

open List

namespace MonoTS

open LittleEndian ByteStream FramedSegmentWriter SegmentHeader WalkState

variable {Schema Batch : Type*}

/-- An entry of a segment. -/
inductive LogEntry (Schema Batch : Type*) where
  | schema (schema : Schema)
  | batch (sequence : ℕ) (lsn : UInt64) (batch : Batch)
  | memtableEnd (sequence : ℕ) (endLsn closedMemtableId newMemtableId : UInt64)

variable (crc32 : Bytes → UInt32) (ipc : ArrowIpc Schema Batch)

namespace LogEntry

/-- The frame an entry is written as. -/
def frame : LogEntry Schema Batch → Frame
  | .schema s => ⟨.schema, payloadFormatArrowIpc, schemaFrameSequence, 0, ipc.encodeSchema s⟩
  | .batch sequence lsn b =>
    ⟨.batch, payloadFormatArrowIpc, sequence, lsn.toNat, ipc.encodeBatch b⟩
  | .memtableEnd sequence endLsn closed new =>
    ⟨.memTableEnd, 0, sequence, endLsn.toNat, encodeMemtableEndPayload closed.toNat new.toNat⟩

/-- The batch of an entry. -/
def batch? : LogEntry Schema Batch → Option Batch
  | .batch _ _ b => some b
  | _ => none

def sequence : LogEntry Schema Batch → ℕ
  | .schema _ => schemaFrameSequence
  | .batch sequence _ _ => sequence
  | .memtableEnd sequence _ _ _ => sequence

/-- The bytes an entry takes on disk. -/
def size (e : LogEntry Schema Batch) : ℕ := (e.frame ipc).size

/-- The writer accepted the entry, and the sequence counter has not reached its end. -/
structure Accepted (e : LogEntry Schema Batch) : Prop where
  blockLen_le : (e.frame ipc).blockLen ≤ defaultWalBlockMaxBytes
  sequence_lt : e.sequence + 1 < 2 ^ 64

variable (e : LogEntry Schema Batch)

/-- The payload's length fits the 32 bits that the block length is computed from. -/
def Readable : Prop := (e.frame ipc).payload.length < 2 ^ 32

instance : Decidable (e.Readable ipc) :=
  inferInstanceAs (Decidable ((e.frame ipc).payload.length < 2 ^ 32))

variable {ipc} {e : LogEntry Schema Batch}

theorem Accepted.wellFormed (he : e.Accepted ipc) : (e.frame ipc).WellFormed where
  known := by cases e <;> rfl
  asU16_lt := by cases e <;> simp [frame, RecordType.asU16]
  payloadFormat_lt := by cases e <;> simp [frame, payloadFormatArrowIpc]
  blockLen_le := he.blockLen_le
  sequence_lt := by cases e <;> exact Nat.lt_of_succ_lt he.sequence_lt
  lsn_lt := by
    cases e with
    | schema => exact Nat.two_pow_pos 64
    | batch sequence lsn => exact lsn.toNat_lt
    | memtableEnd sequence endLsn => exact endLsn.toNat_lt

theorem eq_batch_of_recordType (h : (e.frame ipc).recordType = .batch) :
    ∃ sequence lsn b, e = .batch sequence lsn b := by
  cases e with
  | batch sequence lsn b => exact ⟨sequence, lsn, b, rfl⟩
  | schema | memtableEnd => cases h

variable (ipc) in
theorem size_pos (e : LogEntry Schema Batch) : 0 < e.size ipc := by
  rw [size, Frame.size]
  exact Nat.add_pos_left (by decide) _

end LogEntry

variable (log : List (LogEntry Schema Batch))

/-- The byte image of a log. -/
def encodeLog : Bytes :=
  log.flatMap fun e ↦ (e.frame ipc).encode crc32

/-- The batches of a log. -/
def logBatches : List Batch := log.filterMap LogEntry.batch?

/-- Entries are numbered consecutively from `next`; the schema has no number of its own. -/
def Sequenced : ℕ → List (LogEntry Schema Batch) → Prop
  | _, [] => True
  | next, .schema _ :: log => Sequenced next log
  | next, .batch sequence _ _ :: log => sequence = next ∧ Sequenced (next + 1) log
  | next, .memtableEnd sequence _ _ _ :: log => sequence = next ∧ Sequenced (next + 1) log

/-- The number the entry behind a log gets. -/
def nextSequence : ℕ → List (LogEntry Schema Batch) → ℕ
  | next, [] => next
  | next, .schema _ :: log => nextSequence next log
  | next, .batch _ _ _ :: log => nextSequence (next + 1) log
  | next, .memtableEnd _ _ _ _ :: log => nextSequence (next + 1) log

@[simp] theorem encodeLog_nil : encodeLog crc32 ipc [] = [] := rfl

@[simp] theorem encodeLog_cons (e : LogEntry Schema Batch) (log : List (LogEntry Schema Batch)) :
    encodeLog crc32 ipc (e :: log) = (e.frame ipc).encode crc32 ++ encodeLog crc32 ipc log := rfl

variable (log log' : List (LogEntry Schema Batch))

@[simp] theorem encodeLog_append :
    encodeLog crc32 ipc (log ++ log') = encodeLog crc32 ipc log ++ encodeLog crc32 ipc log' :=
  flatMap_append

@[simp] theorem logBatches_append : logBatches (log ++ log') = logBatches log ++ logBatches log' :=
  filterMap_append

variable {e : LogEntry Schema Batch}

theorem logBatches_cons_of_some {b : Batch} (h : e.batch? = some b)
    (log : List (LogEntry Schema Batch)) : logBatches (e :: log) = b :: logBatches log :=
  filterMap_cons_some h

variable {crc32 ipc}

/-! ## The readers on a log -/

variable (crc32 ipc) in
/-- Frames read back from the byte image of a log. -/
def FramesOf (log : List (LogEntry Schema Batch))
    (frames : List ((FrameHeader × Bytes) × Bytes)) : Prop :=
  frames.map Prod.fst = log.map fun e ↦ ((e.frame ipc).header crc32, (e.frame ipc).payload)

variable {log : List (LogEntry Schema Batch)} {frames : List ((FrameHeader × Bytes) × Bytes)}
  {next : ℕ}

variable (crc32) in
theorem segmentFrames_encodeLog (hacc : ∀ e ∈ log, e.Accepted ipc)
    (hread : ∀ e ∈ log, e.Readable ipc) (tail : Bytes) :
    ∃ frames, FramesOf crc32 ipc log frames ∧
      segmentFrames crc32 (encodeLog crc32 ipc log ++ tail)
        = (frames ++ (segmentFrames crc32 tail).1, (segmentFrames crc32 tail).2) := by
  obtain ⟨frames, hits, hfr⟩ := items_append (consuming_readFrame crc32)
    (fun e he rest ↦ readFrame_encode crc32 (hacc e he).wellFormed (hread e he) rest) tail
  exact ⟨frames, hfr, hits⟩

theorem FramesOf.cons_inv (h : FramesOf crc32 ipc (e :: log) frames) :
    ∃ behind frames',
      frames = (((e.frame ipc).header crc32, (e.frame ipc).payload), behind) :: frames'
      ∧ FramesOf crc32 ipc log frames' := by
  obtain ⟨⟨_, behind⟩, frames', rfl, rfl, htail⟩ := map_eq_cons_iff.mp h
  exact ⟨behind, frames', rfl, htail⟩

variable (crc32 ipc) in
/-- The frame of an entry, as it is stored. -/
def LogEntry.stored (e : LogEntry Schema Batch) : FrameHeader × Bytes :=
  ((e.frame ipc).header crc32, (e.frame ipc).payload)

theorem LogEntry.length_storedBytes (e : LogEntry Schema Batch) :
    (storedBytes (e.stored crc32 ipc)).length = e.size ipc :=
  Frame.length_encode crc32 (e.frame ipc)

/-- The batch of an entry as the cursor returns it. -/
def LogEntry.event? : LogEntry Schema Batch → Option (WalFrameEvent Batch)
  | .batch sequence lsn b => some ⟨lsn.toNat, sequence, b⟩
  | .schema _ | .memtableEnd _ _ _ _ => none

section

variable (log : List (LogEntry Schema Batch))

def logEvents : List (WalFrameEvent Batch) :=
  log.filterMap LogEntry.event?

theorem map_batch_logEvents : (logEvents log).map WalFrameEvent.batch = logBatches log := by
  rw [logEvents, map_filterMap, logBatches]
  congr
  funext e
  cases e <;> rfl

end

variable (crc32) in
theorem numbered_log (hacc : ∀ e ∈ log, e.Accepted ipc) (hseq : Sequenced next log) :
    Numbered ipc next (log.map (LogEntry.stored crc32 ipc)) (nextSequence next log)
      (logEvents log) := by
  induction log generalizing next with
  | nil => exact .nil next
  | cons e log ih =>
    obtain ⟨he, hlog⟩ := forall_mem_cons.mp hacc
    cases e with
    | schema s => exact .schema rfl rfl rfl (ipc.decodeSchema_encodeSchema s) (ih hlog hseq)
    | batch sequence lsn b =>
      obtain ⟨rfl, hseq⟩ := hseq
      exact .batch rfl rfl rfl (ipc.decodeBatch_encodeBatch b) (ih hlog hseq)
    | memtableEnd =>
      obtain ⟨rfl, hseq⟩ := hseq
      exact .skipped trivial rfl he.sequence_lt (ih hlog hseq)

theorem scanFrames_log (path : String) (rest : List ((FrameHeader × Bytes) × Bytes))
    (tail : SegmentTailState) (hfr : FramesOf crc32 ipc log frames)
    (hacc : ∀ e ∈ log, e.Accepted ipc) (hseq : Sequenced tail.nextBatchSequence log) :
    ∃ tail', scanFrames ipc path (frames ++ rest) tail = scanFrames ipc path rest tail' ∧
      tail'.nextBatchSequence = nextSequence tail.nextBatchSequence log ∧
      tail'.hasFooter = tail.hasFooter :=
  ⟨_, scanFrames_numbered rest path tail (numbered_log crc32 hacc hseq) hfr, rfl, rfl⟩

theorem replayFrames_log (path : String) (allowPartial : Bool) (stop : Option FrameStop)
    (rest : List ((FrameHeader × Bytes) × Bytes)) (batches : List Batch)
    (hfr : FramesOf crc32 ipc log frames) (hacc : ∀ e ∈ log, e.Accepted ipc)
    (hseq : Sequenced next log) :
    replayFrames ipc path allowPartial stop (frames ++ rest) next batches
      = replayFrames ipc path allowPartial stop rest (nextSequence next log)
          (batches ++ logBatches log) := by
  rw [replayFrames_numbered rest path allowPartial stop batches (numbered_log crc32 hacc hseq)
    hfr, map_batch_logEvents]

/-- The callback that gathers every recovered batch. -/
def collect (acc : List Batch) (partition : WalRecoverPartition Batch) : Result (List Batch) :=
  .ok (acc ++ partition.batches)

variable (w : WalkState Batch (List Batch))

/-- The state after the collected partition was handed to `collect`. -/
def WalkState.emitted : WalkState Batch (List Batch) :=
  { w.discardOpen with acc := w.acc ++ w.batches }

@[simp] theorem emitted_acc : w.emitted.acc = w.acc ++ w.batches := rfl

@[simp] theorem emitted_batches : w.emitted.batches = [] := rfl

@[simp] theorem emitted_segmentComplete : w.emitted.segmentComplete = w.segmentComplete := rfl

theorem emit_collect : w.emit collect = .ok w.emitted := by
  unfold emit emitted discardOpen
  split_ifs with h
  · simp [List.isEmpty_iff.mp h]
  · rfl

/-- The walk has seen these batches: handed on or held in the open partition. -/
structure Walked (w : WalkState Batch (List Batch)) (seen : List Batch) : Prop where
  gathered : w.acc ++ w.batches = seen
  closed : w.openTailHasBatches = false → w.batches = []
  incomplete : w.segmentComplete = false

theorem walkFrames_log (rest : List ((FrameHeader × Bytes) × Bytes))
    {w : WalkState Batch (List Batch)} {seen : List Batch} (hfr : FramesOf crc32 ipc log frames)
    (hw : Walked w seen) :
    ∃ w', walkFrames ipc 0 false collect (frames ++ rest) w
        = walkFrames ipc 0 false collect rest w' ∧ Walked w' (seen ++ logBatches log) := by
  induction log generalizing frames w seen with
  | nil =>
    rw [map_eq_nil_iff.mp hfr]
    exact ⟨w, rfl, by rwa [logBatches, filterMap_nil, append_nil]⟩
  | cons e log ih =>
    obtain ⟨_, _, rfl, hlog⟩ := hfr.cons_inv
    rw [cons_append, walkFrames]
    cases e with
    | schema => exact ih hlog hw
    | batch sequence lsn b =>
      have hpush : Walked ((w.noteBatch lsn.toNat).push lsn.toNat b) (seen ++ [b]) :=
        ⟨by simp [push, noteBatch, ← hw.gathered],
          by simp [push, noteBatch], hw.incomplete⟩
      obtain ⟨w', hwalk, hw'⟩ := ih hlog hpush
      refine ⟨w', ?_, by rwa [append_assoc] at hw'⟩
      simpa [LogEntry.frame, Frame.header, batchNeedsRecover_zero,
        ipc.decodeBatch_encodeBatch] using hwalk
    | memtableEnd sequence endLsn closed new =>
      have hclose : Walked (w.closeTail (encodeMemtableEndPayload closed.toNat new.toNat)).emitted
          seen := ⟨by simpa using hw.gathered, fun _ ↦ rfl, by simpa using hw.incomplete⟩
      simp only [LogEntry.frame, Frame.header, emit_collect]
      exact ih hlog hclose

variable (crc32) in
/-- The size check never refuses a marker of a writer that has the default limit. -/
theorem appendMemtableEnd_ok (w : FramedSegmentWriter)
    (hmax : w.blockMaxBytes = clampBlockMax defaultWalBlockMaxBytes) (endLsn closed new : ℕ) :
    ∃ w', w.appendMemtableEnd crc32 endLsn closed new = .ok w' := by
  have hlen : (encodeMemtableEndPayload closed new).length % 2 ^ 32 = 16 := by
    rw [length_encodeMemtableEndPayload]
    rfl
  have hwrap : ¬ 2 ^ 32 ≤ frameHeaderSize + 16 := by decide
  have hlim : ¬ clampBlockMax defaultWalBlockMaxBytes < frameHeaderSize + 16 := by decide
  simp only [appendMemtableEnd, writeFrame, Frame.blockLen, hlen, hmax, hwrap, hlim, if_false]
  exact ⟨_, rfl⟩

/-! ## Segment files that hold a log

A file is a segment header, a log, and a tail at which every reader stops. -/

section

variable {log : List (LogEntry Schema Batch)} {tail : Bytes} {stop : FrameStop}
  (path : String) (memtableId now : ℕ)
  (hacc : ∀ e ∈ log, e.Accepted ipc) (hread : ∀ e ∈ log, e.Readable ipc)
  (hseq : Sequenced 1 log) (hstop : readFrame crc32 tail = .stop stop)

variable (crc32 ipc log tail) in
/-- The bytes of such a file. -/
def logFile : Bytes :=
  (newV1 memtableId now).encode ++ (encodeLog crc32 ipc log ++ tail)

theorem decode_logFile : decode (logFile crc32 ipc log tail memtableId now) =
    .ok (newV1 (memtableId % 2 ^ 64) (now % 2 ^ 64), encodeLog crc32 ipc log ++ tail) :=
  decode_encode_newV1 ..

include hacc hread hseq hstop

theorem scanSegmentTail_logFile :
    ∃ t, scanSegmentTail crc32 ipc path (logFile crc32 ipc log tail memtableId now) = .ok t ∧
      t.nextBatchSequence = nextSequence 1 log ∧ t.hasFooter = false := by
  obtain ⟨_, hfr, hits⟩ := segmentFrames_encodeLog crc32 hacc hread tail
  obtain ⟨t, hscan, hnext, hfoot⟩ := scanFrames_log path [] .start hfr hacc hseq
  refine ⟨t, ?_, hnext, hfoot⟩
  rw [segmentFrames, segmentFrames, items_of_stop hstop] at hits
  rw [scanSegmentTail, logFile, decode_encode_newV1]
  simp only [segmentFrames, hits]
  exact hscan

/-- Reopening keeps the file and continues the numbering. -/
theorem resumeAny_logFile :
    ∃ w, resumeAny crc32 ipc path (logFile crc32 ipc log tail memtableId now) = .ok w ∧
      w.file = logFile crc32 ipc log tail memtableId now ∧
      w.nextBatchSequence = nextSequence 1 log ∧
      w.blockMaxBytes = clampBlockMax defaultWalBlockMaxBytes := by
  obtain ⟨_, hscan, hnext, hfoot⟩ :=
    scanSegmentTail_logFile path memtableId now hacc hread hseq hstop
  simp only [resumeAny, decode_logFile, resume, resumeWithBlockMax, hscan, hfoot,
    Bool.false_eq_true, if_false]
  exact ⟨_, rfl, rfl, hnext, rfl⟩

theorem readSegmentBatches_logFile :
    readSegmentBatches crc32 ipc path (some (logFile crc32 ipc log tail memtableId now)) true
      = .ok (logBatches log) := by
  obtain ⟨_, hfr, hits⟩ := segmentFrames_encodeLog crc32 hacc hread tail
  have htail : segmentFrames crc32 tail = ([], some stop) := items_of_stop hstop
  rw [htail] at hits
  have hrep := replayFrames_log path true (some stop) [] [] hfr hacc hseq
  have hend : replayEnd path true (logBatches log) (some stop) = .ok (logBatches log, false) := by
    cases stop <;> rfl
  simp only [readSegmentBatches, logFile, decode_encode_newV1, hits, hrep,
    replayFrames, nil_append, hend]
  rfl

theorem exists_sealOpenWalTail_logFile (fileId endLsn closed new : ℕ) :
    ∃ file, sealOpenWalTail crc32 ipc
      ⟨fileId, path, logFile crc32 ipc log tail memtableId now⟩ endLsn closed new = .ok file := by
  obtain ⟨_, hscan, -, hfoot⟩ := scanSegmentTail_logFile path memtableId now hacc hread hseq hstop
  obtain ⟨writer, hres, -, -, hmax⟩ := resumeAny_logFile path memtableId now hacc hread hseq hstop
  obtain ⟨_, happ⟩ := appendMemtableEnd_ok crc32 writer hmax endLsn closed new
  simp only [sealOpenWalTail, hscan, hfoot, hres, happ, Bool.false_eq_true, if_false]
  exact ⟨_, rfl⟩

/-- The walk hands on the batches of the log and can seal the file. -/
theorem walkUnflushedPartitions_logFile (fileId : ℕ) :
    ∃ files, walkUnflushedPartitions crc32 ipc 0 false collect
      [⟨fileId, path, logFile crc32 ipc log tail memtableId now⟩] [] =
        .ok (logBatches log, files) := by
  obtain ⟨_, hfr, hits⟩ := segmentFrames_encodeLog crc32 hacc hread tail
  have htail : segmentFrames crc32 tail = ([], some stop) := items_of_stop hstop
  have hst : Walked ((⟨[], 0, 0, [], 0, false, 0, false⟩ : WalkState Batch (List Batch)).enter
      (memtableId % 2 ^ 64)) [] := ⟨rfl, fun _ ↦ rfl, rfl⟩
  obtain ⟨w, hwalk, hw⟩ := walkFrames_log [] hfr hst
  have hfin : ∃ w' file, finishSegment crc32 ipc collect
      ⟨fileId, path, logFile crc32 ipc log tail memtableId now⟩ w = .ok (w', file) ∧
        w'.acc = logBatches log := by
    unfold finishSegment
    cases hopen : w.openTailHasBatches with
    | true =>
      obtain ⟨file, hfile⟩ := exists_sealOpenWalTail_logFile path memtableId now hacc hread hseq
        hstop fileId w.openTailMaxLsn w.logicalActive (saturatingAdd w.logicalActive 1)
      have hcom : w.emitted.segmentComplete = false := hw.incomplete
      refine ⟨w.emitted, file, ?_, hw.gathered⟩
      simp only [if_true, emit_collect, hcom, Bool.false_eq_true, if_false]
      exact hfile ▸ rfl
    | false =>
      refine ⟨w.discardOpen, _, if_neg Bool.false_ne_true, ?_⟩
      have hgath := hw.gathered
      rwa [hw.closed hopen, append_nil] at hgath
  obtain ⟨_, file, hfin, hacc'⟩ := hfin
  refine ⟨[file], ?_⟩
  rw [htail] at hits
  have hnil : ∀ w : WalkState Batch (List Batch), walkFrames ipc 0 false collect [] w = .ok w :=
    fun _ ↦ rfl
  simp only [walkUnflushedPartitions, walkSegments, decode_logFile, hits, newV1]
  rw [hwalk, hnil]
  simp only [hfin, hacc']

end

/-! ## What a writer appends -/

/-- The entry a call writes when it gets the given sequence number. -/
def AppendOp.entry (sequence : ℕ) : AppendOp Batch → LogEntry Schema Batch
  | .batch b lsn => .batch sequence lsn b
  | .memtableEnd endLsn closed new => .memtableEnd sequence endLsn closed new

variable (ipc) in
/-- The entries that a sequence of calls adds, numbered from `next`: a call whose block exceeds the
limit adds nothing. -/
def appendedLog (blockMaxBytes : ℕ) : ℕ → List (AppendOp Batch) → List (LogEntry Schema Batch)
  | _, [] => []
  | next, op :: ops =>
    if ((op.entry next).frame ipc).blockLen ≤ blockMaxBytes then
      op.entry next :: appendedLog blockMaxBytes (next + 1) ops
    else appendedLog blockMaxBytes next ops

theorem clampBlockMax_le (n : ℕ) : clampBlockMax n ≤ defaultWalBlockMaxBytes :=
  max_le (by decide) (min_le_right _ _)

variable {blockMaxBytes : ℕ} {ops : List (AppendOp Batch)}

variable (crc32) in
theorem writeFrame_eq (f : Frame) (hmax : blockMaxBytes ≤ defaultWalBlockMaxBytes) :
    (f.blockLen ≤ blockMaxBytes → writeFrame crc32 f blockMaxBytes = .ok (f.encode crc32)) ∧
      (¬ f.blockLen ≤ blockMaxBytes → ∃ e, writeFrame crc32 f blockMaxBytes = .error e) := by
  have hdef : defaultWalBlockMaxBytes < 2 ^ 32 := by decide
  refine ⟨fun h ↦ ?_, fun h ↦ ?_⟩
  · rw [writeFrame, if_neg (by omega), if_neg (by omega)]
  · rw [writeFrame]
    split_ifs
    · exact ⟨_, rfl⟩
    · exact ⟨_, rfl⟩
    · omega

section

variable (w : FramedSegmentWriter) (hmax : w.blockMaxBytes ≤ defaultWalBlockMaxBytes)

include hmax

variable (crc32 ipc) in
/-- One call either adds its entry and moves the counter, or leaves the writer as it was. -/
theorem apply_eq (op : AppendOp Batch) :
    (((op.entry w.nextBatchSequence).frame ipc).blockLen ≤ w.blockMaxBytes →
        ∃ w', w.apply crc32 ipc op = .ok w' ∧
          w'.file = w.file ++ ((op.entry w.nextBatchSequence).frame ipc).encode crc32 ∧
          w'.nextBatchSequence = w.nextBatchSequence + 1 ∧ w'.blockMaxBytes = w.blockMaxBytes) ∧
      (¬ ((op.entry w.nextBatchSequence).frame ipc).blockLen ≤ w.blockMaxBytes →
        ∃ e, w.apply crc32 ipc op = .error e) := by
  have hwr := writeFrame_eq crc32
    ((op.entry w.nextBatchSequence : LogEntry Schema Batch).frame ipc) hmax
  cases op with
  | batch =>
    simp only [AppendOp.entry, LogEntry.frame] at hwr ⊢
    refine ⟨fun h ↦ ?_, fun h ↦ ?_⟩
    · simp only [apply, appendBatch, hwr.1 h, Except.map]
      exact ⟨_, rfl, rfl, rfl, rfl⟩
    · obtain ⟨e, he⟩ := hwr.2 h
      simp only [apply, appendBatch, he, Except.map]
      exact ⟨e, rfl⟩
  | memtableEnd =>
    simp only [AppendOp.entry, LogEntry.frame] at hwr ⊢
    refine ⟨fun h ↦ ?_, fun h ↦ ?_⟩
    · simp only [apply, appendMemtableEnd, hwr.1 h]
      exact ⟨_, rfl, rfl, rfl, rfl⟩
    · obtain ⟨e, he⟩ := hwr.2 h
      simp only [apply, appendMemtableEnd, he]
      exact ⟨e, rfl⟩

variable (ops : List (AppendOp Batch))

theorem applyAll_file : (w.applyAll crc32 ipc ops).file
      = w.file ++
        encodeLog crc32 ipc (appendedLog ipc w.blockMaxBytes w.nextBatchSequence ops) := by
  induction ops generalizing w with
  | nil => rw [applyAll, appendedLog, encodeLog_nil, append_nil]
  | cons op ops ih =>
    have hop := apply_eq crc32 ipc w hmax op
    rw [applyAll, appendedLog]
    split_ifs with hfits
    · obtain ⟨w', happ, hfile, hnext, hlim⟩ := hop.1 hfits
      simp only [happ]
      rw [ih w' (hlim ▸ hmax), hfile, hnext, hlim, encodeLog_cons, append_assoc]
    · obtain ⟨_, happ⟩ := hop.2 hfits
      simp only [happ]
      exact ih w hmax

variable (crc32 ipc) in
/-- The limit stays, and every call takes at most one number. -/
theorem applyAll_counters : (w.applyAll crc32 ipc ops).blockMaxBytes = w.blockMaxBytes ∧
      (w.applyAll crc32 ipc ops).nextBatchSequence ≤ w.nextBatchSequence + ops.length := by
  induction ops generalizing w with
  | nil => exact ⟨rfl, le_rfl⟩
  | cons op ops ih =>
    have hop := apply_eq crc32 ipc w hmax op
    rw [applyAll, length_cons]
    by_cases hfits : ((op.entry w.nextBatchSequence).frame ipc).blockLen ≤ w.blockMaxBytes
    · obtain ⟨w', happ, -, _, hlim⟩ := hop.1 hfits
      obtain ⟨hlim', hle⟩ := ih w' (hlim ▸ hmax)
      simp only [happ]
      exact ⟨hlim'.trans hlim, by omega⟩
    · obtain ⟨_, happ⟩ := hop.2 hfits
      obtain ⟨hlim', _⟩ := ih w hmax
      simp only [happ]
      exact ⟨hlim', by omega⟩

end

theorem appendedLog_sequenced (blockMaxBytes next : ℕ) (ops : List (AppendOp Batch)) :
    Sequenced next (appendedLog ipc blockMaxBytes next ops) := by
  induction ops generalizing next with
  | nil => trivial
  | cons op ops ih =>
    rw [appendedLog]
    split_ifs
    · cases op <;> exact ⟨rfl, ih (next + 1)⟩
    · exact ih next

theorem appendedLog_blockLen_le :
    ∀ e ∈ appendedLog ipc blockMaxBytes next ops, (e.frame ipc).blockLen ≤ blockMaxBytes := by
  induction ops generalizing next with
  | nil => simp [appendedLog]
  | cons op ops ih =>
    rw [appendedLog]
    split_ifs with hfits
    · exact forall_mem_cons.mpr ⟨hfits, ih⟩
    · exact ih

theorem appendedLog_sequence_lt :
    ∀ e ∈ appendedLog ipc blockMaxBytes next ops, e.sequence < next + ops.length := by
  induction ops generalizing next with
  | nil => simp [appendedLog]
  | cons op ops ih =>
    rw [appendedLog, length_cons]
    split_ifs
    · refine forall_mem_cons.mpr ⟨?_, fun e he ↦ (ih e he).trans_eq (by omega)⟩
      cases op <;> simp only [AppendOp.entry, LogEntry.sequence] <;> omega
    · exact fun e he ↦ (ih e he).trans (by omega)

theorem appendedLog_accepted (hmax : blockMaxBytes ≤ defaultWalBlockMaxBytes)
    (hlt : next + ops.length < 2 ^ 64) :
    ∀ e ∈ appendedLog ipc blockMaxBytes next ops, e.Accepted ipc := fun e he ↦
  ⟨(appendedLog_blockLen_le e he).trans hmax,
    (Nat.succ_le_of_lt (appendedLog_sequence_lt e he)).trans_lt hlt⟩

theorem nextSequence_le (next : ℕ) (log : List (LogEntry Schema Batch)) :
    nextSequence next log ≤ next + log.length := by
  induction log generalizing next with
  | nil => exact le_rfl
  | cons e log ih =>
    rw [length_cons]
    cases e with
    | schema => exact (ih next).trans (by omega)
    | batch | memtableEnd => exact (ih (next + 1)).trans (by omega)

theorem sequenced_append {log' : List (LogEntry Schema Batch)} :
    Sequenced next (log ++ log') ↔ Sequenced next log ∧ Sequenced (nextSequence next log) log' := by
  induction log generalizing next with
  | nil => simp [Sequenced, nextSequence]
  | cons e log ih => cases e <;> simp [Sequenced, nextSequence, ih, and_assoc]

theorem length_appendedLog_le (blockMaxBytes next : ℕ) (ops : List (AppendOp Batch)) :
    (appendedLog ipc blockMaxBytes next ops).length ≤ ops.length := by
  induction ops generalizing next with
  | nil => exact le_rfl
  | cons op ops ih =>
    rw [appendedLog]
    split_ifs
    · exact Nat.succ_le_succ (ih (next + 1))
    · exact (ih next).trans (Nat.le_succ _)

end MonoTS
