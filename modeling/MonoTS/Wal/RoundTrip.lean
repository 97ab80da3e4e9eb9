import MonoTS.Wal.Cursor

/-!
# Writing a segment and reading it back

A segment is created, appended to, closed and reopened any number of times, and finished. What the
writer keeps in memory and what is in the file go together at every moment: `Holds` says that the
file is a row of numbered frames, that the counters count them, and that the row goes on where the
writer will. Every call preserves this, reopening included, because the scan recovers from the row
what the writer had. And every reader of a row returns its batches (`Numbered`), so that nothing
else has to be known about the calls.
-/

open List

namespace MonoTS

open LittleEndian ByteStream FramedSegmentWriter SegmentHeader WalFrameCursor LogEntry.Accepted

variable {Schema Batch : Type*} (crc32 : Bytes → UInt32) (ipc : ArrowIpc Schema Batch)

/-! ## Calls on a segment -/

/-- A call, or closing the file and opening it again. -/
inductive SegmentCall (Batch : Type*) where
  | append (op : AppendOp Batch)
  | reopen (memtableId blockMaxBytes : ℕ)

/-- The batch that a call appends, with its LSN. -/
def SegmentCall.appended : SegmentCall Batch → List (ℕ × Batch)
  | .append (.batch batch lsn) => [(lsn.toNat, batch)]
  | _ => []

namespace FramedSegmentWriter

variable (w : FramedSegmentWriter)

/-- The frame that ends a segment. -/
def footerFrame (now : ℕ) : Frame :=
  ⟨.footer, 0, w.nextBatchSequence, 0,
    SegmentFooter.encode ⟨w.batchesWritten, w.framesWritten + 1, now⟩⟩

/-- End the segment. The result is the file. -/
def finish (now : ℕ) : Result Bytes :=
  match writeFrame crc32 (w.footerFrame now) w.blockMaxBytes with
  | .error e => .error e
  | .ok bytes => .ok (w.file ++ bytes)

/-- One call. For a batch, with the LSN that it was given and the sequence number that the call
returns. -/
def call : SegmentCall Batch → Result (FramedSegmentWriter × List (WalFrameEvent Batch))
  | .append (.batch batch lsn) =>
    match w.appendBatch crc32 ipc batch lsn.toNat with
    | .error e => .error e
    | .ok (w', sequence) => .ok (w', [⟨lsn.toNat, sequence, batch⟩])
  | .append (.memtableEnd endLsn closed new) =>
    match w.appendMemtableEnd crc32 endLsn.toNat closed.toNat new.toNat with
    | .error e => .error e
    | .ok w' => .ok (w', [])
  | .reopen memtableId blockMaxBytes =>
    match resumeWithBlockMax crc32 ipc w.path w.file memtableId blockMaxBytes with
    | .error e => .error e
    | .ok w' => .ok (w', [])

/-- Calls one after the other, with the batches that were appended. -/
def calls (w : FramedSegmentWriter) :
    List (SegmentCall Batch) → Result (FramedSegmentWriter × List (WalFrameEvent Batch))
  | [] => .ok (w, [])
  | op :: ops =>
    match w.call crc32 ipc op with
    | .error e => .error e
    | .ok (w', events) =>
      match w'.calls ops with
      | .error e => .error e
      | .ok (w'', events') => .ok (w'', events ++ events')

end FramedSegmentWriter

/-- The payload of the frame that a call appends. -/
def AppendOp.payload : AppendOp Batch → Bytes
  | .batch b _ => ipc.encodeBatch b
  | .memtableEnd _ closed new => encodeMemtableEndPayload closed.toNat new.toNat

/-- Every payload is small enough for the limit of its time. -/
def PayloadsFit : ℕ → List (SegmentCall Batch) → Prop
  | _, [] => True
  | limit, .append op :: ops =>
    frameHeaderSize + (op.payload ipc).length ≤ limit ∧ PayloadsFit limit ops
  | _, .reopen _ blockMaxBytes :: ops => PayloadsFit (clampBlockMax blockMaxBytes) ops

/-! ## The file and the counters -/

/-- The file of the writer is a header and a row of frames, and the counters count them. -/
structure Holds (w : FramedSegmentWriter) (memtableId now : ℕ) (xs : List (FrameHeader × Bytes))
    (events : List (WalFrameEvent Batch)) : Prop where
  file : w.file = (newV1 memtableId now).encode ++ xs.flatMap storedBytes
  stored : ∀ x ∈ xs, Stored crc32 x
  numbered : Numbered ipc 1 xs w.nextBatchSequence events
  batches : w.batchesWritten = events.length
  frames : w.framesWritten = xs.length
  bytes : w.bytesWritten = eventBytes ipc events
  limit : w.blockMaxBytes ≤ defaultWalBlockMaxBytes

variable {crc32 ipc} {w : FramedSegmentWriter} {memtableId now : ℕ}
  {xs : List (FrameHeader × Bytes)} {events : List (WalFrameEvent Batch)}

variable (crc32) in
theorem writeFrame_of_fits (f : Frame) {limit : ℕ} (hlim : limit ≤ defaultWalBlockMaxBytes)
    (hfits : frameHeaderSize + f.payload.length ≤ limit) :
    writeFrame crc32 f limit = .ok (f.encode crc32) ∧ f.payload.length < 2 ^ 32 ∧
      f.blockLen ≤ defaultWalBlockMaxBytes := by
  have hdef : defaultWalBlockMaxBytes < 2 ^ 32 := by decide
  have hlt : f.payload.length < 2 ^ 32 := by omega
  have hblk : f.blockLen = frameHeaderSize + f.payload.length := by
    rw [Frame.blockLen, Nat.mod_eq_of_lt hlt]
  exact ⟨(writeFrame_eq crc32 f hlim).1 (by omega), hlt, by omega⟩

namespace Holds

theorem stored_append {f : Frame} (h : ∀ x ∈ xs, Stored crc32 x) (hf : f.WellFormed)
    (hlen : f.payload.length < 2 ^ 32) :
    ∀ x ∈ xs ++ [(f.header crc32, f.payload)], Stored crc32 x :=
  forall_mem_append.mpr ⟨h, forall_mem_singleton.mpr (hf.stored hlen)⟩

theorem create (path : String) (memtableId now : ℕ) {schema : Schema} {blockMaxBytes : ℕ}
    (hfits : frameHeaderSize + (ipc.encodeSchema schema).length ≤ clampBlockMax blockMaxBytes) :
    ∃ w x, createWithBlockMax crc32 ipc path none memtableId now schema blockMaxBytes = .ok w ∧
      Holds crc32 ipc w memtableId now [x] ([] : List (WalFrameEvent Batch)) ∧
      w.blockMaxBytes = clampBlockMax blockMaxBytes ∧ w.nextBatchSequence = 1 := by
  obtain ⟨hwr, hlen, hblk⟩ := writeFrame_of_fits crc32
    ((LogEntry.schema schema : LogEntry Schema Batch).frame ipc) (clampBlockMax_le blockMaxBytes)
    hfits
  have hwell : ((LogEntry.schema schema : LogEntry Schema Batch).frame ipc).WellFormed :=
    wellFormed ⟨hblk, show schemaFrameSequence + 1 < 2 ^ 64 by decide⟩
  simp only [LogEntry.frame] at hwr
  simp only [createWithBlockMax, hwr, Option.isSome_none, Bool.false_eq_true, if_false]
  refine ⟨_, _, rfl, ⟨?_, stored_append (forall_mem_nil _) hwell hlen, ?_, rfl, rfl, rfl, ?_⟩,
    rfl, rfl⟩
  · rw [flatMap_singleton]
    rfl
  · exact .schema rfl rfl rfl (ipc.decodeSchema_encodeSchema schema) (.nil 1)
  · exact clampBlockMax_le blockMaxBytes

variable (h : Holds crc32 ipc w memtableId now xs events)

include h

/-- The scan finds what the writer has in memory. -/
theorem scan (path : String) : scanSegmentTail crc32 ipc path w.file =
      .ok ⟨w.batchesWritten, w.nextBatchSequence, w.bytesWritten, w.framesWritten, false⟩ := by
  obtain ⟨_, hfr, hits⟩ := segmentFrames_stored crc32 h.stored []
  have hnil : segmentFrames crc32 [] = ([], some .eof) := rfl
  rw [hnil, append_nil, append_nil] at hits
  have hscan := scanFrames_numbered [] path .start h.numbered hfr
  rw [append_nil] at hscan
  rw [scanSegmentTail, h.file, decode_encode_newV1]
  simp only [hits]
  rw [hscan, h.batches, h.bytes, h.frames]
  simp only [scanFrames, SegmentTailState.start, Nat.zero_add]

/-- Reopening gives a writer for the same file. -/
theorem reopen (path : String) (id max : ℕ) :
    ∃ w', resumeWithBlockMax crc32 ipc path w.file id max = .ok w' ∧
      Holds crc32 ipc w' memtableId now xs events ∧ w'.blockMaxBytes = clampBlockMax max ∧
      w'.nextBatchSequence = w.nextBatchSequence := by
  rw [resumeWithBlockMax, h.scan]
  refine ⟨_, rfl, ⟨h.file, h.stored, h.numbered, h.batches, h.frames, h.bytes, ?_⟩, rfl, rfl⟩
  exact clampBlockMax_le max

theorem file_append (f : Frame) :
    w.file ++ f.encode crc32 = (newV1 memtableId now).encode ++
      (xs ++ [(f.header crc32, f.payload)]).flatMap storedBytes := by
  rw [h.file, append_assoc, flatMap_append, flatMap_singleton]
  rfl

theorem appendBatch {b : Batch} (lsn : UInt64)
    (hfits : frameHeaderSize + (ipc.encodeBatch b).length ≤ w.blockMaxBytes)
    (hlt : w.nextBatchSequence + 1 < 2 ^ 64) :
    ∃ w' x, w.appendBatch crc32 ipc b lsn.toNat = .ok (w', w.nextBatchSequence) ∧
      Holds crc32 ipc w' memtableId now (xs ++ [x])
        (events ++ [⟨lsn.toNat, w.nextBatchSequence, b⟩]) ∧
      w'.blockMaxBytes = w.blockMaxBytes ∧ w'.nextBatchSequence = w.nextBatchSequence + 1 := by
  obtain ⟨hwr, hlen, hblk⟩ := writeFrame_of_fits crc32
    ((LogEntry.batch w.nextBatchSequence lsn b : LogEntry Schema Batch).frame ipc) h.limit hfits
  have hwell : ((LogEntry.batch w.nextBatchSequence lsn b : LogEntry Schema Batch).frame
      ipc).WellFormed := wellFormed ⟨hblk, hlt⟩
  simp only [LogEntry.frame] at hwr
  simp only [FramedSegmentWriter.appendBatch, hwr]
  refine ⟨_, _, rfl, ⟨h.file_append _, stored_append h.stored hwell hlen, ?_, ?_, ?_, ?_, h.limit⟩,
    rfl, rfl⟩
  · exact h.numbered.append (.batch rfl rfl rfl (ipc.decodeBatch_encodeBatch b) (.nil _))
  · rw [length_append, h.batches, length_singleton]
  · rw [length_append, h.frames, length_singleton]
  · rw [h.bytes, eventBytes, eventBytes, map_append, sum_append, map_singleton, sum_singleton]

theorem appendMemtableEnd (endLsn closed new : UInt64)
    (hfits : frameHeaderSize + (encodeMemtableEndPayload closed.toNat new.toNat).length ≤
      w.blockMaxBytes)
    (hlt : w.nextBatchSequence + 1 < 2 ^ 64) :
    ∃ w' x, w.appendMemtableEnd crc32 endLsn.toNat closed.toNat new.toNat = .ok w' ∧
      Holds crc32 ipc w' memtableId now (xs ++ [x]) events ∧
      w'.blockMaxBytes = w.blockMaxBytes ∧ w'.nextBatchSequence = w.nextBatchSequence + 1 := by
  obtain ⟨hwr, hlen, hblk⟩ := writeFrame_of_fits crc32
    ((LogEntry.memtableEnd w.nextBatchSequence endLsn closed new : LogEntry Schema Batch).frame ipc)
    h.limit hfits
  have hwell : ((LogEntry.memtableEnd w.nextBatchSequence endLsn closed new :
      LogEntry Schema Batch).frame ipc).WellFormed := wellFormed ⟨hblk, hlt⟩
  simp only [LogEntry.frame] at hwr
  simp only [FramedSegmentWriter.appendMemtableEnd, hwr]
  refine ⟨_, _, rfl, ⟨h.file_append _, stored_append h.stored hwell hlen, ?_, h.batches, ?_,
    h.bytes, h.limit⟩, rfl, rfl⟩
  · rw [← append_nil events]
    exact h.numbered.append (.skipped trivial rfl hlt (.nil _))
  · rw [length_append, h.frames, length_singleton]

theorem call (op : SegmentCall Batch)
    (hfits : PayloadsFit ipc w.blockMaxBytes [op]) (hlt : w.nextBatchSequence + 1 < 2 ^ 64) :
    ∃ w' xs' new, w.call crc32 ipc op = .ok (w', new) ∧
      new.map (fun e ↦ (e.lsn, e.batch)) = op.appended ∧
      Holds crc32 ipc w' memtableId now xs' (events ++ new) ∧
      w'.nextBatchSequence ≤ w.nextBatchSequence + 1 ∧
      ∀ ops, PayloadsFit ipc w.blockMaxBytes (op :: ops) →
        PayloadsFit ipc w'.blockMaxBytes ops := by
  match op with
  | .append (.batch b lsn) =>
    obtain ⟨w', x, happ, hhold, hmax, hnext⟩ := h.appendBatch lsn hfits.1 hlt
    refine ⟨w', _, _, ?_, rfl, hhold, hnext.le, fun ops hops ↦ hmax ▸ hops.2⟩
    simp only [FramedSegmentWriter.call, happ]
  | .append (.memtableEnd endLsn closed new) =>
    obtain ⟨w', _, happ, hhold, hmax, hnext⟩ := h.appendMemtableEnd endLsn closed new hfits.1 hlt
    refine ⟨w', _, [], ?_, rfl, (append_nil events).symm ▸ hhold, hnext.le,
      fun ops hops ↦ hmax ▸ hops.2⟩
    simp only [FramedSegmentWriter.call, happ]
  | .reopen id max =>
    obtain ⟨w', hres, hhold, hmax, hnext⟩ := h.reopen w.path id max
    refine ⟨w', xs, [], ?_, rfl, (append_nil events).symm ▸ hhold, hnext.le.trans (Nat.le_succ _),
      fun ops hops ↦ hmax ▸ hops⟩
    simp only [FramedSegmentWriter.call, hres]

theorem calls (ops : List (SegmentCall Batch)) (hfits : PayloadsFit ipc w.blockMaxBytes ops)
    (hlt : w.nextBatchSequence + ops.length < 2 ^ 64) :
    ∃ w' xs' new, w.calls crc32 ipc ops = .ok (w', new) ∧
      new.map (fun e ↦ (e.lsn, e.batch)) = ops.flatMap SegmentCall.appended ∧
      Holds crc32 ipc w' memtableId now xs' (events ++ new) ∧
      w'.nextBatchSequence ≤ w.nextBatchSequence + ops.length := by
  induction ops generalizing w xs events with
  | nil => exact ⟨w, xs, [], rfl, rfl, (append_nil events).symm ▸ h, le_rfl⟩
  | cons op ops ih =>
    rw [length_cons] at hlt
    have hfst : PayloadsFit ipc w.blockMaxBytes [op] := by
      cases op with
      | append => exact ⟨hfits.1, trivial⟩
      | reopen => trivial
    obtain ⟨_, _, new, hcall, hnew, hhold, _, hrest⟩ := h.call op hfst (by omega)
    obtain ⟨w'', xs'', new', hcalls, hnew', hhold', _⟩ := ih hhold (hrest ops hfits) (by omega)
    refine ⟨w'', xs'', new ++ new', ?_, ?_, append_assoc .. ▸ hhold', ?_⟩
    · simp only [calls, hcall, hcalls]
    · rw [map_append, hnew, hnew', flatMap_cons]
    · rw [length_cons]
      omega

end Holds

/-! ## The readers of a closed segment -/

section

variable {footer : FrameHeader × Bytes}

theorem segmentFrames_closed (hstored : ∀ x ∈ xs ++ [footer], Stored crc32 x) :
    ∃ frames last, frames.map Prod.fst = xs ∧ last.1 = footer ∧
      segmentFrames crc32 ((xs ++ [footer]).flatMap storedBytes) =
        (frames ++ [last], some .eof) := by
  obtain ⟨_, hall, hits⟩ := segmentFrames_stored crc32 hstored []
  have hnil : segmentFrames crc32 [] = ([], some .eof) := rfl
  rw [hnil, append_nil, append_nil] at hits
  obtain ⟨frames, _, rfl, hfr, htail⟩ := map_eq_append_iff.mp hall
  obtain ⟨last, rfl, hlast⟩ := map_eq_singleton_iff.mp htail
  exact ⟨frames, last, hfr, hlast, hits⟩

variable {behind : ℕ} (hstored : ∀ x ∈ xs ++ [footer], Stored crc32 x)
  (hnumbered : Numbered ipc 1 xs behind events) (htype : footer.1.recordType = .footer)

include hstored hnumbered htype

theorem readSegmentBatches_closed (hlen : footer.2.length = 24) (path : String)
    (memtableId now : ℕ) (allowPartial : Bool) :
    readSegmentBatches crc32 ipc path
        (some (closedFile (newV1 memtableId now).encode xs footer))
        allowPartial = .ok (events.map WalFrameEvent.batch) := by
  obtain ⟨_, last, hfr, rfl, hits⟩ := segmentFrames_closed hstored
  have hrep := replayFrames_numbered [last] path allowPartial (some .eof) [] hnumbered hfr
  obtain ⟨⟨h, payload⟩, _⟩ := last
  have hdec : ∃ f, SegmentFooter.decode payload = .ok f := by
    rw [SegmentFooter.decode, if_neg (not_not.mpr hlen)]
    exact ⟨_, rfl⟩
  obtain ⟨_, hdec⟩ := hdec
  change h.recordType = .footer at htype
  simp only [readSegmentBatches, closedFile, decode_encode_newV1,
    hits, hrep, replayFrames, htype, hdec, nil_append]
  exact if_neg fun h ↦ by cases h.2

/-- The cursor returns the batches with their LSNs and numbers. -/
theorem polls_closed (memtableId now mid : ℕ) :
    ∃ c₀ c : WalFrameCursor Schema,
      openFile (some (closedFile
        (newV1 memtableId now).encode xs footer)) mid = .ok (some c₀) ∧
      Polls crc32 ipc (closedFile
        (newV1 memtableId now).encode xs footer) c₀ events c ∧
      c.finished = true := by
  obtain ⟨_, last, hfr, rfl, hits⟩ := segmentFrames_closed hstored
  have hdrop : (closedFile (newV1 memtableId now).encode xs
      last.1).drop segmentHeaderSize = (xs ++ [last.1]).flatMap storedBytes :=
    drop_left' (length_encode _)
  rw [← hdrop] at hits
  obtain ⟨c, -, hopen, hrest, hpoll⟩ := polls_numbered hnumbered hfr
    (c := ⟨mid, none, segmentHeaderSize, false⟩) rfl (congrArg Prod.fst hits)
  have hfoot := hpoll [] _ (polls_footer hopen htype hrest)
  rw [append_nil] at hfoot
  exact ⟨_, _, openFile_eq memtableId now mid _, hfoot, rfl⟩

end

/-! ## The round trip -/

theorem Holds.footerFrame_wellFormed (hlt : w.nextBatchSequence < 2 ^ 64) (closedAt : ℕ) :
    (w.footerFrame closedAt).payload.length = 24 ∧ (w.footerFrame closedAt).WellFormed := by
  have hlen : (w.footerFrame closedAt).payload.length = 24 := by
    simp [footerFrame, SegmentFooter.encode]
  refine ⟨hlen, rfl, show 3 < 2 ^ 16 by decide, Nat.two_pow_pos 16, ?_, hlt, Nat.two_pow_pos 64⟩
  rw [Frame.blockLen, hlen]
  decide

/-- What `finish` writes is a footer behind the row. -/
theorem finish_closes (hfile : w.file = (newV1 memtableId now).encode ++ xs.flatMap storedBytes)
    (hstored : ∀ x ∈ xs, Stored crc32 x) (hlim : w.blockMaxBytes ≤ defaultWalBlockMaxBytes)
    (hlt : w.nextBatchSequence < 2 ^ 64) {closedAt : ℕ} {file : Bytes}
    (hfin : w.finish crc32 closedAt = .ok file) :
    ∃ footer, file = closedFile (newV1 memtableId now).encode xs
        footer ∧ (∀ x ∈ xs ++ [footer], Stored crc32 x) ∧ footer.1.recordType = .footer ∧
      footer.2.length = 24 := by
  obtain ⟨hlen, hwell⟩ := Holds.footerFrame_wellFormed hlt closedAt
  refine ⟨((w.footerFrame closedAt).header crc32, (w.footerFrame closedAt).payload), ?_,
    Holds.stored_append hstored hwell (hlen.trans_lt (by decide)), rfl, hlen⟩
  have hwr := writeFrame_eq crc32 (w.footerFrame closedAt) hlim
  rw [finish] at hfin
  by_cases hblk : (w.footerFrame closedAt).blockLen ≤ w.blockMaxBytes
  · rw [hwr.1 hblk] at hfin
    rw [← Except.ok.inj hfin, hfile, closedFile, append_assoc, flatMap_append, flatMap_singleton]
    rfl
  · obtain ⟨_, he⟩ := hwr.2 hblk
    rw [he] at hfin
    cases hfin

variable (crc32 ipc) in
/-- A segment is created and the calls go through; then the scan returns the counters of the writer,
and if the footer fits as well, the readers return from the finished file what was appended. -/
def RoundTrips (path : String) (memtableId now : ℕ) (schema : Schema) (blockMaxBytes : ℕ)
    (ops : List (SegmentCall Batch)) (closedAt mid : ℕ) : Prop :=
  ∃ w₀ w events tail,
    createWithBlockMax crc32 ipc path none memtableId now schema blockMaxBytes = .ok w₀ ∧
    w₀.calls crc32 ipc ops = .ok (w, events) ∧
    events.map (fun e ↦ (e.lsn, e.batch)) = ops.flatMap SegmentCall.appended ∧
    scanSegmentTail crc32 ipc path w.file = .ok tail ∧
    tail.batchesWritten = w.batchesWritten ∧ tail.framesWritten = w.framesWritten ∧
    tail.nextBatchSequence = w.nextBatchSequence ∧
    (frameHeaderSize + 24 ≤ w.blockMaxBytes → ∃ file, w.finish crc32 closedAt = .ok file ∧
      readSegmentBatches crc32 ipc path (some file) false = .ok (events.map WalFrameEvent.batch) ∧
      ∃ c₀ c : WalFrameCursor Schema, openFile (some file) mid = .ok (some c₀) ∧
        Polls crc32 ipc file c₀ events c ∧ c.finished = true)

variable (crc32) in
/-- **Every reader returns what was appended**, whatever the mixture of batches, memtable ends and
reopenings was. -/
theorem segment_round_trip (path : String) (memtableId now : ℕ) (schema : Schema)
    (blockMaxBytes : ℕ) (ops : List (SegmentCall Batch)) (closedAt mid : ℕ)
    (hschema : frameHeaderSize + (ipc.encodeSchema schema).length ≤ clampBlockMax blockMaxBytes)
    (hfits : PayloadsFit ipc (clampBlockMax blockMaxBytes) ops) (hcount : ops.length + 1 < 2 ^ 64) :
    RoundTrips crc32 ipc path memtableId now schema blockMaxBytes ops closedAt mid := by
  obtain ⟨w₀, _, hcre, hhold, hmax, _⟩ := Holds.create path memtableId now hschema
  rw [← hmax] at hfits
  obtain ⟨w, _, events, hcalls, hevents, hhold', _⟩ := hhold.calls ops hfits (by omega)
  rw [nil_append] at hhold'
  refine ⟨w₀, w, events, _, hcre, hcalls, hevents, hhold'.scan path, rfl, rfl, rfl, fun hfoot ↦ ?_⟩
  have hlt : w.nextBatchSequence < 2 ^ 64 := by omega
  have hwr := (writeFrame_of_fits crc32 (w.footerFrame closedAt) hhold'.limit
    ((Holds.footerFrame_wellFormed hlt closedAt).1 ▸ hfoot)).1
  have hfin : w.finish crc32 closedAt = .ok (w.file ++ (w.footerFrame closedAt).encode crc32) := by
    rw [finish, hwr]
  obtain ⟨_, hfile, hstored, htype, hlen⟩ :=
    finish_closes hhold'.file hhold'.stored hhold'.limit hlt hfin
  rw [hfile] at hfin
  exact ⟨_, hfin, readSegmentBatches_closed hstored hhold'.numbered htype hlen path
    memtableId now false, polls_closed hstored hhold'.numbered htype memtableId now mid⟩

/-- A marker, and a reopening with another limit. -/
theorem sample_round_trip : RoundTrips lengthCrc byteIpc "1.wal" 7 0 () 200
    [.append (.batch 10 5), .append (.memtableEnd 5 7 8), .reopen 8 64, .append (.batch 11 6)]
    0 8 :=
  segment_round_trip lengthCrc "1.wal" 7 0 () 200 _ 0 8 (by decide)
    ⟨by decide, by decide, by decide, trivial⟩ (by decide)

end MonoTS
