import MonoTS.Wal.RoundTrip

/-!
# Frames of another version

A frame whose record type is not known, or in whose flags an unknown bit is set, is stepped over by
every reader. It has a number like any other frame, so stepping over it means to count it. Here
batch frames of a segment are turned into such frames (`Mask`), any of them and next to each other:
the row stays numbered, only with fewer batches in it, and the readers of the segment, a writer that
continues it, and the readers of what it writes take it from there.
-/

open List

namespace MonoTS

open LoggedFile
open LittleEndian ByteStream FramedSegmentWriter SegmentHeader WalFrameCursor WalFrameEvent

variable {Schema Batch : Type*} (crc32 : Bytes → UInt32) (ipc : ArrowIpc Schema Batch)

/-! ## Masked frames -/

/-- What is put in the place of the record type and of the flags. -/
structure Mask where
  rawType : UInt16
  flags : UInt32

/-- The record type is not known, or an unknown flag is set. -/
def Mask.Unknown (m : Mask) : Prop :=
  RecordType.fromU16 m.rawType.toNat = .unknown m.rawType.toNat ∨
    unknownBits m.flags.toNat frameKnownFlags ≠ 0

instance : DecidablePred Mask.Unknown := fun m ↦
  inferInstanceAs (Decidable (RecordType.fromU16 m.rawType.toNat = .unknown m.rawType.toNat ∨
    unknownBits m.flags.toNat frameKnownFlags ≠ 0))

def Mask.apply (m : Mask) (h : FrameHeader) : FrameHeader :=
  { h with recordType := .unknown m.rawType.toNat, flags := m.flags.toNat }

/-- An entry of a segment, and what is done to its frame if it is a batch. -/
structure MaskedEntry (Schema Batch : Type*) where
  entry : LogEntry Schema Batch
  mask : Option Mask

namespace MaskedEntry

def stored (x : MaskedEntry Schema Batch) : FrameHeader × Bytes :=
  match x.entry, x.mask with
  | .batch .., some m => (m.apply (x.entry.stored crc32 ipc).1, (x.entry.stored crc32 ipc).2)
  | .batch .., none | .schema _, _ | .memtableEnd .., _ => x.entry.stored crc32 ipc

/-- The batch of an entry that was left alone. -/
def event? (x : MaskedEntry Schema Batch) : Option (WalFrameEvent Batch) :=
  match x.mask with
  | none => x.entry.event?
  | some _ => none

variable {crc32 ipc} {x : MaskedEntry Schema Batch}

theorem unknown_recordType {m : Mask} (hm : m.Unknown) (h : FrameHeader) :
    (if unknownBits (m.apply h).flags frameKnownFlags ≠ 0 then
        .unknown (m.apply h).recordType.asU16
      else RecordType.fromU16 (m.apply h).recordType.asU16) = (m.apply h).recordType := by
  change (if unknownBits m.flags.toNat frameKnownFlags ≠ 0 then .unknown m.rawType.toNat
    else RecordType.fromU16 m.rawType.toNat) = .unknown m.rawType.toNat
  split_ifs with hflags
  · rfl
  · exact hm.resolve_right hflags

theorem widths_apply (m : Mask) {h : FrameHeader} (hw : h.Widths) : (m.apply h).Widths where
  __ := hw
  asU16_lt := m.rawType.toNat_lt
  flags_lt := m.flags.toNat_lt

variable (crc32) in
/-- Masked or not, the header has the length and the CRC of the frame. -/
theorem stored_spec (hacc : x.entry.Accepted ipc) :
    (x.stored crc32 ipc).1.Widths ∧ (x.stored crc32 ipc).2 = (x.entry.frame ipc).payload ∧
      (x.stored crc32 ipc).1.bodyLen = (x.entry.frame ipc).payload.length % 2 ^ 32 ∧
      (x.stored crc32 ipc).1.crc32 = (crc32 (x.entry.frame ipc).payload).toNat := by
  have hwid : (x.entry.stored crc32 ipc).1.Widths := (hacc.wellFormed.inRange_header crc32).toWidths
  have hbody := Frame.bodyLen_header crc32 (x.entry.frame ipc)
  obtain ⟨entry, mask⟩ := x
  cases entry with
  | schema | memtableEnd => exact ⟨hwid, rfl, hbody, rfl⟩
  | batch =>
    cases mask with
    | none => exact ⟨hwid, rfl, hbody, rfl⟩
    | some m => exact ⟨widths_apply m hwid, rfl, hbody, rfl⟩

theorem stored_of_readable (hacc : x.entry.Accepted ipc) (hread : x.entry.Readable ipc)
    (hmask : ∀ m ∈ x.mask, m.Unknown) : Stored crc32 (x.stored crc32 ipc) := by
  have hpl : Stored crc32 (x.entry.stored crc32 ipc) := hacc.wellFormed.stored hread
  obtain ⟨hwid, _, hbody, hcrc⟩ := stored_spec crc32 hacc
  obtain ⟨entry, mask⟩ := x
  cases entry with
  | schema | memtableEnd => exact hpl
  | batch =>
    cases mask with
    | none => exact hpl
    | some m =>
      exact stored_of_widths hwid (unknown_recordType (hmask m rfl) _)
        (hbody.trans (Nat.mod_eq_of_lt hread)) hcrc

/-- The row is numbered as before, and has the batches that were left alone. -/
theorem numbered {xs : List (MaskedEntry Schema Batch)} {next : ℕ}
    (hacc : ∀ x ∈ xs, x.entry.Accepted ipc) (hseq : Sequenced next (xs.map entry)) :
    Numbered ipc next (xs.map (stored crc32 ipc)) (nextSequence next (xs.map entry))
      (xs.filterMap event?) := by
  induction xs generalizing next with
  | nil => exact .nil next
  | cons x xs ih =>
    obtain ⟨hx, hxs⟩ := forall_mem_cons.mp hacc
    obtain ⟨entry, mask⟩ := x
    cases entry with
    | schema s =>
      have hnone : event? (⟨.schema s, mask⟩ : MaskedEntry Schema Batch) = none := by
        cases mask <;> rfl
      rw [filterMap_cons_none hnone]
      exact .schema rfl rfl rfl (ipc.decodeSchema_encodeSchema s) (ih hxs hseq)
    | memtableEnd sequence endLsn closed new =>
      have hnone : event? (⟨.memtableEnd sequence endLsn closed new, mask⟩ :
          MaskedEntry Schema Batch) = none := by
        cases mask <;> rfl
      obtain ⟨rfl, hseq⟩ := hseq
      rw [filterMap_cons_none hnone]
      exact .skipped trivial rfl hx.sequence_lt (ih hxs hseq)
    | batch sequence lsn b =>
      obtain ⟨rfl, hseq⟩ := hseq
      cases mask with
      | none => exact .batch rfl rfl rfl (ipc.decodeBatch_encodeBatch b) (ih hxs hseq)
      | some m => exact .skipped trivial rfl hx.sequence_lt (ih hxs hseq)

end MaskedEntry

/-! ## What the readers return -/

/-- A reader that accepts partial files, and the cursor, return these batches. -/
structure Reads (path : String) (file : Bytes) (events : List (WalFrameEvent Batch)) : Prop where
  replay : readSegmentBatches crc32 ipc path (some file) true =
    .ok (events.map batch)
  polls : ∀ mid, ∃ c₀ c : WalFrameCursor Schema,
    openFile (some file) mid = .ok (some c₀) ∧
    Polls crc32 ipc file c₀ events c

section

variable {crc32 ipc} {memtableId now behind : ℕ} {xs : List (FrameHeader × Bytes)}
  {events : List (WalFrameEvent Batch)}

theorem reads_open (hst : ∀ x ∈ xs, Stored crc32 x)
    (hnum : Numbered ipc 1 xs behind events) (path : String) :
    Reads crc32 ipc path ((newV1 memtableId now).encode ++ xs.flatMap storedBytes)
      events := by
  obtain ⟨_, hfr, hits⟩ := segmentFrames_stored crc32 hst []
  have hnil : segmentFrames crc32 [] = ([], some .eof) := rfl
  rw [hnil, append_nil, append_nil] at hits
  constructor
  · have hrep := replayFrames_numbered [] path true (some .eof) [] hnum hfr
    rw [append_nil] at hrep
    simp only [readSegmentBatches, decode_encode_newV1, hits, hrep, replayFrames,
      replayEnd, nil_append]
    rfl
  · intro mid
    have hdrop : ((newV1 memtableId now).encode ++ xs.flatMap storedBytes).drop
        segmentHeaderSize = xs.flatMap storedBytes :=
      drop_left' (length_encode _)
    rw [← hdrop] at hits
    obtain ⟨c, -, hopen, hrest, hpoll⟩ := polls_numbered hnum hfr
      (c := ⟨mid, none, segmentHeaderSize, false⟩) rfl
      ((congrArg Prod.fst hits).trans (append_nil _).symm)
    have hend := hpoll [] c (polls_nil hopen hrest)
    rw [append_nil] at hend
    exact ⟨_, c, openFile_eq memtableId now mid _, hend⟩

/-- A row with a footer, for which a strict reader does not complain either. -/
theorem reads_closed {footer : FrameHeader × Bytes} (hst : ∀ x ∈ xs ++ [footer], Stored crc32 x)
    (hnum : Numbered ipc 1 xs behind events) (htype : footer.1.recordType = .footer)
    (hlen : footer.2.length = 24) (path : String) :
    Reads crc32 ipc path (closedFile (newV1 memtableId now).encode xs footer) events ∧
      readSegmentBatches crc32 ipc path
        (some (closedFile (newV1 memtableId now).encode xs footer)) false =
          .ok (events.map batch) := by
  have hread := readSegmentBatches_closed hst hnum htype hlen path memtableId now
  refine ⟨⟨hread true, fun mid ↦ ?_⟩, hread false⟩
  obtain ⟨c₀, c, hopen, hpoll, -⟩ := polls_closed hst hnum htype memtableId now mid
  exact ⟨c₀, c, hopen, hpoll⟩

end

/-! ## A segment with unknown frames -/

/-- A segment of which frames were masked, and what a writer that continues it is asked to do. -/
structure UnknownSegment (Schema Batch : Type*) where
  path : String
  memtableId : ℕ
  now : ℕ
  entries : List (MaskedEntry Schema Batch)
  /-- The footer, if the segment was finished before. -/
  footer : UInt64 × SegmentFooter
  resumeMemtableId : ℕ
  blockMaxBytes : ℕ
  after : List (AppendOp Batch)

namespace UnknownSegment

variable (s : UnknownSegment Schema Batch)

def row : List (FrameHeader × Bytes) := s.entries.map (MaskedEntry.stored crc32 ipc)

/-- The file without the footer. -/
def openBytes : Bytes :=
  (newV1 s.memtableId s.now).encode ++ (s.row crc32 ipc).flatMap storedBytes

/-- The file with the footer. -/
def closedBytes : Bytes :=
  closedFile (newV1 s.memtableId s.now).encode (s.row crc32 ipc)
    ((footerFrame s.footer).header crc32, (footerFrame s.footer).payload)

/-- The batches that were left alone. -/
def events : List (WalFrameEvent Batch) := s.entries.filterMap MaskedEntry.event?

def log : List (LogEntry Schema Batch) := s.entries.map MaskedEntry.entry

/-- What is appended afterwards. -/
def appended : List (LogEntry Schema Batch) :=
  appendedLog ipc (clampBlockMax s.blockMaxBytes) (nextSequence 1 s.log) s.after

/-- The entries are those of a writer, and the masks are unknown ones. -/
structure Valid : Prop where
  accepted : ∀ x ∈ s.entries, x.entry.Accepted ipc
  sequenced : Sequenced 1 s.log
  unknown : ∀ x ∈ s.entries, ∀ m ∈ x.mask, m.Unknown
  counter_lt : s.entries.length + s.after.length + 1 < 2 ^ 64

/-- Unknown frames are skipped: by the readers of the finished segment and of the unfinished one,
and, together with what it appends, behind a writer that continues it. -/
structure SkipsUnknown : Prop where
  closed : Reads crc32 ipc s.path (s.closedBytes crc32 ipc) s.events
  strict : readSegmentBatches crc32 ipc s.path (some (s.closedBytes crc32 ipc)) false =
    .ok (s.events.map batch)
  opened : Reads crc32 ipc s.path (s.openBytes crc32 ipc) s.events
  resumed : ∃ w, resumeWithBlockMax crc32 ipc s.path (s.openBytes crc32 ipc) s.resumeMemtableId
      s.blockMaxBytes = .ok w ∧
    Reads crc32 ipc s.path (w.applyAll crc32 ipc s.after).file
      (s.events ++ logEvents (s.appended ipc)) ∧
    ∀ closedAt file, (w.applyAll crc32 ipc s.after).finish crc32 closedAt = .ok file →
      Reads crc32 ipc s.path file (s.events ++ logEvents (s.appended ipc)) ∧
      readSegmentBatches crc32 ipc s.path (some file) false =
        .ok ((s.events ++ logEvents (s.appended ipc)).map batch)

variable {crc32 ipc s}

theorem Valid.numbered (hs : s.Valid ipc) :
    Numbered ipc 1 (s.row crc32 ipc) (nextSequence 1 s.log) s.events :=
  MaskedEntry.numbered hs.accepted hs.sequenced

theorem Valid.stored (hs : s.Valid ipc) (hread : ∀ x ∈ s.entries, x.entry.Readable ipc) :
    ∀ x ∈ s.row crc32 ipc, Stored crc32 x :=
  forall_mem_map.mpr fun x hx ↦
    MaskedEntry.stored_of_readable (hs.accepted x hx) (hread x hx) (hs.unknown x hx)

variable (crc32) in
/-- A writer that continues the segment. -/
theorem Valid.resume (hs : s.Valid ipc) (hread : ∀ x ∈ s.entries, x.entry.Readable ipc) :
    ∃ w, resumeWithBlockMax crc32 ipc s.path (s.openBytes crc32 ipc) s.resumeMemtableId
        s.blockMaxBytes = .ok w ∧ w.file = s.openBytes crc32 ipc ∧
      w.blockMaxBytes = clampBlockMax s.blockMaxBytes ∧
      w.nextBatchSequence = nextSequence 1 s.log := by
  have hhold : Holds crc32 ipc
      { path := s.path
        memtableId := s.memtableId
        file := s.openBytes crc32 ipc
        batchesWritten := s.events.length
        framesWritten := (s.row crc32 ipc).length
        bytesWritten := eventBytes ipc s.events
        nextBatchSequence := nextSequence 1 s.log
        blockMaxBytes := defaultWalBlockMaxBytes }
      s.memtableId s.now (s.row crc32 ipc) s.events :=
    ⟨rfl, hs.stored hread, hs.numbered, rfl, rfl, rfl, le_rfl⟩
  obtain ⟨w, hres, hw, hmax, hnext⟩ := hhold.reopen s.path s.resumeMemtableId s.blockMaxBytes
  exact ⟨w, hres, hw.file, hmax, hnext⟩

theorem Valid.next_add_lt (hs : s.Valid ipc) : nextSequence 1 s.log + s.after.length < 2 ^ 64 := by
  have hctr := hs.counter_lt
  have hnext := nextSequence_le 1 s.log
  rw [log, length_map] at hnext
  rw [log]
  omega

theorem Valid.appended_accepted (hs : s.Valid ipc) : ∀ e ∈ s.appended ipc, e.Accepted ipc :=
  appendedLog_accepted (clampBlockMax_le _) hs.next_add_lt

theorem Valid.numbered_append (hs : s.Valid ipc) :
    Numbered ipc 1 (s.row crc32 ipc ++ (s.appended ipc).map (LogEntry.stored crc32 ipc))
      (nextSequence (nextSequence 1 s.log) (s.appended ipc))
      (s.events ++ logEvents (s.appended ipc)) :=
  hs.numbered.append (numbered_log crc32 hs.appended_accepted (appendedLog_sequenced _ _ _))

theorem applyAll_resumed {w : FramedSegmentWriter} (hfile : w.file = s.openBytes crc32 ipc)
    (hmax : w.blockMaxBytes = clampBlockMax s.blockMaxBytes)
    (hnext : w.nextBatchSequence = nextSequence 1 s.log) :
    (w.applyAll crc32 ipc s.after).file = (newV1 s.memtableId s.now).encode ++
      (s.row crc32 ipc ++ (s.appended ipc).map (LogEntry.stored crc32 ipc)).flatMap
        storedBytes := by
  rw [applyAll_file w (hmax ▸ clampBlockMax_le _), hfile, hmax, hnext, openBytes, append_assoc,
    flatMap_append, flatMap_map]
  rfl

theorem skipsUnknown_of_readable (hs : s.Valid ipc) (hread : ∀ x ∈ s.entries, x.entry.Readable ipc)
    (haft : ∀ e ∈ s.appended ipc, e.Readable ipc) (crc32 : Bytes → UInt32) :
    s.SkipsUnknown crc32 ipc := by
  have hfoot := wellFormed_footerFrame s.footer
  have hclose : Reads crc32 ipc s.path (s.closedBytes crc32 ipc) s.events ∧ _ :=
    reads_closed (Holds.stored_append (hs.stored hread) hfoot.1 hfoot.2) hs.numbered rfl
      (by simp [LoggedFile.footerFrame, SegmentFooter.encode]) s.path
  obtain ⟨w, hres, hfile, hmax, hnext⟩ := hs.resume crc32 hread
  have hlim : w.blockMaxBytes ≤ defaultWalBlockMaxBytes := hmax ▸ clampBlockMax_le _
  have hall := applyAll_resumed hfile hmax hnext
  have hst : ∀ x ∈ s.row crc32 ipc ++ (s.appended ipc).map (LogEntry.stored crc32 ipc),
      Stored crc32 x :=
    forall_mem_append.mpr ⟨hs.stored hread, forall_mem_map.mpr fun e he ↦
      (hs.appended_accepted e he).wellFormed.stored (haft e he)⟩
  refine ⟨hclose.1, hclose.2, reads_open (hs.stored hread) hs.numbered s.path,
    w, hres, ?_, fun closedAt file hfin ↦ ?_⟩
  · rw [hall]
    exact reads_open hst hs.numbered_append s.path
  · obtain ⟨hlim', _⟩ := applyAll_counters crc32 ipc w hlim s.after
    have hlt := hs.next_add_lt
    obtain ⟨_, rfl, hst', htype, hlen⟩ :=
      finish_closes hall hst (hlim'.trans_le hlim) (by omega) hfin
    exact reads_closed hst' hs.numbered_append htype hlen s.path

/-! ### Unreadable frames -/

/-- Where the first frame is that announces too short a body, a reader finds what is before it. -/
theorem segmentFrames_long (P : Bytes) {xs : List (FrameHeader × Bytes)}
    (hst : ∀ x ∈ xs, Stored (markCrc P) x) {tail : Bytes}
    (hstop : readFrame (markCrc P) tail = .stop .crcMismatch) :
    ∃ frames : List ((FrameHeader × Bytes) × Bytes), frames.map Prod.fst = xs ∧
      segmentFrames (markCrc P) (xs.flatMap storedBytes ++ tail) =
        (frames, some .crcMismatch) := by
  obtain ⟨frames, hfr, hits⟩ := segmentFrames_stored (markCrc P) hst tail
  have htail : segmentFrames (markCrc P) tail = ([], some .crcMismatch) := items_of_stop hstop
  rw [htail, append_nil] at hits
  exact ⟨frames, hfr, hits⟩

/-- A strict reader complains about such a frame. -/
theorem entries_readable_of_skips (hs : s.Valid ipc) (h : s.SkipsUnknown (markCrc []) ipc) :
    ∀ x ∈ s.entries, x.entry.Readable ipc := by
  by_contra hread
  obtain ⟨pre, x, post, hent, hpre, hx⟩ := exists_first_not hread
  have hacc := hs.accepted
  have hunk := hs.unknown
  have hseq := hs.sequenced
  rw [hent, forall_mem_append, forall_mem_cons] at hacc hunk
  rw [log, hent, map_append, sequenced_append] at hseq
  have hst : ∀ y ∈ pre.map (MaskedEntry.stored (markCrc []) ipc), Stored (markCrc []) y :=
    forall_mem_map.mpr fun y hy ↦
      MaskedEntry.stored_of_readable (hacc.1 y hy) (hpre y hy) (hunk.1 y hy)
  obtain ⟨hwid, hpay, hbody, hcrc⟩ := MaskedEntry.stored_spec (markCrc []) hacc.2.1
  rw [← hpay] at hbody hcrc
  have hlong : 2 ^ 32 ≤ (x.stored (markCrc []) ipc).2.length := by
    rw [hpay]
    exact Nat.not_lt.mp hx
  obtain ⟨_, hfr, hits⟩ := segmentFrames_long [] hst
    (readFrame_long [] hwid hlong hbody hcrc ((post.map (MaskedEntry.stored (markCrc []) ipc) ++
      [((footerFrame s.footer).header (markCrc []),
        (footerFrame s.footer).payload)]).flatMap storedBytes))
  have hstr := h.strict
  have hrep := replayFrames_numbered [] s.path false (some .crcMismatch) []
    (MaskedEntry.numbered hacc.1 hseq.1) hfr
  rw [append_nil] at hrep
  rw [closedBytes, closedFile, row, hent, map_append, map_cons, append_assoc,
    cons_append, flatMap_append, flatMap_cons] at hstr
  simp only [readSegmentBatches, decode_encode_newV1, hits, hrep, replayFrames,
    replayEnd, stopReplay, Bool.false_eq_true, if_false] at hstr
  cases hstr

/-- A batch that is appended and is not readable is not returned. -/
theorem appended_readable_of_skips (hs : s.Valid ipc)
    (hread : ∀ x ∈ s.entries, x.entry.Readable ipc) (h : s.SkipsUnknown (markCrc []) ipc) :
    ∀ e ∈ s.appended ipc, e.Readable ipc := by
  by_contra haft
  obtain ⟨pre, e, post, happ, hpre, he⟩ := exists_first_not haft
  obtain ⟨_, hres, hrd, -⟩ := h.resumed
  obtain ⟨_, hres', hfile, hmax, hnext⟩ := hs.resume (markCrc []) hread
  obtain rfl := Except.ok.inj (hres.symm.trans hres')
  have hacc := hs.appended_accepted
  have hseq : Sequenced (nextSequence 1 s.log) (s.appended ipc) := appendedLog_sequenced _ _ _
  have hrepl := hrd.replay
  rw [applyAll_resumed hfile hmax hnext] at hrepl
  rw [happ] at hacc hseq hrepl
  rw [forall_mem_append, forall_mem_cons] at hacc
  have hst : ∀ x ∈ s.row (markCrc []) ipc ++ pre.map (LogEntry.stored (markCrc []) ipc),
      Stored (markCrc []) x :=
    forall_mem_append.mpr ⟨hs.stored hread, forall_mem_map.mpr fun e' he' ↦
      (hacc.1 e' he').wellFormed.stored (hpre e' he')⟩
  obtain ⟨_, hfr, hits⟩ := segmentFrames_long [] hst
    (readFrame_unreadable [] hacc.2.1 he
      ((post.map (LogEntry.stored (markCrc []) ipc)).flatMap storedBytes))
  have hrep := replayFrames_numbered [] s.path true (some .crcMismatch) []
    (hs.numbered.append (numbered_log (markCrc []) hacc.1 (sequenced_append.mp hseq).1)) hfr
  rw [append_nil] at hrep
  have hrow : (s.row (markCrc []) ipc ++
      (pre ++ e :: post).map (LogEntry.stored (markCrc []) ipc)).flatMap storedBytes =
      (s.row (markCrc []) ipc ++ pre.map (LogEntry.stored (markCrc []) ipc)).flatMap storedBytes ++
        ((e.frame ipc).encode (markCrc []) ++
          (post.map (LogEntry.stored (markCrc []) ipc)).flatMap storedBytes) := by
    rw [map_append, map_cons, ← append_assoc, flatMap_append, flatMap_cons]
    rfl
  rw [hrow] at hrepl
  simp only [readSegmentBatches, decode_encode_newV1, hits, hrep, replayFrames,
    replayEnd_true, nil_append, Bool.true_eq_false, false_and, if_false, Except.ok.injEq,
    map_append, logEvents, filterMap_append, append_cancel_left_eq] at hrepl
  -- so nothing was appended behind those, but the entry is a batch
  cases e with
  | schema schema =>
    have hmem : LogEntry.schema schema ∈ s.appended ipc := happ ▸ mem_append_right _ mem_cons_self
    exact absurd rfl (ne_schema_of_mem_appendedLog _ hmem schema)
  | memtableEnd => exact he (by simp [LogEntry.Readable, LogEntry.frame])
  | batch => simp [LogEntry.event?] at hrepl

variable (ipc s) in
/-- **Unknown frames are skipped** by every reader and by a writer that continues the segment,
exactly if no payload is too long for its length field. -/
theorem unknown_frames_skipped_iff (hs : s.Valid ipc) :
    (∀ crc32, s.SkipsUnknown crc32 ipc) ↔
      (∀ x ∈ s.entries, x.entry.Readable ipc) ∧
        ∀ b ∈ acceptedBatches ipc (clampBlockMax s.blockMaxBytes) s.after,
          (ipc.encodeBatch b).length < 2 ^ 32 := by
  have haft : (∀ e ∈ s.appended ipc, e.Readable ipc) ↔ _ :=
    appendedLog_readable_iff (clampBlockMax s.blockMaxBytes) (nextSequence 1 s.log) s.after
  rw [← haft]
  refine ⟨fun h ↦ ?_, fun h ↦ skipsUnknown_of_readable hs h.1 h.2⟩
  have hread := entries_readable_of_skips hs (h _)
  exact ⟨hread, appended_readable_of_skips hs hread (h _)⟩

/-- A flag on one batch, and another type for the last one. -/
def sampleUnknown : UnknownSegment Unit UInt8 where
  path := "1.wal"
  memtableId := 7
  now := 0
  entries := [⟨.schema (), none⟩, ⟨.batch 1 5 10, some ⟨2, 1⟩⟩, ⟨.batch 2 6 11, none⟩,
    ⟨.memtableEnd 3 6 7 8, none⟩, ⟨.batch 4 7 12, some ⟨9, 0⟩⟩]
  footer := (5, ⟨3, 6, 0⟩)
  resumeMemtableId := 8
  blockMaxBytes := 64
  after := [.batch 13 8]

theorem sampleUnknown_skipped : sampleUnknown.SkipsUnknown lengthCrc byteIpc :=
  (unknown_frames_skipped_iff byteIpc sampleUnknown
    ⟨by decide, ⟨rfl, rfl, rfl, rfl, trivial⟩, by decide, by decide⟩).mpr
    ⟨by decide, by decide +kernel⟩ lengthCrc

/-- Behind a masked batch of `2 ^ 32` bytes there is another one. -/
def longUnknown : UnknownSegment Unit ℕ where
  path := "1.wal"
  memtableId := 7
  now := 0
  entries := [⟨.schema (), none⟩, ⟨.batch 1 5 (2 ^ 32), some ⟨9, 0⟩⟩, ⟨.batch 2 6 3, none⟩]
  footer := (3, ⟨2, 4, 0⟩)
  resumeMemtableId := 8
  blockMaxBytes := 64
  after := []

theorem longUnknown_not_skipped : ¬ longUnknown.SkipsUnknown (markCrc []) zerosIpc := by
  intro h
  have hval : longUnknown.Valid zerosIpc := by
    refine ⟨?_, ⟨rfl, rfl, trivial⟩, by decide, by decide⟩
    refine forall_mem_cons.mpr ⟨by decide, forall_mem_cons.mpr ⟨⟨?_, by decide⟩,
      forall_mem_singleton.mpr (by decide)⟩⟩
    rw [zerosIpc_blockLen]
    decide
  have hread := entries_readable_of_skips hval h ⟨.batch 1 5 (2 ^ 32), some ⟨9, 0⟩⟩
    (mem_cons_of_mem _ mem_cons_self)
  rw [zerosIpc_readable_iff] at hread
  exact lt_irrefl _ hread

end UnknownSegment

end MonoTS
