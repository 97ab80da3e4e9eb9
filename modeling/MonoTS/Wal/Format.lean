import MonoTS.Common
import MonoTS.Lib.ByteStream

/-!
# The framed WAL format

A segment file is a 40-byte segment header followed by frames. A frame is a 36-byte header and a
body; the header carries the total block length, the record type, a CRC of the body, a per-segment
sequence number and the global LSN.

The CRC and the Arrow IPC codec live outside the repository. The CRC is a parameter and may be any
function of the payload; the codec is the structure `ArrowIpc`, of which only "decode inverts
encode" is assumed.

Every reader of the repository runs the same three steps per frame: decode the header, read the
body, compare the CRC. They are factored here as `readFrame`, and the frames of a segment as
`segmentFrames`; what a reader does with a frame, and with the reason the frames ended, is its own
loop in the modules above.
-/

open List

namespace MonoTS

open LittleEndian ByteStream

/-! ## Constants -/

/-- `FLOWWAL\0`. -/
def segmentMagic : Bytes := [0x46, 0x4C, 0x4F, 0x57, 0x57, 0x41, 0x4C, 0x00]

def frameMagic : ℕ := 0x46574C31

def segmentFormatVersion : ℕ := 1

def segmentMinReadVersion : ℕ := 1

def segmentMaxReadVersion : ℕ := segmentFormatVersion

def segmentKnownFlags : ℕ := 0

def frameKnownFlags : ℕ := 0

def segmentHeaderSize : ℕ := 40

def frameHeaderSize : ℕ := 36

def payloadFormatArrowIpc : ℕ := 1

def defaultWalBlockMaxBytes : ℕ := 5 * 1024 * 1024

def schemaFrameSequence : ℕ := 0

/-- The bits of a `u32` that `known` does not name. -/
def unknownBits (flags known : ℕ) : ℕ := flags &&& (0xFFFFFFFF ^^^ known)

/-- Rust's `{:#x}`. -/
def hexString (n : ℕ) : String := "0x" ++ String.ofList (Nat.toDigits 16 n)

/-! ## Sequential reads

`getLE w c` is `c.get_u16_le()`, `c.get_u32_le()` or `c.get_u64_le()` for `w = 2, 4, 8`. -/

/-- Read a `w`-byte little-endian integer off the front of a buffer. -/
def getLE (w : ℕ) (c : Bytes) : ℕ × Bytes := (leValue (c.take w), c.drop w)

variable {r : Bytes}

/-- Bytes behind a field do not matter to it. -/
theorem slice_append {k w : ℕ} (h : k + w ≤ r.length) (x : Bytes) :
    ((r ++ x).drop k).take w = (r.drop k).take w := by
  rw [drop_append_of_le_length (by omega), take_append_of_le_length (by rw [length_drop]; omega)]

@[simp] theorem getLE_leBytes_append (w n : ℕ) (rest : Bytes) :
    getLE w (leBytes w n ++ rest) = (n % 256 ^ w, rest) := by
  rw [getLE, take_left' (length_leBytes w n), drop_left' (length_leBytes w n), leValue_leBytes]

/-! ## Record types -/

/-- What a frame holds. -/
inductive RecordType where
  | schema
  | batch
  | footer
  /-- The end of a memtable's LSN span; the frame's LSN is the end LSN. -/
  | memTableEnd
  /-- Skipped over by every reader. -/
  | unknown (v : ℕ)
  deriving DecidableEq, Repr

def RecordType.fromU16 : ℕ → RecordType
  | 1 => .schema
  | 2 => .batch
  | 3 => .footer
  | 4 => .memTableEnd
  | other => .unknown other

def RecordType.asU16 : RecordType → ℕ
  | .schema => 1
  | .batch => 2
  | .footer => 3
  | .memTableEnd => 4
  | .unknown v => v

/-! ## Segment header -/

/-- The head of a file. -/
structure SegmentHeader where
  formatVersion : ℕ
  segmentFlags : ℕ
  memtableId : ℕ
  createdUnixMs : ℕ

namespace SegmentHeader

variable (memtableId now : ℕ)

def newV1 : SegmentHeader :=
  ⟨segmentFormatVersion, 0, memtableId, now⟩

variable (h : SegmentHeader)

def encode : Bytes :=
  segmentMagic ++ (leBytes 2 h.formatVersion ++ (leBytes 2 segmentHeaderSize ++
    (leBytes 4 h.segmentFlags ++ (leBytes 8 h.memtableId ++
      (leBytes 8 h.createdUnixMs ++ leBytes 8 0)))))

/-- Decode the header and return the stream behind it. Header bytes beyond the 40 known ones are
skipped. -/
def decode (r : Bytes) : Result (SegmentHeader × Bytes) :=
  if r.length < segmentHeaderSize then .error unexpectedEof
  else if r.take 8 ≠ segmentMagic then .error (.storage "invalid WAL segment magic")
  else
    let (formatVersion, c) := getLE 2 (r.drop 8)
    let (headerSize, c) := getLE 2 c
    if headerSize < segmentHeaderSize then
      .error (.storage
        s!"WAL segment header size too small: {headerSize} (minimum {segmentHeaderSize})")
    else if formatVersion < segmentMinReadVersion ∨ segmentMaxReadVersion < formatVersion then
      .error (.storage (s!"unsupported WAL segment format version: {formatVersion} " ++
          s!"(supported: {segmentMinReadVersion}-{segmentMaxReadVersion})"))
    else
      let (segmentFlags, c) := getLE 4 c
      let unknown := unknownBits segmentFlags segmentKnownFlags
      if unknown ≠ 0 then
        .error (.storage s!"unsupported WAL segment flags: {hexString unknown}")
      else
        let (memtableId, c) := getLE 8 c
        let (createdUnixMs, _) := getLE 8 c
        let extra := headerSize - segmentHeaderSize
        let behind := r.drop segmentHeaderSize
        if behind.length < extra then .error unexpectedEof
        else .ok (⟨formatVersion, segmentFlags, memtableId, createdUnixMs⟩, behind.drop extra)

@[simp] theorem length_encode : h.encode.length = segmentHeaderSize := by
  simp [encode, segmentHeaderSize, segmentMagic]

theorem decode_encode_newV1 (rest : Bytes) : decode ((newV1 memtableId now).encode ++ rest)
      = .ok (newV1 (memtableId % 2 ^ 64) (now % 2 ^ 64), rest) := by
  have hlen : ((newV1 memtableId now).encode ++ rest).length = segmentHeaderSize + rest.length := by
    rw [length_append, length_encode]
  have hdrop : ((newV1 memtableId now).encode ++ rest).drop segmentHeaderSize = rest :=
    drop_left' (length_encode _)
  have h40 : ¬ segmentHeaderSize + rest.length < segmentHeaderSize := by omega
  have htake (bs : Bytes) : (segmentMagic ++ bs).take 8 = segmentMagic := take_left' rfl
  have hmag (bs : Bytes) : (segmentMagic ++ bs).drop 8 = bs := drop_left' rfl
  have hsize : segmentHeaderSize % 256 ^ 2 = segmentHeaderSize := by decide
  have hver : segmentFormatVersion % 256 ^ 2 = segmentFormatVersion := by decide
  have hok : ¬ (segmentFormatVersion < segmentMinReadVersion ∨
      segmentMaxReadVersion < segmentFormatVersion) := by decide
  have hflags : unknownBits (0 % 256 ^ 4) segmentKnownFlags = 0 := by decide
  unfold decode
  rw [hlen, if_neg h40, hdrop]
  simp only [encode, newV1, append_assoc, htake, hmag, getLE_leBytes_append, hsize, hver,
    hok, hflags, ne_eq, not_true_eq_false, if_false, lt_irrefl, Nat.sub_self, Nat.not_lt_zero,
    drop_zero]
  norm_num

theorem decode_append {r behind : Bytes} {h : SegmentHeader} (hd : decode r = .ok (h, behind))
    (x : Bytes) : decode (r ++ x) = .ok (h, behind ++ x) := by
  unfold decode at hd ⊢
  simp only [getLE, drop_drop, Nat.reduceAdd] at hd ⊢
  split_ifs at hd with hlen hmag hsize hver hflags hextra
  cases hd
  have hlen40 : 40 ≤ r.length := Nat.not_lt.mp hlen
  have hsl (k w : ℕ) (hk : k + w ≤ 40) : ((r ++ x).drop k).take w = (r.drop k).take w :=
    slice_append (hk.trans hlen40) x
  have htake : (r ++ x).take 8 = r.take 8 := take_append_of_le_length (by omega)
  have hdrop : (r ++ x).drop segmentHeaderSize = r.drop segmentHeaderSize ++ x :=
    drop_append_of_le_length hlen40
  have h40 : ¬ (r ++ x).length < segmentHeaderSize := by
    rw [length_append, segmentHeaderSize]
    omega
  rw [if_neg h40, htake, if_neg hmag, hsl 8 2 (by decide), hsl 10 2 (by decide),
    if_neg hsize, if_neg hver, hsl 12 4 (by decide), if_neg hflags, hsl 16 8 (by decide),
    hsl 24 8 (by decide), hdrop, if_neg (by rw [length_append]; omega),
    drop_append_of_le_length (by rw [length_drop] at hextra; omega)]

end SegmentHeader

/-! ## Frame header -/

/-- The head of a frame. -/
structure FrameHeader where
  recordType : RecordType
  payloadFormat : ℕ
  /-- Header and body together. -/
  blockLen : ℕ
  crc32 : ℕ
  flags : ℕ
  sequence : ℕ
  /-- Global LSN; `0` for metadata frames. -/
  lsn : ℕ

namespace FrameHeader

variable (h : FrameHeader)

def bodyLen : ℕ := h.blockLen - frameHeaderSize

def encode : Bytes :=
  leBytes 4 frameMagic ++ (leBytes 4 h.blockLen ++ (leBytes 2 h.recordType.asU16 ++
    (leBytes 2 h.payloadFormat ++ (leBytes 4 h.crc32 ++ (leBytes 4 h.flags ++
      (leBytes 8 h.sequence ++ leBytes 8 h.lsn))))))

/-- `none` on a clean end of the stream, also when fewer than four bytes are left. -/
def decode (r : Bytes) : Result (Option (FrameHeader × Bytes)) :=
  if r.length < 4 then .ok none
  else
    let (magic, c) := getLE 4 r
    if magic ≠ frameMagic then
      .error (.storage s!"invalid WAL frame magic: {hexString magic}")
    else if r.length < frameHeaderSize then .error unexpectedEof
    else
      let (blockLen, c) := getLE 4 c
      if blockLen < frameHeaderSize then
        .error (.storage s!"invalid WAL block_len {blockLen} (min {frameHeaderSize})")
      else if defaultWalBlockMaxBytes < blockLen then
        .error (.storage s!"WAL block_len {blockLen} exceeds max {defaultWalBlockMaxBytes}")
      else
        let (recordRaw, c) := getLE 2 c
        let (payloadFormat, c) := getLE 2 c
        let (crc32, c) := getLE 4 c
        let (flags, c) := getLE 4 c
        let (sequence, c) := getLE 8 c
        let (lsn, _) := getLE 8 c
        let recordType :=
          if unknownBits flags frameKnownFlags ≠ 0 then .unknown recordRaw
          else RecordType.fromU16 recordRaw
        .ok (some (⟨recordType, payloadFormat, blockLen, crc32, flags, sequence, lsn⟩,
          r.drop frameHeaderSize))

@[simp] theorem length_encode : h.encode.length = frameHeaderSize := by
  simp [encode, frameHeaderSize]

/-- Every field has the width of its place in the header, and the block length is one that readers
accept. -/
structure Widths (h : FrameHeader) : Prop where
  asU16_lt : h.recordType.asU16 < 2 ^ 16
  payloadFormat_lt : h.payloadFormat < 2 ^ 16
  le_blockLen : frameHeaderSize ≤ h.blockLen
  blockLen_le : h.blockLen ≤ defaultWalBlockMaxBytes
  crc32_lt : h.crc32 < 2 ^ 32
  flags_lt : h.flags < 2 ^ 32
  sequence_lt : h.sequence < 2 ^ 64
  lsn_lt : h.lsn < 2 ^ 64

/-- The record type is a known one, too, and no flag is set. -/
structure InRange (h : FrameHeader) : Prop extends Widths h where
  known : RecordType.fromU16 h.recordType.asU16 = h.recordType
  flags_eq : h.flags = 0

variable {h : FrameHeader}

/-- The fields are read back; the record type is what the raw number and the flags make of it. -/
theorem decode_encode_of_widths (hw : h.Widths) (rest : Bytes) :
    decode (h.encode ++ rest) = .ok (some ({ h with
        recordType :=
          if unknownBits h.flags frameKnownFlags ≠ 0 then .unknown h.recordType.asU16
          else RecordType.fromU16 h.recordType.asU16 }, rest)) := by
  have hlen : (h.encode ++ rest).length = frameHeaderSize + rest.length := by
    rw [length_append, length_encode]
  have hdrop : (h.encode ++ rest).drop frameHeaderSize = rest := drop_left' (length_encode h)
  have hblk : h.blockLen % 256 ^ 4 = h.blockLen :=
    Nat.mod_eq_of_lt (hw.blockLen_le.trans_lt (by decide))
  have htype : h.recordType.asU16 % 256 ^ 2 = h.recordType.asU16 := Nat.mod_eq_of_lt hw.asU16_lt
  have hform : h.payloadFormat % 256 ^ 2 = h.payloadFormat := Nat.mod_eq_of_lt hw.payloadFormat_lt
  have hcrc : h.crc32 % 256 ^ 4 = h.crc32 := Nat.mod_eq_of_lt hw.crc32_lt
  have hflags : h.flags % 256 ^ 4 = h.flags := Nat.mod_eq_of_lt hw.flags_lt
  have hseq : h.sequence % 256 ^ 8 = h.sequence := Nat.mod_eq_of_lt hw.sequence_lt
  have hlsn : h.lsn % 256 ^ 8 = h.lsn := Nat.mod_eq_of_lt hw.lsn_lt
  have hmag : frameMagic % 256 ^ 4 = frameMagic := by decide
  have h4 : ¬ frameHeaderSize + rest.length < 4 := by unfold frameHeaderSize; omega
  have h36 : ¬ frameHeaderSize + rest.length < frameHeaderSize := by omega
  unfold decode
  rw [hlen, if_neg h4, hdrop]
  simp only [encode, append_assoc, getLE_leBytes_append, hmag, hblk, htype, hform, hcrc,
    hseq, hlsn, hflags, ne_eq, not_true_eq_false, if_false, h36, Nat.not_lt.mpr hw.le_blockLen,
    Nat.not_lt.mpr hw.blockLen_le]

theorem decode_encode (hr : h.InRange) (rest : Bytes) :
    decode (h.encode ++ rest) = .ok (some (h, rest)) := by
  have hunk : ¬ unknownBits h.flags frameKnownFlags ≠ 0 := by
    rw [hr.flags_eq]
    decide
  rw [decode_encode_of_widths hr.toWidths, if_neg hunk, hr.known]

/-- What a decoded header says about the bytes it came from. -/
theorem decode_eq_some {r behind : Bytes} (hd : decode r = .ok (some (h, behind))) :
    frameHeaderSize ≤ r.length ∧ leValue (r.take 4) = frameMagic ∧
      h.blockLen = leValue ((r.drop 4).take 4) ∧ frameHeaderSize ≤ h.blockLen ∧
      h.blockLen ≤ defaultWalBlockMaxBytes ∧ h.crc32 = leValue ((r.drop 12).take 4) ∧
      (h.recordType = .unknown (leValue ((r.drop 8).take 2)) ∨
        h.recordType = RecordType.fromU16 (leValue ((r.drop 8).take 2))) ∧
      behind = r.drop frameHeaderSize := by
  unfold decode at hd
  simp only [getLE, drop_drop, Nat.reduceAdd] at hd
  split_ifs at hd with h4 hmag h36 hmin hmax hflags
  · simp at hd
  all_goals
    simp only [Except.ok.injEq, Option.some.injEq, Prod.mk.injEq] at hd
    obtain ⟨rfl, rfl⟩ := hd
    refine ⟨Nat.not_lt.mp h36, not_not.mp hmag, rfl, Nat.not_lt.mp hmin, Nat.not_lt.mp hmax, rfl,
      ?_, rfl⟩
  · exact .inl rfl
  · exact .inr rfl

theorem decode_append {r behind : Bytes} (hd : decode r = .ok (some (h, behind))) (x : Bytes) :
    decode (r ++ x) = .ok (some (h, behind ++ x)) := by
  have hlen : 36 ≤ r.length := (decode_eq_some hd).1
  have hsl (k w : ℕ) (hk : k + w ≤ 36) : ((r ++ x).drop k).take w = (r.drop k).take w :=
    slice_append (hk.trans hlen) x
  have htake : (r ++ x).take 4 = r.take 4 := take_append_of_le_length (by omega)
  have hdrop : (r ++ x).drop frameHeaderSize = r.drop frameHeaderSize ++ x :=
    drop_append_of_le_length hlen
  have h4 : ¬ (r ++ x).length < 4 := by rw [length_append]; omega
  have h36 : ¬ (r ++ x).length < frameHeaderSize := by
    rw [length_append, frameHeaderSize]
    omega
  unfold decode at hd ⊢
  simp only [getLE, drop_drop, Nat.reduceAdd] at hd ⊢
  rw [if_neg h4, htake, hsl 4 4 (by decide), hsl 8 2 (by decide), hsl 10 2 (by decide),
    hsl 12 4 (by decide), hsl 16 4 (by decide), hsl 20 8 (by decide),
    hsl 28 8 (by decide), hdrop]
  -- All that is read stands in the first 36 bytes, so the checks come out as before.
  split_ifs at hd with hshort hmag h36' hmin hmax hflags
  · cases hd
  · rw [if_neg hmag, if_neg h36, if_neg hmin, if_neg hmax, if_pos hflags]
    cases hd
    rfl
  · rw [if_neg hmag, if_neg h36, if_neg hmin, if_neg hmax, if_neg hflags]
    cases hd
    rfl

end FrameHeader

/-! ## Footer and memtable-end payloads -/

/-- The last frame of a file. -/
structure SegmentFooter where
  batchCount : ℕ
  frameCount : ℕ
  closedUnixMs : ℕ

def SegmentFooter.encode (f : SegmentFooter) : Bytes :=
  leBytes 8 f.batchCount ++ (leBytes 8 f.frameCount ++ leBytes 8 f.closedUnixMs)

def SegmentFooter.decode (payload : Bytes) : Result SegmentFooter :=
  if payload.length ≠ 24 then .error (.storage "invalid WAL footer length")
  else
    let (batchCount, c) := getLE 8 payload
    let (frameCount, c) := getLE 8 c
    let (closedUnixMs, _) := getLE 8 c
    .ok ⟨batchCount, frameCount, closedUnixMs⟩

/-- The closed memtable id, then the id that is active after the seal. -/
def encodeMemtableEndPayload (closedMemtableId newMemtableId : ℕ) : Bytes :=
  leBytes 8 closedMemtableId ++ leBytes 8 newMemtableId

/-- Legacy eight-byte payloads store only the closed id. -/
def decodeMemtableEndPayload (payload : Bytes) : ℕ × ℕ :=
  if 16 ≤ payload.length then
    (leValue (payload.take 8), leValue ((payload.drop 8).take 8))
  else if 8 ≤ payload.length then
    (leValue (payload.take 8), saturatingAdd (leValue (payload.take 8)) 1)
  else (0, 0)

@[simp] theorem length_encodeMemtableEndPayload (closed new : ℕ) :
    (encodeMemtableEndPayload closed new).length = 16 := by
  simp [encodeMemtableEndPayload]

/-! ## Writing a frame -/

/-- The arguments of one `write_frame` call, the size limit apart. -/
structure Frame where
  recordType : RecordType
  payloadFormat : ℕ
  sequence : ℕ
  lsn : ℕ
  payload : Bytes

namespace Frame

/-- `FRAME_HEADER_SIZE as u32 + payload.len() as u32`: the cast keeps the low 32 bits. -/
def blockLen (f : Frame) : ℕ := frameHeaderSize + f.payload.length % 2 ^ 32

/-- The bytes the frame takes on disk. -/
def size (f : Frame) : ℕ := frameHeaderSize + f.payload.length

variable (crc32 : Bytes → UInt32)

def header (f : Frame) : FrameHeader :=
  ⟨f.recordType, f.payloadFormat, f.blockLen, (crc32 f.payload).toNat, 0, f.sequence, f.lsn⟩

def encode (f : Frame) : Bytes := (f.header crc32).encode ++ f.payload

@[simp] theorem length_encode (f : Frame) : (f.encode crc32).length = f.size := by
  rw [encode, length_append, FrameHeader.length_encode, size]

/-- The arguments are those a writer of the repository passes: a known record type, machine-width
numbers, and a block length that `write_frame` accepted. -/
structure WellFormed (f : Frame) : Prop where
  known : RecordType.fromU16 f.recordType.asU16 = f.recordType
  asU16_lt : f.recordType.asU16 < 2 ^ 16
  payloadFormat_lt : f.payloadFormat < 2 ^ 16
  blockLen_le : f.blockLen ≤ defaultWalBlockMaxBytes
  sequence_lt : f.sequence < 2 ^ 64
  lsn_lt : f.lsn < 2 ^ 64

variable {f : Frame}

theorem WellFormed.inRange_header (hf : f.WellFormed) : (f.header crc32).InRange where
  __ := hf
  le_blockLen := Nat.le_add_right _ _
  crc32_lt := (crc32 f.payload).toNat_lt
  flags_lt := Nat.two_pow_pos 32
  flags_eq := rfl

@[simp] theorem bodyLen_header (f : Frame) :
    (f.header crc32).bodyLen = f.payload.length % 2 ^ 32 := by
  rw [FrameHeader.bodyLen, header, blockLen, Nat.add_sub_cancel_left]

end Frame

variable (crc32 : Bytes → UInt32)

/-- The bytes one call appends to the segment. A frame that is too large is refused before anything
is written. -/
def writeFrame (f : Frame) (maxBlockBytes : ℕ) : Result Bytes :=
  if 2 ^ 32 ≤ f.blockLen then .error (.storage "WAL block too large")
  else if maxBlockBytes < f.blockLen then
    let payloadLen := f.payload.length
    let blockLen := f.blockLen
    .error (.storage (s!"WAL block {blockLen} bytes exceeds max {maxBlockBytes} " ++
        s!"(payload {payloadLen} + header {frameHeaderSize})"))
  else .ok (f.encode crc32)

/-! ## Reading frames -/

/-- Why a reader found no further frame. -/
inductive FrameStop where
  /-- `Ok(None)` of the header decoder. -/
  | eof
  /-- The header decoder failed. -/
  | header (e : TsdbError)
  /-- The body is shorter than the header says. -/
  | truncated
  | crcMismatch

/-- Decode the header, read the body, compare the CRC. -/
def readFrame (r : Bytes) : Step (FrameHeader × Bytes) FrameStop :=
  match FrameHeader.decode r with
  | .ok none => .stop .eof
  | .error e => .stop (.header e)
  | .ok (some (h, behind)) =>
    if behind.length < h.bodyLen then .stop .truncated
    else if (crc32 (behind.take h.bodyLen)).toNat ≠ h.crc32 then .stop .crcMismatch
    else .item (h, behind.take h.bodyLen) (behind.drop h.bodyLen)

/-- What an accepted frame says about the bytes it came from. -/
theorem readFrame_eq_item {body rest : Bytes} {h : FrameHeader}
    (hr : readFrame crc32 r = .item (h, body) rest) :
    FrameHeader.decode r = .ok (some (h, r.drop frameHeaderSize)) ∧
      h.bodyLen ≤ (r.drop frameHeaderSize).length ∧ (crc32 body).toNat = h.crc32 ∧
      body = (r.drop frameHeaderSize).take h.bodyLen ∧
      rest = (r.drop frameHeaderSize).drop h.bodyLen := by
  unfold readFrame at hr
  split at hr
  · cases hr
  · cases hr
  · next h' behind hd =>
    obtain rfl : behind = r.drop frameHeaderSize := (FrameHeader.decode_eq_some hd).2.2.2.2.2.2.2
    split_ifs at hr with hlen hcrc
    cases hr
    exact ⟨hd, Nat.not_lt.mp hlen, not_not.mp hcrc, rfl, rfl⟩

theorem consuming_readFrame : Consuming (readFrame crc32) := by
  rintro r ⟨_, _⟩ rest hr
  obtain ⟨hd, -, -, -, rfl⟩ := readFrame_eq_item crc32 hr
  have hlen := (FrameHeader.decode_eq_some hd).1
  rw [length_drop, length_drop]
  unfold frameHeaderSize at *
  omega

theorem readFrame_append {rest : Bytes} {a : FrameHeader × Bytes}
    (hr : readFrame crc32 r = .item a rest) (x : Bytes) :
    readFrame crc32 (r ++ x) = .item a (rest ++ x) := by
  obtain ⟨hd, hlen, hcrc, hbody, hrest⟩ := readFrame_eq_item crc32 hr
  rw [readFrame, FrameHeader.decode_append hd x]
  simp only [take_append_of_le_length hlen, drop_append_of_le_length hlen, ← hbody, ← hrest]
  rw [if_neg (by rw [length_append]; omega), if_neg (not_not.mpr hcrc)]

theorem readFrame_encode {f : Frame} (hf : f.WellFormed) (hlen : f.payload.length < 2 ^ 32)
    (rest : Bytes) :
    readFrame crc32 (f.encode crc32 ++ rest) = .item (f.header crc32, f.payload) rest := by
  have hbody : (f.header crc32).bodyLen = f.payload.length := by
    rw [Frame.bodyLen_header, Nat.mod_eq_of_lt hlen]
  rw [readFrame, Frame.encode, append_assoc, FrameHeader.decode_encode (hf.inRange_header crc32)]
  simp only [hbody, length_append, take_left, drop_left]
  rw [if_neg (by omega), if_neg (by simp [Frame.header])]

/-- The frames a reader sees, each with the stream behind it, and why they end. -/
def segmentFrames (r : Bytes) : List ((FrameHeader × Bytes) × Bytes) × Option FrameStop :=
  items (readFrame crc32) r

/-! ## Arrow IPC -/

/-- The Arrow IPC codec. Of the encoder and the decoder only that one inverts the other is assumed;
decoding a batch does not look at the schema read before it. -/
structure ArrowIpc (Schema Batch : Type*) where
  encodeSchema : Schema → Bytes
  decodeSchema : Bytes → Result Schema
  encodeBatch : Batch → Bytes
  decodeBatch : Bytes → Result Batch
  /-- `RecordBatch::get_array_memory_size`. -/
  arrayMemorySize : Batch → ℕ
  decodeSchema_encodeSchema : ∀ s, decodeSchema (encodeSchema s) = .ok s
  decodeBatch_encodeBatch : ∀ b, decodeBatch (encodeBatch b) = .ok b

/-- A codec that writes a batch as its single byte. -/
def byteIpc : ArrowIpc Unit UInt8 where
  encodeSchema _ := [0]
  decodeSchema _ := .ok ()
  encodeBatch b := [b]
  decodeBatch
    | [b] => .ok b
    | _ => .error (.storage "empty WAL batch frame")
  arrayMemorySize _ := 1
  decodeSchema_encodeSchema _ := rfl
  decodeBatch_encodeBatch _ := rfl

/-- A checksum that is the length of the payload. -/
def lengthCrc (payload : Bytes) : UInt32 := payload.length.toUInt32

end MonoTS
