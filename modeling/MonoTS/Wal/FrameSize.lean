import MonoTS.Wal.Frames

/-!
# The size limit of a frame

`write_frame` computes the block length in 32 bits, from the length of the payload cast to 32 bits,
and compares it with the limit of the segment. For payloads of less than `2 ^ 32` bytes this is the
comparison without the cast. A longer payload is measured by what is left of its length modulo
`2 ^ 32`: it can pass, and then the header announces a shorter body than the one that is written.
-/

namespace MonoTS

open LittleEndian ByteStream

/-! ## Writing to a file that can fail -/

/-- What becomes of the bytes that are handed to the file. -/
inductive WriteIo where
  | full
  /-- Only the first bytes are written. -/
  | fails (written : ℕ) (e : TsdbError)

/-- The result, and the file with what was written behind it. -/
def WriteIo.writeAll (io : WriteIo) (file bytes : Bytes) : Result Unit × Bytes :=
  match io with
  | .full => (.ok (), file ++ bytes)
  | .fails written e => (.error e, file ++ bytes.take written)

variable (crc32 : Bytes → UInt32)

/-- `write_frame` on a file. -/
def writeFrameTo (io : WriteIo) (file : Bytes) (f : Frame) (maxBlockBytes : ℕ) :
    Result Unit × Bytes :=
  match writeFrame crc32 f maxBlockBytes with
  | .error e => (.error e, file)
  | .ok bytes => io.writeAll file bytes

/-! ## The limit -/

/-- The arguments have the widths of their types. -/
structure Frame.Widths (f : Frame) : Prop where
  asU16_lt : f.recordType.asU16 < 2 ^ 16
  payloadFormat_lt : f.payloadFormat < 2 ^ 16
  sequence_lt : f.sequence < 2 ^ 64
  lsn_lt : f.lsn < 2 ^ 64

/-- A frame is written if it is not larger than the limit, nothing is written otherwise, and what is
written is read back. -/
structure SizeExact (f : Frame) (maxBlockBytes : ℕ) (file : Bytes) : Prop where
  ok_iff : (writeFrameTo crc32 .full file f maxBlockBytes).1 = .ok () ↔
    frameHeaderSize + f.payload.length ≤ maxBlockBytes
  refused : ∀ io e, writeFrame crc32 f maxBlockBytes = .error e →
    writeFrameTo crc32 io file f maxBlockBytes = (.error e, file)
  readBack : (writeFrameTo crc32 .full file f maxBlockBytes).1 = .ok () → ∀ next,
    ∃ h behind, FrameHeader.decode
        ((writeFrameTo crc32 .full file f maxBlockBytes).2.drop file.length ++ next) =
          .ok (some (h, behind)) ∧
      behind.take h.bodyLen = f.payload ∧ behind.drop h.bodyLen = next

variable {crc32} {f : Frame} {maxBlockBytes : ℕ}

variable (crc32) in
theorem Frame.Widths.header (hf : f.Widths) (hblk : f.blockLen ≤ defaultWalBlockMaxBytes) :
    (f.header crc32).Widths where
  __ := hf
  le_blockLen := Nat.le_add_right _ _
  blockLen_le := hblk
  crc32_lt := (crc32 f.payload).toNat_lt
  flags_lt := Nat.two_pow_pos 32

theorem writeFrame_ok_iff (hmax : maxBlockBytes ≤ defaultWalBlockMaxBytes) {bytes : Bytes} :
    writeFrame crc32 f maxBlockBytes = .ok bytes ↔
      f.blockLen ≤ maxBlockBytes ∧ bytes = f.encode crc32 := by
  have hdef : defaultWalBlockMaxBytes < 2 ^ 32 := by decide
  rw [writeFrame]
  split_ifs with hwrap hlim
  · exact iff_of_false nofun fun h ↦ by omega
  · exact iff_of_false nofun fun h ↦ by omega
  · exact ⟨fun h ↦ ⟨Nat.le_of_not_lt hlim, (Except.ok.inj h).symm⟩, fun h ↦ by rw [h.2]⟩

theorem writeFrameTo_full (file : Bytes) (hmax : maxBlockBytes ≤ defaultWalBlockMaxBytes) :
    (writeFrameTo crc32 .full file f maxBlockBytes).1 = .ok () ↔ f.blockLen ≤ maxBlockBytes := by
  rw [writeFrameTo]
  cases hwr : writeFrame crc32 f maxBlockBytes with
  | error =>
    refine iff_of_false nofun fun h ↦ ?_
    rw [(writeFrame_ok_iff hmax).mpr ⟨h, rfl⟩] at hwr
    cases hwr
  | ok => exact iff_of_true rfl ((writeFrame_ok_iff hmax).mp hwr).1

variable (crc32 f maxBlockBytes) in
/-- **The size check is exact** for every payload that is shorter than `2 ^ 32` bytes, and for those
that are refused although their length is only known modulo `2 ^ 32`. -/
theorem size_exact_iff (file : Bytes) (hf : f.Widths)
    (hmax : maxBlockBytes ≤ defaultWalBlockMaxBytes) :
    SizeExact crc32 f maxBlockBytes file ↔
      f.payload.length < 2 ^ 32 ∨ maxBlockBytes < frameHeaderSize + f.payload.length % 2 ^ 32 := by
  have hdef : defaultWalBlockMaxBytes < 2 ^ 32 := by decide
  constructor
  · intro h
    by_contra hno
    obtain ⟨_, hfits⟩ := not_or.mp hno
    have hle := h.ok_iff.mp ((writeFrameTo_full file hmax).mpr (Nat.le_of_not_lt hfits))
    omega
  · intro h
    refine ⟨?_, fun io e he ↦ by rw [writeFrameTo, he], fun hok next ↦ ?_⟩
    · rw [writeFrameTo_full file hmax, Frame.blockLen]
      rcases h with h | h
      · rw [Nat.mod_eq_of_lt h]
      · have hmod := Nat.mod_le f.payload.length (2 ^ 32)
        exact iff_of_false (by omega) (by omega)
    · have hblk := (writeFrameTo_full file hmax).mp hok
      have hlen : f.payload.length % 2 ^ 32 = f.payload.length := by
        rcases h with h | h
        · exact Nat.mod_eq_of_lt h
        · rw [Frame.blockLen] at hblk
          omega
      have hwr : (writeFrameTo crc32 .full file f maxBlockBytes).2.drop file.length =
          f.encode crc32 := by
        rw [writeFrameTo, (writeFrame_ok_iff hmax).mpr ⟨hblk, rfl⟩]
        exact List.drop_left
      have hdec := FrameHeader.decode_encode_of_widths
        (hf.header crc32 (hblk.trans hmax)) (f.payload ++ next)
      rw [← List.append_assoc, ← Frame.encode, ← hwr] at hdec
      have hbody : (f.header crc32).bodyLen = f.payload.length := by
        rw [Frame.bodyLen_header, hlen]
      refine ⟨_, _, hdec, ?_, ?_⟩
      · change (f.payload ++ next).take (f.header crc32).bodyLen = _
        rw [hbody, List.take_left]
      · change (f.payload ++ next).drop (f.header crc32).bodyLen = _
        rw [hbody, List.drop_left]

/-- Three bytes. -/
def shortFrame : Frame := ⟨.batch, payloadFormatArrowIpc, 1, 1, [1, 2, 3]⟩

theorem shortFrame_size_exact : SizeExact lengthCrc shortFrame 39 [] :=
  (size_exact_iff lengthCrc shortFrame 39 [] (by constructor <;> decide) (by decide)).mpr
    (.inl (by decide))

variable (n : ℕ)

/-- A batch of `n` zeros. -/
def zeroFrame : Frame := ⟨.batch, payloadFormatArrowIpc, 1, 1, List.replicate n 0⟩

theorem blockLen_zeroFrame : (zeroFrame n).blockLen = frameHeaderSize + n % 2 ^ 32 := by
  rw [Frame.blockLen, zeroFrame, List.length_replicate]

theorem length_zeroFrame : (zeroFrame n).payload.length = n := List.length_replicate

/-- `2 ^ 32` bytes are written where the limit is a header without a body. -/
theorem long_frame_is_written :
    (writeFrameTo lengthCrc .full [] (zeroFrame (2 ^ 32)) frameHeaderSize).1 = .ok () ∧
      ¬ frameHeaderSize + (zeroFrame (2 ^ 32)).payload.length ≤ frameHeaderSize := by
  rw [writeFrameTo_full [] (by decide), blockLen_zeroFrame, length_zeroFrame]
  decide

end MonoTS
