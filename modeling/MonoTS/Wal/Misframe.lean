import MonoTS.Wal.Log

/-!
# Frames read where none was written

When a frame is torn and more frames are appended behind it, a reader takes the torn header at its
word and continues into the frames that follow. Nothing rules out that what it finds there passes
the CRC: the CRC may be any function of the payload. What can be said is said here, for three
choices of that function.

* `markCrc P` singles out one payload and all payloads too long for their length field. Under it a
  frame torn before its payload is accepted only if the bytes that happen to follow complete exactly
  the payload `P`, and an unreadable entry ends the reading.
* the two constant functions `0` and `0x01010101`. If a frame is accepted at some position of a log
  under both of them, that position is the start of an entry, because the four bytes of the CRC
  field are the only bytes of an entry that depend on the function.

The rest counts: a replay returns at most one batch for each batch frame it sees.
-/

open List

namespace MonoTS

open LittleEndian ByteStream FramedSegmentWriter FrameHeader

variable {Schema Batch : Type*} {crc32 : Bytes → UInt32} {ipc : ArrowIpc Schema Batch}

/-! ## Counting what a replay returns -/

/-- The number of batch frames. -/
def batchFrames (frames : List ((FrameHeader × Bytes) × Bytes)) : ℕ :=
  frames.countP fun f ↦ f.1.1.recordType = .batch

theorem stopReplay_true (batches : List Batch) (e : TsdbError) :
    stopReplay true batches e = .ok (batches, false) := rfl

theorem replayEnd_true (path : String) (batches : List Batch) (stop : Option FrameStop) :
    replayEnd path true batches stop = .ok (batches, false) := by
  rcases stop with _ | stop
  · rfl
  · cases stop <;> rfl

variable {stop : Option FrameStop} {frames : List ((FrameHeader × Bytes) × Bytes)}
  {payload P r : Bytes} {log : List (LogEntry Schema Batch)} {e : LogEntry Schema Batch} {j : ℕ}
  {f : Frame} {batches out : List Batch}

/-- A replay keeps what it has and adds at most one batch for each batch frame. -/
theorem replayFrames_bound {path : String} {next : ℕ} {footer : Bool}
    (h : replayFrames ipc path true stop frames next batches = .ok (out, footer)) :
    batches <+: out ∧ out.length ≤ batches.length + batchFrames frames := by
  induction frames generalizing next batches with
  | nil =>
    rw [replayFrames, replayEnd_true] at h
    cases h
    exact ⟨prefix_rfl, Nat.le_add_right _ _⟩
  | cons f frames ih =>
    obtain ⟨⟨frame, payload⟩, behind⟩ := f
    have hstay : ∀ {next'},
        replayFrames ipc path true stop frames next' batches = .ok (out, footer) →
        batches <+: out ∧
          out.length ≤ batches.length + batchFrames (((frame, payload), behind) :: frames) := by
      intro next' h'
      refine ⟨(ih h').1, (ih h').2.trans (Nat.add_le_add_left ?_ _)⟩
      exact List.Sublist.countP_le (sublist_cons_self _ _)
    have hhere : batches <+: batches ∧
        batches.length ≤ batches.length + batchFrames (((frame, payload), behind) :: frames) :=
      ⟨prefix_rfl, Nat.le_add_right _ _⟩
    rw [replayFrames] at h
    cases hrt : frame.recordType with
    | schema =>
      simp only [hrt, stopReplay_true] at h
      split_ifs at h
      · cases h; exact hhere
      · cases h; exact hhere
      · split at h
        · exact hstay h
        · cases h; exact hhere
    | batch =>
      simp only [hrt, stopReplay_true] at h
      split_ifs at h
      · cases h; exact hhere
      · cases h; exact hhere
      · split at h
        · next b _ =>
          obtain ⟨hpre, hlen⟩ := ih h
          refine ⟨(prefix_append _ _).trans hpre, hlen.trans_eq ?_⟩
          rw [batchFrames, batchFrames, countP_cons_of_pos (by simpa using hrt),
            length_append, length_singleton]
          omega
        · cases h; exact hhere
    | footer =>
      simp only [hrt] at h
      split at h
      · cases h; exact hhere
      · cases h
    | memTableEnd | unknown =>
      simp only [hrt] at h
      exact hstay h

/-- A batch frame in front contributes its own batch, or the replay ends there. -/
theorem replayFrames_cons_batch {path : String} {frame : FrameHeader} {behind : Bytes} {next : ℕ}
    {footer : Bool} {b : Batch} (hrt : frame.recordType = .batch)
    (hb : ipc.decodeBatch payload = .ok b)
    (h : replayFrames ipc path true stop (((frame, payload), behind) :: frames) next batches
      = .ok (out, footer)) :
    out = batches ∨ batches ++ [b] <+: out := by
  rw [replayFrames] at h
  simp only [hrt, stopReplay_true, hb] at h
  split_ifs at h
  · cases h; exact .inl rfl
  · cases h; exact .inl rfl
  · exact .inr (replayFrames_bound h).1

theorem batchFrames_of_framesOf (h : FramesOf crc32 ipc log frames) :
    batchFrames frames = (logBatches log).length := by
  induction log generalizing frames with
  | nil => rw [map_eq_nil_iff.mp h]; rfl
  | cons e log ih =>
    obtain ⟨_, _, rfl, hlog⟩ := h.cons_inv
    have ih := ih hlog
    rw [batchFrames] at ih ⊢
    rw [countP_cons, ih]
    cases e <;> rfl

/-! ## A CRC that marks one payload -/

/-- `1` on `P`, `2` on every other payload of `2 ^ 32` bytes or more, `0` elsewhere. -/
def markCrc (P payload : Bytes) : UInt32 :=
  if payload = P then 1 else if 2 ^ 32 ≤ payload.length then 2 else 0

theorem markCrc_le (P payload : Bytes) : (markCrc P payload).toNat ≤ 2 := by
  unfold markCrc
  split_ifs <;> decide

theorem eq_of_markCrc_eq (h : (markCrc P payload).toNat = 1) : payload = P := by
  unfold markCrc at h
  split_ifs at h with h1 h2
  · exact h1
  · exact absurd h (by decide)
  · exact absurd h (by decide)

theorem markCrc_self (P : Bytes) : (markCrc P P).toNat = 1 := by
  rw [markCrc, if_pos rfl]
  rfl

/-- A payload too long for its length field never has the CRC of a shorter one. -/
theorem markCrc_ne {long short : Bytes} (hlong : 2 ^ 32 ≤ long.length)
    (hshort : short.length < 2 ^ 32) : (markCrc P short).toNat ≠ (markCrc P long).toNat := by
  have hne : short ≠ long := by
    rintro rfl
    omega
  unfold markCrc
  by_cases h1 : short = P
  · subst h1
    rw [if_pos rfl, if_neg (Ne.symm hne), if_pos hlong]
    decide
  · rw [if_neg h1, if_neg (by omega)]
    split_ifs <;> decide

/-- Under such a CRC the reading ends at a frame that announces too short a body. -/
theorem readFrame_long (P : Bytes) {h : FrameHeader} (hw : h.Widths)
    (hlong : 2 ^ 32 ≤ payload.length) (hlen : h.bodyLen = payload.length % 2 ^ 32)
    (hcrc : h.crc32 = (markCrc P payload).toNat) (rest : Bytes) :
    readFrame (markCrc P) (storedBytes (h, payload) ++ rest) = .stop .crcMismatch := by
  have hmod : payload.length % 2 ^ 32 < 2 ^ 32 := Nat.mod_lt _ (Nat.two_pow_pos 32)
  have hbody (t : RecordType) : ({ h with recordType := t } : FrameHeader).bodyLen =
      payload.length % 2 ^ 32 := hlen
  rw [readFrame, storedBytes, append_assoc, decode_encode_of_widths hw]
  simp only [hbody, length_append]
  rw [if_neg (by omega), take_append_of_le_length (by omega), if_pos]
  rw [hcrc]
  exact markCrc_ne hlong (by rw [length_take]; omega)

theorem readFrame_unreadable (P : Bytes) (he : e.Accepted ipc) (hread : ¬ e.Readable ipc)
    (rest : Bytes) :
    readFrame (markCrc P) ((e.frame ipc).encode (markCrc P) ++ rest) = .stop .crcMismatch :=
  readFrame_long P (he.wellFormed.inRange_header _).toWidths (Nat.not_lt.mp hread)
    (Frame.bodyLen_header _ _) rfl rest

theorem exists_first_not {α : Type*} {P : α → Prop} {l : List α} (h : ¬ ∀ x ∈ l, P x) :
    ∃ pre x post, l = pre ++ x :: post ∧ (∀ y ∈ pre, P y) ∧ ¬ P x := by
  induction l with
  | nil => simp at h
  | cons x l ih =>
    by_cases hx : P x
    · have hl : ¬ ∀ y ∈ l, P y := fun hl ↦ h (forall_mem_cons.mpr ⟨hx, hl⟩)
      obtain ⟨pre, y, post, rfl, hpre, hy⟩ := ih hl
      exact ⟨x :: pre, y, post, rfl, forall_mem_cons.mpr ⟨hx, hpre⟩, hy⟩
    · exact ⟨[], x, l, rfl, by simp, hx⟩

/-- A reader sees nothing at or behind the first unreadable entry. -/
theorem segmentFrames_unreadable (P : Bytes) {pre post : List (LogEntry Schema Batch)}
    (hacc : ∀ e' ∈ pre ++ e :: post, e'.Accepted ipc) (hpre : ∀ e' ∈ pre, e'.Readable ipc)
    (he : ¬ e.Readable ipc) (tail : Bytes) :
    FramesOf (markCrc P) ipc pre
      (segmentFrames (markCrc P) (encodeLog (markCrc P) ipc (pre ++ e :: post) ++ tail)).1 := by
  obtain ⟨_, hfr, hits⟩ := segmentFrames_encodeLog (markCrc P)
    (fun e' he' ↦ hacc e' (mem_append_left _ he')) hpre
    (encodeLog (markCrc P) ipc (e :: post) ++ tail)
  have hstop := readFrame_unreadable P
    (hacc e (mem_append_right _ mem_cons_self)) he
    (encodeLog (markCrc P) ipc post ++ tail)
  rw [encodeLog_cons, append_assoc] at hits
  rw [encodeLog_append, encodeLog_cons, append_assoc, append_assoc, hits, segmentFrames,
    items_of_stop hstop, append_nil]
  exact hfr

/-- From a log a reader gets at most as many batch frames as the log has batches. -/
theorem batchFrames_encodeLog_le (P : Bytes) (hacc : ∀ e ∈ log, e.Accepted ipc) :
    batchFrames (segmentFrames (markCrc P) (encodeLog (markCrc P) ipc log)).1
      ≤ (logBatches log).length := by
  by_cases hread : ∀ e ∈ log, e.Readable ipc
  · obtain ⟨_, hfr, hits⟩ := segmentFrames_encodeLog (markCrc P) hacc hread []
    have hnil : readFrame (markCrc P) [] = .stop .eof := rfl
    rw [append_nil, segmentFrames, segmentFrames, items_of_stop hnil, append_nil] at hits
    rw [segmentFrames, hits, batchFrames_of_framesOf hfr]
  · obtain ⟨_, _, _, rfl, hpre, he⟩ := exists_first_not hread
    have hfr := segmentFrames_unreadable P hacc hpre he []
    rw [append_nil] at hfr
    rw [batchFrames_of_framesOf hfr, logBatches_append, length_append]
    exact Nat.le_add_right _ _

/-! ## A torn frame and what follows it -/

theorem take_drop_window {r' : Bytes} {a w : ℕ} (h : r.take j = r'.take j) (hj : a + w ≤ j) :
    (r.drop a).take w = (r'.drop a).take w := by
  have key (l : Bytes) : ((l.take j).drop a).take w = (l.drop a).take w := by
    rw [drop_take, take_take, min_eq_left (by omega)]
  rw [← key r, h, key r']

/-- A header whose first bytes are those of a frame has that frame's length, and with sixteen bytes
in common also its CRC and, up to unknown flags, its record type. -/
theorem decode_of_take (hf : f.WellFormed) {behind : Bytes} {h : FrameHeader}
    (hagree : r.take j = (f.encode crc32).take j) (hd : decode r = .ok (some (h, behind))) :
    (8 ≤ j → h.blockLen = f.blockLen) ∧
      (16 ≤ j → h.crc32 = (crc32 f.payload).toNat ∧
        (h.recordType = .batch → f.recordType = .batch)) := by
  have hd' : decode (f.encode crc32) = .ok (some (f.header crc32, f.payload)) :=
    decode_encode (hf.inRange_header crc32) f.payload
  obtain ⟨-, -, hblk, -, -, hcrc, htype, -⟩ := decode_eq_some hd
  obtain ⟨-, -, hblk', -, -, hcrc', htype', -⟩ := decode_eq_some hd'
  refine ⟨fun hj ↦ ?_, fun hj ↦ ⟨?_, fun hbat ↦ ?_⟩⟩
  · rw [hblk, take_drop_window hagree (by omega), ← hblk']
    rfl
  · rw [hcrc, take_drop_window hagree (by omega), ← hcrc']
    rfl
  · rw [hbat, take_drop_window hagree (by omega)] at htype
    rcases htype with htype | htype
    · cases htype
    · rcases htype' with htype' | htype'
      · rw [htype, ← hf.known, show f.recordType = _ from htype', RecordType.asU16]
      · exact htype'.trans htype.symm

/-- On its own, a torn frame ends the reading. -/
theorem Frame.readFrame_take (hf : f.WellFormed) (hread : f.payload.length < 2 ^ 32)
    (hj : j < f.size) : ∃ stop, readFrame crc32 ((f.encode crc32).take j) = .stop stop := by
  cases hr : readFrame crc32 ((f.encode crc32).take j) with
  | stop stop => exact ⟨stop, rfl⟩
  | item a =>
    exfalso
    obtain ⟨_, _⟩ := a
    obtain ⟨hd, hbody, -⟩ := readFrame_eq_item crc32 hr
    have hlen := (decode_eq_some hd).1
    rw [length_take] at hlen
    rw [length_drop, length_take] at hbody
    have hblk := (decode_of_take hf (take_take ..|>.trans (by rw [min_self])) hd).1
      (by unfold frameHeaderSize at hlen; omega)
    rw [bodyLen, hblk, Frame.blockLen, Nat.mod_eq_of_lt hread] at hbody
    rw [Frame.size] at hj
    unfold frameHeaderSize at *
    omega

theorem readFrame_torn (he : e.Accepted ipc) (hread : e.Readable ipc) (hj : j < e.size ipc) :
    ∃ stop, readFrame crc32 (((e.frame ipc).encode crc32).take j) = .stop stop :=
  Frame.readFrame_take he.wellFormed hread hj

variable {e : LogEntry Schema Batch} {j : ℕ} {follow body rest : Bytes} {h : FrameHeader}

/-- When the length field of a torn frame survives, a reader that accepts it continues behind the
bytes the frame would have had. -/
theorem readFrame_torn_append (he : e.Accepted ipc) (hread : e.Readable ipc) (hj8 : 8 ≤ j)
    (hj : j < e.size ipc)
    (hr : readFrame crc32 (((e.frame ipc).encode crc32).take j ++ follow) = .item (h, body) rest) :
    rest = follow.drop (e.size ipc - j) := by
  obtain ⟨hd, _, -, -, rfl⟩ := readFrame_eq_item crc32 hr
  have hlen : (((e.frame ipc).encode crc32).take j).length = j := by
    rw [length_take, Frame.length_encode]
    exact min_eq_left hj.le
  have hagree : (((e.frame ipc).encode crc32).take j ++ follow).take j
      = ((e.frame ipc).encode crc32).take j := take_left' hlen
  have hblk := (decode_of_take he.wellFormed hagree hd).1 hj8
  have hmod : (e.frame ipc).payload.length % 2 ^ 32 = (e.frame ipc).payload.length :=
    Nat.mod_eq_of_lt hread
  have hsize : frameHeaderSize + h.bodyLen = e.size ipc := by
    rw [bodyLen, hblk, Frame.blockLen, hmod, LogEntry.size, Frame.size]
    omega
  rw [drop_drop, hsize, drop_append, hlen, drop_eq_nil_of_le (by omega), nil_append]

/-- With sixteen bytes of the torn header left, the marked payload has to be completed exactly. -/
theorem readFrame_markCrc (he : e.Accepted ipc) (hj16 : 16 ≤ j) (hj : j < e.size ipc)
    (hr : readFrame (markCrc (e.frame ipc).payload)
      (((e.frame ipc).encode (markCrc (e.frame ipc).payload)).take j ++ follow)
        = .item (h, body) rest) :
    e.Readable ipc ∧ body = (e.frame ipc).payload ∧
      (h.recordType = .batch → (e.frame ipc).recordType = .batch) := by
  obtain ⟨hd, hbody, hcrc, hbodyEq, -⟩ := readFrame_eq_item _ hr
  have hagree : (((e.frame ipc).encode (markCrc (e.frame ipc).payload)).take j ++ follow).take j
      = ((e.frame ipc).encode (markCrc (e.frame ipc).payload)).take j := by
    refine take_left' ?_
    rw [length_take, Frame.length_encode]
    exact min_eq_left hj.le
  obtain ⟨hblk, hrest⟩ := decode_of_take he.wellFormed hagree hd
  obtain ⟨hcrc', htype⟩ := hrest hj16
  rw [hcrc', markCrc_self] at hcrc
  have hbodyP := eq_of_markCrc_eq hcrc
  refine ⟨?_, hbodyP, htype⟩
  -- The body has the length modulo `2 ^ 32` and the length, so the two agree.
  have hbodyLen : body.length = h.bodyLen := by
    rw [hbodyEq, length_take]
    exact min_eq_left hbody
  rw [hbodyP, bodyLen, hblk (by omega), Frame.blockLen, Nat.add_sub_cancel_left] at hbodyLen
  rw [LogEntry.Readable, hbodyLen]
  exact Nat.mod_lt _ (Nat.two_pow_pos 32)

theorem bytes_of_magic (h : leValue (r.take 4) = frameMagic) :
    (r.getD 0 0).toNat = 0x31 ∧ (r.getD 1 0).toNat = 0x4C ∧ (r.getD 2 0).toNat = 0x57 ∧
      (r.getD 3 0).toNat = 0x46 := by
  have hbyte {i : ℕ} (hi : i < 4) := toNat_getD_of_leValue hi h
  exact ⟨hbyte (by decide), hbyte (by decide), hbyte (by decide), hbyte (by decide)⟩

variable (crc32) in
theorem encode_front (hf : f.blockLen ≤ defaultWalBlockMaxBytes) (rest : Bytes) :
    leValue ((f.encode crc32 ++ rest).take 4) = frameMagic ∧
      leValue (((f.encode crc32 ++ rest).drop 4).take 4) = f.blockLen := by
  have hmag (bs : Bytes) : (leBytes 4 frameMagic ++ bs).take 4 = leBytes 4 frameMagic ∧
      (leBytes 4 frameMagic ++ bs).drop 4 = bs :=
    ⟨take_left' (length_leBytes ..), drop_left' (length_leBytes ..)⟩
  have hblk (bs : Bytes) : (leBytes 4 f.blockLen ++ bs).take 4 = leBytes 4 f.blockLen :=
    take_left' (length_leBytes ..)
  simp only [Frame.encode, encode, Frame.header, append_assoc, hmag, hblk]
  exact ⟨leValue_leBytes_of_lt (by decide), leValue_leBytes_of_lt (hf.trans_lt (by decide))⟩

/-- A frame torn within its first sixteen bytes is never accepted under a marking CRC: the magic,
the length or the CRC it is read with contains bytes of the next frame's magic or length. -/
theorem sixteen_le_of_readFrame {g : Frame} (hg : g.blockLen ≤ defaultWalBlockMaxBytes)
    {rest' : Bytes} (hj : j < f.size) (hj0 : 0 < j)
    (hr : readFrame (markCrc P) ((f.encode (markCrc P)).take j ++ (g.encode (markCrc P) ++ follow))
      = .item (h, body) rest') : 16 ≤ j := by
  by_contra hlt
  obtain ⟨hd, -, hcrc, -, -⟩ := readFrame_eq_item _ hr
  obtain ⟨-, hmag, hblk, -, hmax, hfld, -, -⟩ := decode_eq_some hd
  obtain ⟨hmag', hblk'⟩ := encode_front (markCrc P) hg follow
  have hmin' : frameHeaderSize ≤ g.blockLen := Nat.le_add_right _ _
  have hsm := markCrc_le P body
  -- Position `j + k` of the stream holds byte `k` of the next frame.
  have hsh (k : ℕ) :
      (((f.encode (markCrc P)).take j ++ (g.encode (markCrc P) ++ follow)).getD (j + k) 0).toNat
        = ((g.encode (markCrc P) ++ follow).getD k 0).toNat := by
    have hlen : ((f.encode (markCrc P)).take j).length = j := by
      rw [length_take, Frame.length_encode]
      exact min_eq_left hj.le
    rw [getD_eq_getElem?_getD, getD_eq_getElem?_getD,
      getElem?_append_right (by omega), hlen, Nat.add_sub_cancel_left]
  generalize (f.encode (markCrc P)).take j ++ (g.encode (markCrc P) ++ follow) = r at *
  generalize g.encode (markCrc P) ++ follow = next at *
  rw [hcrc, hfld, leValue_window] at hsm
  rw [hblk, leValue_window, defaultWalBlockMaxBytes] at hmax
  rw [← hblk', leValue_window, frameHeaderSize] at hmin'
  obtain ⟨_, _, _, _⟩ := bytes_of_magic hmag'
  obtain ⟨-, _, _, _⟩ := bytes_of_magic hmag
  have s0 := hsh 0
  have s1 := hsh 1
  have s2 := hsh 2
  have s3 := hsh 3
  have s4 := hsh 4
  have s5 := hsh 5
  have s6 := hsh 6
  have s7 := hsh 7
  interval_cases j <;> simp only [Nat.reduceAdd, Nat.add_zero] at * <;> omega

/-! ## Two constant CRCs -/

/-- The CRC function with a fixed value. -/
def constCrc (c : UInt32) : Bytes → UInt32 := fun _ ↦ c

/-- The two values `0` and `0x01010101` of a field differ in each of its bytes. -/
theorem getD_ne_of_fields {r' : Bytes} {a i : ℕ} (hi : i < 4)
    (h : leValue ((r.drop a).take 4) = (0 : UInt32).toNat)
    (h' : leValue ((r'.drop a).take 4) = (0x01010101 : UInt32).toNat) :
    r.getD (a + i) 0 ≠ r'.getD (a + i) 0 := by
  intro heq
  have hsame := congrArg UInt8.toNat heq
  rw [toNat_getD_window r a hi, toNat_getD_window r' a hi, h, h'] at hsame
  interval_cases i <;> exact absurd hsame (by decide)

/-- Replacing a middle part by one of the same length changes nothing outside of it. -/
theorem getElem?_append_congr {a b b' c : Bytes} (hb : b.length = b'.length) {i : ℕ}
    (hi : i < a.length ∨ a.length + b.length ≤ i) : (a ++ (b ++ c))[i]? = (a ++ (b' ++ c))[i]? := by
  rcases hi with hi | hi
  · rw [getElem?_append_left hi, getElem?_append_left hi]
  · rw [getElem?_append_right (by omega), getElem?_append_right (by omega),
      getElem?_append_right (by omega), getElem?_append_right (by omega), hb]

/-- Only the four bytes of the CRC field depend on the CRC function. -/
theorem encode_getElem? (c c' : UInt32) (f : Frame) {i : ℕ} (hi : i < 12 ∨ 16 ≤ i) :
    (f.encode (constCrc c))[i]? = (f.encode (constCrc c'))[i]? := by
  have key (d : UInt32) : f.encode (constCrc d)
      = (leBytes 4 frameMagic ++ (leBytes 4 f.blockLen ++ (leBytes 2 f.recordType.asU16 ++
          leBytes 2 f.payloadFormat))) ++ (leBytes 4 d.toNat ++ (leBytes 4 0 ++
            (leBytes 8 f.sequence ++ (leBytes 8 f.lsn ++ f.payload)))) := by
    simp only [Frame.encode, encode, Frame.header, constCrc, append_assoc]
  rw [key c, key c']
  refine getElem?_append_congr (by rw [length_leBytes, length_leBytes]) ?_
  simp only [length_append, length_leBytes]
  omega

/-- A position at which the CRC field would have to depend on the CRC function starts an entry. -/
theorem boundary_of_ne {c c' : UInt32} {r : ℕ} (hfst : (encodeLog (constCrc c) ipc log)[r + 12]? ≠
      (encodeLog (constCrc c') ipc log)[r + 12]?)
    (hlast : (encodeLog (constCrc c) ipc log)[r + 15]? ≠
      (encodeLog (constCrc c') ipc log)[r + 15]?) :
    ∃ k, r = ((log.take k).map (LogEntry.size ipc)).sum := by
  induction log generalizing r with
  | nil => exact absurd rfl hfst
  | cons e log ih =>
    have hlen (d : UInt32) : ((e.frame ipc).encode (constCrc d)).length = e.size ipc :=
      Frame.length_encode ..
    have hsize : 36 ≤ e.size ipc := Nat.le_add_right _ _
    rw [encodeLog_cons, encodeLog_cons] at hfst hlast
    rcases Nat.eq_zero_or_pos r with rfl | hr0
    · exact ⟨0, rfl⟩
    rcases Nat.lt_or_ge r (e.size ipc) with hr | hr
    · exfalso
      rcases Nat.lt_or_ge (r + 12) (e.size ipc) with hin | hout
      · rw [getElem?_append_left (by rw [hlen]; exact hin),
          getElem?_append_left (by rw [hlen]; exact hin)] at hfst
        have hr4 : r < 4 := by
          by_contra hge
          exact hfst (encode_getElem? c c' _ (.inr (by omega)))
        rw [getElem?_append_left (by rw [hlen]; omega),
          getElem?_append_left (by rw [hlen]; omega)] at hlast
        exact hlast (encode_getElem? c c' _ (.inr (by omega)))
      · rw [getElem?_append_right (by rw [hlen]; exact hout),
          getElem?_append_right (by rw [hlen]; exact hout), hlen, hlen] at hfst
        cases log with
        | nil => exact hfst rfl
        | cons e' =>
          have hlen' (d : UInt32) :
              r + 12 - e.size ipc < ((e'.frame ipc).encode (constCrc d)).length := by
            rw [Frame.length_encode, Frame.size, frameHeaderSize]
            omega
          rw [encodeLog_cons, encodeLog_cons, getElem?_append_left (hlen' c),
            getElem?_append_left (hlen' c')] at hfst
          exact hfst (encode_getElem? c c' _ (.inl (by omega)))
    · rw [getElem?_append_right (by rw [hlen]; omega),
        getElem?_append_right (by rw [hlen]; omega), hlen, hlen] at hfst hlast
      obtain ⟨k, _⟩ := ih (r := r - e.size ipc)
        (by rwa [show r - e.size ipc + 12 = r + 12 - e.size ipc by omega])
        (by rwa [show r - e.size ipc + 15 = r + 15 - e.size ipc by omega])
      refine ⟨k + 1, ?_⟩
      rw [take_succ_cons, map_cons, sum_cons]
      omega

/-- **A frame accepted under both constant CRCs starts at an entry of the log.** -/
theorem boundary_of_readFrame {r : ℕ} {a a' : FrameHeader × Bytes} {rest rest' : Bytes}
    (h0 : readFrame (constCrc 0) ((encodeLog (constCrc 0) ipc log).drop r) = .item a rest)
    (h1 : readFrame (constCrc 0x01010101) ((encodeLog (constCrc 0x01010101) ipc log).drop r)
      = .item a' rest') :
    ∃ k, r = ((log.take k).map (LogEntry.size ipc)).sum := by
  have hfld {c : UInt32} {a : FrameHeader × Bytes} {rest : Bytes}
      (h : readFrame (constCrc c) ((encodeLog (constCrc c) ipc log).drop r) = .item a rest) :
      leValue (((encodeLog (constCrc c) ipc log).drop (r + 12)).take 4) = c.toNat := by
    obtain ⟨hd, -, hcrc, -⟩ := readFrame_eq_item _ h
    obtain ⟨-, -, -, -, -, hfld, -⟩ := decode_eq_some hd
    rw [← hcrc, drop_drop] at hfld
    exact hfld.symm
  have hne {i : ℕ} (hi : i < 4) : (encodeLog (constCrc 0) ipc log)[r + 12 + i]?
      ≠ (encodeLog (constCrc 0x01010101) ipc log)[r + 12 + i]? :=
    fun heq ↦ getD_ne_of_fields hi (hfld h0) (hfld h1) (congrArg (Option.getD · 0) heq)
  exact boundary_of_ne (hne (i := 0) (by decide)) (hne (i := 3) (by decide))

end MonoTS
