import MonoTS.Catalog.Journal
import MonoTS.Wal.Misframe

/-!
# Reopening the metadata store on a torn WAL

A crash cuts `metadata.wal` at some byte. `MetaStore.open` reads the frames in front of the cut and
ignores the torn one, as it should, but it leaves the torn bytes in the file, and the records of
later calls are appended behind them. `TornCrash` collects what such a history depends on, and
`TornCrash.outcome` runs it: open, calls, cut, open, calls, open.

The next reader takes the torn header at its word. If fewer than four bytes of it are left it finds
a wrong magic and the store does not open at all. Otherwise it may read any number of the new bytes
as the missing payload; that they fail the CRC cannot be promised of an arbitrary function, but one
of three functions always rejects them (`exists_rejecting_crc`): two constant ones, under which only
the CRC field of a new frame can stand where the CRC is expected, and one that tells the torn
payload from the payloads shorter than it.
-/

open List

namespace MonoTS

open LittleEndian ByteStream MetaLog MetaStore

namespace MetaWal

/-! ## Cutting a file -/

/-- The number of frames that lie completely within the first `n` bytes. -/
def completeCount : ℕ → List Bytes → ℕ
  | _, [] => 0
  | n, p :: ps =>
    if frameHeaderLen + p.length ≤ n then completeCount (n - (frameHeaderLen + p.length)) ps + 1
    else 0

/-- The number of bytes a cut at `n` leaves of a frame it tears. -/
def tornBytes (n : ℕ) (ps : List Bytes) : ℕ := n - framesLength (ps.take (completeCount n ps))

variable {n : ℕ}

theorem completeCount_cons_of_le {p : Bytes} (h : frameHeaderLen + p.length ≤ n) (ps : List Bytes) :
    (p :: ps).take (completeCount n (p :: ps))
      = p :: ps.take (completeCount (n - (frameHeaderLen + p.length)) ps) := by
  rw [completeCount, if_pos h, take_succ_cons]

theorem tornBytes_cons_of_le {p : Bytes} (h : frameHeaderLen + p.length ≤ n)
    (ps : List Bytes) : tornBytes n (p :: ps) = tornBytes (n - (frameHeaderLen + p.length)) ps := by
  rw [tornBytes, completeCount_cons_of_le h, framesLength_cons, tornBytes, Nat.sub_sub]

theorem take_encodeFrames {ps : List Bytes} (hn : n ≤ framesLength ps) :
    (tornBytes n ps = 0 ∧ ∀ crc32, (encodeFrames crc32 ps).take n
      = encodeFrames crc32 (ps.take (completeCount n ps))) ∨
    ∃ p ∈ ps, 0 < tornBytes n ps ∧ tornBytes n ps < frameHeaderLen + p.length ∧
      ∀ crc32, (encodeFrames crc32 ps).take n
        = encodeFrames crc32 (ps.take (completeCount n ps)) ++
          (encodeFrame crc32 p).take (tornBytes n ps) := by
  induction ps generalizing n with
  | nil =>
    obtain rfl : n = 0 := Nat.le_zero.mp hn
    exact .inl ⟨rfl, fun _ ↦ rfl⟩
  | cons p ps ih =>
    rw [framesLength_cons] at hn
    by_cases hp : frameHeaderLen + p.length ≤ n
    · have htake (crc32 : Bytes → UInt32) : (encodeFrames crc32 (p :: ps)).take n
          = encodeFrame crc32 p ++
            (encodeFrames crc32 ps).take (n - (frameHeaderLen + p.length)) := by
        rw [encodeFrames_cons, take_append, length_encodeFrame,
          take_of_length_le (by rwa [length_encodeFrame])]
      rw [tornBytes_cons_of_le hp, completeCount_cons_of_le hp]
      rcases ih (n := n - (frameHeaderLen + p.length)) (by omega) with ⟨h0, h⟩ | ⟨q, hq, h0, hlt, h⟩
      · exact .inl ⟨h0, fun crc32 ↦ by rw [htake, h, encodeFrames_cons]⟩
      · refine .inr ⟨q, mem_cons_of_mem _ hq, h0, hlt, fun crc32 ↦ ?_⟩
        rw [htake, h, encodeFrames_cons, append_assoc]
    · have hcnt : completeCount n (p :: ps) = 0 := if_neg hp
      have htorn : tornBytes n (p :: ps) = n := by
        rw [tornBytes, hcnt]
        rfl
      have htake (crc32 : Bytes → UInt32) :
          (encodeFrames crc32 (p :: ps)).take n = (encodeFrame crc32 p).take n := by
        rw [encodeFrames_cons, take_append_of_le_length]
        rw [length_encodeFrame]
        omega
      rw [htorn, hcnt]
      rcases Nat.eq_zero_or_pos n with rfl | hpos
      · exact .inl ⟨rfl, fun _ ↦ rfl⟩
      · refine .inr ⟨p, mem_cons_self, hpos, by omega, fun crc32 ↦ ?_⟩
        rw [htake, take_zero, encodeFrames_nil, nil_append]

/-! ## A torn frame -/

variable {crc32 : Bytes → UInt32} {p : Bytes} {j : ℕ}

theorem length_torn (hj : j < frameHeaderLen + p.length) :
    ((encodeFrame crc32 p).take j).length = j := by
  rw [length_take, length_encodeFrame]
  exact min_eq_left hj.le

variable (crc32) in
theorem torn_fields (hp : p.length < 2 ^ 32) (hj : j < frameHeaderLen + p.length) (hj8 : 8 ≤ j)
    (follow : Bytes) :
    leValue (((encodeFrame crc32 p).take j ++ follow).take 4) = walMagic ∧
      leValue ((((encodeFrame crc32 p).take j ++ follow).drop 4).take 4) = p.length := by
  have hwin (a : ℕ) (ha : a + 4 ≤ j) :
      (((encodeFrame crc32 p).take j ++ follow).drop a).take 4
        = ((encodeFrame crc32 p).drop a).take 4 := by
    rw [slice_append (by rw [length_torn hj]; exact ha), drop_take, take_take,
      min_eq_left (by omega)]
  have h0 := hwin 0 (by omega)
  rw [drop_zero, drop_zero] at h0
  rw [h0, hwin 4 (by omega), encodeFrame, framed, take_left' (length_leBytes ..),
    drop_left' (length_leBytes ..), take_left' (length_leBytes ..)]
  exact ⟨leValue_leBytes_of_lt (by decide), leValue_leBytes_of_lt hp⟩

variable (crc32) in
theorem nextFrame_torn (hp : p.length < 2 ^ 32) (hj : j < frameHeaderLen + p.length) (hj0 : 0 < j) :
    ∃ stop, nextFrame crc32 ((encodeFrame crc32 p).take j) = .stop stop ∧
      ∀ remaining magic, stop ≠ .invalidMagic remaining magic := by
  have hlen : ((encodeFrame crc32 p).take j).length = j := length_torn hj
  rw [nextFrame, readFramed, hlen, if_neg (by omega)]
  by_cases h12 : j < 12
  · exact ⟨.trailingGarbage, by rw [if_pos h12], fun _ _ ↦ by simp⟩
  · obtain ⟨hmag, hfld⟩ := torn_fields crc32 hp hj (by omega) []
    rw [append_nil] at hmag hfld
    refine ⟨.partialRecord, ?_, fun _ _ ↦ by simp⟩
    simp only [getLE, hmag, hfld, drop_drop, length_drop, hlen]
    rw [if_neg h12, if_neg (by simp), if_pos (by unfold frameHeaderLen at hj; omega)]

/-! ## A torn frame with frames behind it -/

theorem bytes_of_walMagic {r : Bytes} (h : leValue (r.take 4) = walMagic) :
    (r.getD 0 0).toNat = 0x4D ∧ (r.getD 1 0).toNat = 0x42 ∧ (r.getD 2 0).toNat = 0x44 ∧
      (r.getD 3 0).toNat = 0x57 := by
  have hbyte {i : ℕ} (hi : i < 4) := toNat_getD_of_leValue hi h
  exact ⟨hbyte (by decide), hbyte (by decide), hbyte (by decide), hbyte (by decide)⟩

variable (crc32) in
theorem magic_encodeFrame (q rest : Bytes) :
    leValue ((encodeFrame crc32 q ++ rest).take 4) = walMagic := by
  rw [encodeFrame, framed, append_assoc, take_left' (length_leBytes ..)]
  exact leValue_leBytes_of_lt (by decide)

variable (crc32) in
/-- Position `j + k` of the stream holds byte `k` of what follows the torn frame. -/
theorem torn_getD (hj : j < frameHeaderLen + p.length) (follow : Bytes) (k : ℕ) :
    ((encodeFrame crc32 p).take j ++ follow).getD (j + k) 0 = follow.getD k 0 := by
  rw [getD_eq_getElem?_getD, getD_eq_getElem?_getD,
    getElem?_append_right (by rw [length_torn hj]; omega), length_torn hj,
    Nat.add_sub_cancel_left]

variable (crc32) in
/-- A frame torn within its magic makes the reader fail on the next one. -/
theorem nextFrame_torn_magic (hj : j < frameHeaderLen + p.length) (hj0 : 0 < j) (hj4 : j < 4)
    (q rest : Bytes) :
    ∃ remaining magic, nextFrame crc32 ((encodeFrame crc32 p).take j ++
      (encodeFrame crc32 q ++ rest)) = .stop (.invalidMagic remaining magic) := by
  obtain ⟨n0, -, -, -⟩ := bytes_of_walMagic (magic_encodeFrame crc32 q rest)
  have hsh := torn_getD crc32 hj (encodeFrame crc32 q ++ rest) 0
  have hlen : 12 ≤ ((encodeFrame crc32 p).take j ++ (encodeFrame crc32 q ++ rest)).length := by
    rw [length_append, length_append, length_encodeFrame, frameHeaderLen]
    omega
  generalize (encodeFrame crc32 p).take j ++ (encodeFrame crc32 q ++ rest) = r at *
  have hmag : leValue (r.take 4) ≠ walMagic := by
    intro h
    obtain ⟨-, _, _, _⟩ := bytes_of_walMagic h
    rw [← hsh] at n0
    interval_cases j <;> simp only [Nat.add_zero] at n0 <;> omega
  refine ⟨r.length, leValue (r.take 4), ?_⟩
  rw [nextFrame, readFramed, if_neg (by omega), if_neg (by omega)]
  exact if_pos hmag

/-- A frame torn within its length field is not accepted: the length it is read with contains a byte
of the next magic and is larger than the file. -/
theorem eight_le_of_nextFrame (hj : j < frameHeaderLen + p.length) (hj0 : 0 < j) {q rest : Bytes}
    (hsize : j + (encodeFrame crc32 q ++ rest).length < 2 ^ 30) {payload behind : Bytes}
    (h : nextFrame crc32 ((encodeFrame crc32 p).take j ++ (encodeFrame crc32 q ++ rest))
      = .item payload behind) : 8 ≤ j := by
  by_contra hlt
  obtain ⟨-, hmag, hlen, -, -, -⟩ := nextFrame_eq_item h
  obtain ⟨_, _, _, _⟩ := bytes_of_walMagic (magic_encodeFrame crc32 q rest)
  have hsh := torn_getD crc32 hj (encodeFrame crc32 q ++ rest)
  rw [length_append, length_torn hj, leValue_window] at hlen
  generalize (encodeFrame crc32 p).take j ++ (encodeFrame crc32 q ++ rest) = r at *
  generalize encodeFrame crc32 q ++ rest = follow at *
  obtain ⟨-, _, _, _⟩ := bytes_of_walMagic hmag
  have s0 := congrArg UInt8.toNat (hsh 0)
  have s1 := congrArg UInt8.toNat (hsh 1)
  have s2 := congrArg UInt8.toNat (hsh 2)
  have s3 := congrArg UInt8.toNat (hsh 3)
  interval_cases j <;> simp only [Nat.reduceAdd, Nat.add_zero] at * <;> omega

theorem encodeFrame_getElem? (c c' : UInt32) (q : Bytes) {i : ℕ} (hi : i < 8 + q.length) :
    (encodeFrame (constCrc c) q)[i]? = (encodeFrame (constCrc c') q)[i]? := by
  have key (d : UInt32) : encodeFrame (constCrc d) q
      = (leBytes 4 walMagic ++ (leBytes 4 q.length ++ q)) ++ leBytes 4 d.toNat := by
    simp only [encodeFrame, framed, constCrc, append_assoc]
  have hfrt : i < (leBytes 4 walMagic ++ (leBytes 4 q.length ++ q)).length := by
    simp only [length_append, length_leBytes]
    omega
  rw [key c, key c', getElem?_append_left hfrt, getElem?_append_left hfrt]

/-- Four bytes that depend on the CRC function are the CRC field of a frame. -/
theorem crcField_of_ne {c c' : UInt32} {qs : List Bytes} {r : ℕ}
    (hfst : (encodeFrames (constCrc c) qs)[r]? ≠ (encodeFrames (constCrc c') qs)[r]?)
    (hlast : (encodeFrames (constCrc c) qs)[r + 3]? ≠ (encodeFrames (constCrc c') qs)[r + 3]?) :
    ∃ pre q post, qs = pre ++ q :: post ∧ r = framesLength pre + (8 + q.length) := by
  induction qs generalizing r with
  | nil => exact absurd rfl hfst
  | cons q qs ih =>
    have hlen (d : UInt32) : (encodeFrame (constCrc d) q).length = 12 + q.length :=
      length_encodeFrame ..
    rw [encodeFrames_cons, encodeFrames_cons] at hfst hlast
    by_cases hr : r < 12 + q.length
    · rw [getElem?_append_left (by rwa [hlen]), getElem?_append_left (by rwa [hlen])] at hfst
      have hge : 8 + q.length ≤ r := by
        by_contra hlt
        exact hfst (encodeFrame_getElem? c c' q (Nat.not_le.mp hlt))
      refine ⟨[], q, qs, rfl, ?_⟩
      -- If the field started later, its last byte would lie in the next magic.
      by_contra hne
      have hgt : 12 + q.length ≤ r + 3 := by
        have hzero : framesLength [] = 0 := rfl
        omega
      rw [getElem?_append_right (by rwa [hlen]), getElem?_append_right (by rwa [hlen]),
        hlen, hlen] at hlast
      cases qs with
      | nil => exact hlast rfl
      | cons q' =>
        have hlen' (d : UInt32) :
            r + 3 - (12 + q.length) < (encodeFrame (constCrc d) q').length := by
          rw [length_encodeFrame, frameHeaderLen]
          omega
        rw [encodeFrames_cons, encodeFrames_cons, getElem?_append_left (hlen' c),
          getElem?_append_left (hlen' c')] at hlast
        exact hlast (encodeFrame_getElem? c c' q' (by omega))
    · rw [getElem?_append_right (by rw [hlen]; omega),
        getElem?_append_right (by rw [hlen]; omega), hlen, hlen] at hfst hlast
      obtain ⟨pre, q', post, hqs, _⟩ := ih (r := r - (12 + q.length)) hfst
        (by rwa [show r - (12 + q.length) + 3 = r + 3 - (12 + q.length) by omega])
      refine ⟨q :: pre, q', post, by rw [hqs, cons_append], ?_⟩
      rw [framesLength_cons, frameHeaderLen]
      omega

/-- `1` on the payloads of a given length, `0` on all others. -/
def lengthMarkCrc (len : ℕ) : Bytes → UInt32 := fun payload ↦ if payload.length = len then 1 else 0

/-- What is accepted of a torn frame whose length field is left: the CRC stands where the frame's
own would have stood. -/
theorem torn_item (hp : p.length < 2 ^ 32) (hj : j < frameHeaderLen + p.length) (hj8 : 8 ≤ j)
    {follow payload behind : Bytes}
    (h : nextFrame crc32 ((encodeFrame crc32 p).take j ++ follow) = .item payload behind) :
    payload.length = p.length ∧
      leValue ((((encodeFrame crc32 p).take j ++ follow).drop (8 + p.length)).take 4)
        = (crc32 payload).toNat := by
  obtain ⟨-, -, hlen, hpay, hcrc, -⟩ := nextFrame_eq_item h
  obtain ⟨-, hfld⟩ := torn_fields crc32 hp hj hj8 follow
  rw [hfld] at hlen hpay hcrc
  refine ⟨?_, hcrc⟩
  rw [hpay, length_take, length_drop]
  omega

theorem crcField_encodeFrames (crc32 : Bytes → UInt32) (pre : List Bytes) (q : Bytes)
    (post : List Bytes) :
    leValue (((encodeFrames crc32 (pre ++ q :: post)).drop
      (framesLength pre + (8 + q.length))).take 4) = (crc32 q).toNat := by
  have hfrt : (leBytes 4 walMagic ++ (leBytes 4 q.length ++ q)).length = 8 + q.length := by
    simp only [length_append, length_leBytes]
    omega
  have hfr : encodeFrame crc32 q = (leBytes 4 walMagic ++ (leBytes 4 q.length ++ q)) ++
      leBytes 4 (crc32 q).toNat := by
    simp only [encodeFrame, framed, append_assoc]
  rw [encodeFrames_append, ← drop_drop, drop_left' (length_encodeFrames ..),
    encodeFrames_cons, hfr, append_assoc, drop_left' hfrt,
    take_left' (length_leBytes ..)]
  exact leValue_leBytes_of_lt (crc32 q).toNat_lt

/-- **One of three CRC functions rejects the torn frame, whatever is appended behind it.** -/
theorem exists_rejecting_crc (hp : p.length < 2 ^ 32) (hj : j < frameHeaderLen + p.length)
    (hj0 : 0 < j) {qs : List Bytes} (hqs : qs ≠ []) (hsize : j + framesLength qs < 2 ^ 30) :
    ∃ crc32 stop, nextFrame crc32 ((encodeFrame crc32 p).take j ++ encodeFrames crc32 qs)
      = .stop stop := by
  by_contra hall
  have hitem (crc32 : Bytes → UInt32) : ∃ payload behind,
      nextFrame crc32 ((encodeFrame crc32 p).take j ++ encodeFrames crc32 qs)
        = .item payload behind := by
    cases h : nextFrame crc32 ((encodeFrame crc32 p).take j ++ encodeFrames crc32 qs) with
    | stop stop => exact absurd ⟨crc32, stop, h⟩ hall
    | item payload behind => exact ⟨payload, behind, rfl⟩
  have hj8 : 8 ≤ j := by
    obtain ⟨payload, behind, h⟩ := hitem (constCrc 0)
    obtain ⟨q, qs, rfl⟩ := exists_cons_of_ne_nil hqs
    rw [encodeFrames_cons] at h
    refine eight_le_of_nextFrame hj hj0 ?_ h
    rwa [← encodeFrames_cons, length_encodeFrames]
  have hj12 : j < 12 + p.length := hj
  -- Under the two constants the bytes in the place of the CRC are all `0` and all `1`.
  have hfld (c : UInt32) : leValue ((((encodeFrame (constCrc c) p).take j ++
      encodeFrames (constCrc c) qs).drop (8 + p.length)).take 4) = c.toNat := by
    obtain ⟨payload, behind, h⟩ := hitem (constCrc c)
    exact (torn_item hp hj hj8 h).2
  have hdiff {i : ℕ} (hi : i < 4) (hge : j ≤ 8 + p.length + i) :
      (encodeFrames (constCrc 0) qs)[8 + p.length + i - j]?
        ≠ (encodeFrames (constCrc 0x01010101) qs)[8 + p.length + i - j]? := by
    intro heq
    have hsh (c : UInt32) := torn_getD (constCrc c) hj (encodeFrames (constCrc c) qs)
      (8 + p.length + i - j)
    rw [show j + (8 + p.length + i - j) = 8 + p.length + i by omega] at hsh
    exact getD_ne_of_fields hi (hfld 0) (hfld 0x01010101)
      ((hsh 0).trans ((congrArg (Option.getD · 0) heq).trans (hsh 0x01010101).symm))
  have hlast := hdiff (i := 3) (by decide) (by omega)
  by_cases hge : j ≤ 8 + p.length
  · obtain ⟨pre, q, _, rfl, _⟩ := crcField_of_ne (hdiff (i := 0) (by decide) hge)
      (by rwa [show 8 + p.length + 0 - j + 3 = 8 + p.length + 3 - j by omega])
    -- The CRC read is that of a payload shorter than the torn one.
    obtain ⟨_, _, h⟩ := hitem (lengthMarkCrc p.length)
    obtain ⟨hlen, hcrc⟩ := torn_item hp hj hj8 h
    rw [drop_append, length_torn hj, drop_eq_nil_of_le (by rw [length_torn hj]; omega),
      nil_append, show 8 + p.length - j = framesLength pre + (8 + q.length) by omega,
      crcField_encodeFrames, lengthMarkCrc, lengthMarkCrc, if_neg (by omega), if_pos hlen] at hcrc
    exact absurd hcrc (by decide)
  · obtain ⟨q, _, rfl⟩ := exists_cons_of_ne_nil hqs
    have hlen (d : UInt32) : 8 + p.length + 3 - j < (encodeFrame (constCrc d) q).length := by
      rw [length_encodeFrame, frameHeaderLen]
      omega
    rw [encodeFrames_cons, encodeFrames_cons, getElem?_append_left (hlen 0),
      getElem?_append_left (hlen 0x01010101)] at hlast
    exact hlast (encodeFrame_getElem? 0 0x01010101 q (by omega))

end MetaWal

open MetaWal

/-! ## The history -/

/-- Calls, a cut of the WAL at a byte, an `open` on the cut file, further calls. Each of the three
`open`s has its own memory limit. -/
structure TornCrash where
  firstLimit : ℕ
  calls : List (ℤ × MetaCall)
  cut : ℕ
  secondLimit : ℕ
  later : List (ℤ × MetaCall)
  thirdLimit : ℕ

namespace TornCrash

section

variable (codec : RecordCodec) (normalize : String → Result String) (x : TornCrash)

/-- The journal at the crash. -/
def written : MetaLog :=
  ((opened x.firstLimit 0 none []).run codec normalize x.calls).1

def payloads : List Bytes := (x.written codec normalize).records.map codec.encode

/-- The bytes left of the frame that is torn; none when the cut falls between two frames. -/
def torn : ℕ := tornBytes x.cut (x.payloads codec normalize)

/-- The records whose frames lie completely before the cut. -/
def before : List MetadataRecord :=
  (x.written codec normalize).records.take
    (completeCount x.cut (x.payloads codec normalize))

/-- These records applied to the snapshot. -/
def restored : MetaMaps :=
  ((x.before codec normalize).foldl applyRecord
    (snapshotState (x.written codec normalize).snapshot)).1

/-- The journal of the store that is opened on the cut file. -/
def reopened : MetaLog :=
  .opened x.secondLimit x.cut (x.written codec normalize).snapshot
    (x.before codec normalize)

/-- The operations acknowledged after the crash. -/
def acknowledged : List RecordOp :=
  ((x.reopened codec normalize).run codec normalize x.later).2

/-- The cut lies within the file. -/
def Inside : Prop := x.cut ≤ framesLength (x.payloads codec normalize)

/-- The calls after the crash stay below the compaction thresholds. -/
def StaysBelow : Prop :=
  (x.reopened codec normalize).StaysBelow codec normalize x.later

/-- What the cut leaves of the next frame: nothing, or its first bytes. -/
def Leaves (tail : (Bytes → UInt32) → Bytes) : Prop :=
  (x.torn codec normalize = 0 ∧ ∀ crc32, tail crc32 = []) ∨
    ∃ p : Bytes, p.length < 2 ^ 32 ∧ 0 < x.torn codec normalize ∧
      x.torn codec normalize < frameHeaderLen + p.length ∧
      ∀ crc32, tail crc32 = (encodeFrame crc32 p).take (x.torn codec normalize)

variable (crc32 : Bytes → UInt32)

/-- The maps after the last `open`, with the operations acknowledged since the crash. -/
def outcome : Result (MetaMaps × List RecordOp) := do
  let first ← MetaStore.open crc32 codec normalize x.firstLimit .empty
  let disk := (first.run crc32 codec normalize x.calls).1.disk
  let second ← MetaStore.open crc32 codec normalize x.secondLimit
    { disk with wal := disk.wal.take x.cut }
  let (node, ops) := second.run crc32 codec normalize x.later
  let third ← MetaStore.open crc32 codec normalize x.thirdLimit node.disk
  return (third.store.toMetaMaps, ops)

/-- Every `open` succeeds, and the last one has the records before the cut and then all operations
acknowledged since. -/
def Survives : Prop :=
  ∃ maps ops, x.outcome codec normalize crc32 = .ok (maps, ops) ∧
    maps.Same (ops.foldl MetaMaps.apply (x.restored codec normalize))

end

variable {codec : RecordCodec} {normalize : String → Result String} {x : TornCrash}

variable (codec normalize x) in
theorem sound_written : (x.written codec normalize).Sound codec normalize :=
  (Sound.run (fun _ ↦ 0) x.calls (sound_opened_nil codec normalize x.firstLimit)).1

theorem run_calls (crc32 : Bytes → UInt32) :
    ((opened x.firstLimit 0 none []).node
        ((opened x.firstLimit 0 none []).file crc32 codec)).run crc32 codec
          normalize x.calls
      = ((x.written codec normalize).node (encodeFrames crc32 (x.payloads codec normalize)),
        ((opened x.firstLimit 0 none []).run codec normalize x.calls).2) :=
  (Sound.run crc32 x.calls (sound_opened_nil codec normalize x.firstLimit)).2

theorem length_lt_of_mem {ps : List Bytes} {p : Bytes} (hp : p ∈ ps)
    (h : framesLength ps < maxWalBytes) : p.length < 2 ^ 32 := by
  have hmem := mem_map_of_mem (f := fun payload : Bytes ↦ frameHeaderLen + payload.length) hp
  have hle := le_sum_of_mem hmem
  rw [framesLength] at h
  unfold maxWalBytes at h
  omega

theorem bytes_lt_of_below {wal : MetaWal} (h : wal.needsCompaction = false) :
    wal.bytes < maxWalBytes := by
  rw [MetaWal.needsCompaction, Bool.or_eq_false_iff] at h
  exact Nat.not_le.mp (of_decide_eq_false h.2)

theorem framesLength_payloads_lt : framesLength (x.payloads codec normalize) < maxWalBytes := by
  have h := sound_written codec normalize x
  exact h.bytes ▸ bytes_lt_of_below h.below

/-- The cut file: the complete frames and what is left of the next one. -/
theorem cut_file (hx : x.Inside codec normalize) :
    ∃ tail : (Bytes → UInt32) → Bytes,
      (∀ crc32, (encodeFrames crc32 (x.payloads codec normalize)).take x.cut
        = encodeFrames crc32 ((x.before codec normalize).map codec.encode) ++ tail crc32) ∧
      x.Leaves codec normalize tail := by
  have hbef : (x.before codec normalize).map codec.encode
      = (x.payloads codec normalize).take
          (completeCount x.cut (x.payloads codec normalize)) := map_take ..
  rcases take_encodeFrames hx with ⟨h0, h⟩ | ⟨p, hp, h0, hlt, h⟩
  · refine ⟨fun _ ↦ [], fun crc32 ↦ ?_, .inl ⟨h0, fun _ ↦ rfl⟩⟩
    rw [h, hbef, append_nil]
  · refine ⟨fun crc32 ↦ (encodeFrame crc32 p).take (x.torn codec normalize),
      fun crc32 ↦ ?_, .inr ⟨p, ?_, h0, hlt, fun _ ↦ rfl⟩⟩
    · rw [h, hbef]
      rfl
    · exact length_lt_of_mem hp framesLength_payloads_lt

variable (codec normalize x) in
theorem valid_before : ∀ r ∈ x.before codec normalize, r.Valid normalize :=
  fun r hr ↦ (sound_written codec normalize x).valid r (mem_of_mem_take hr)

variable (codec normalize x) in
theorem length_before : ∀ p ∈ (x.before codec normalize).map codec.encode, p.length < 2 ^ 32 := by
  intro p hp
  obtain ⟨_, hr, rfl⟩ := mem_map.mp hp
  exact length_lt_of_mem (mem_map_of_mem (mem_of_mem_take hr)) framesLength_payloads_lt

/-- The store with the given file behind the snapshot of the crash. -/
def diskWith (codec : RecordCodec) (normalize : String → Result String) (x : TornCrash)
    (file : Bytes) : MetaDisk :=
  ⟨some PersistMode.durable.asStr, file, (x.written codec normalize).snapshot⟩

variable {crc32 : Bytes → UInt32} {file : Bytes}

theorem open_diskWith (hsnap : SnapshotFits codec (x.written codec normalize).snapshot)
    {records : List MetadataRecord}
    (hread : decodeAllFrames crc32 file = .ok (records.map codec.encode))
    (hval : ∀ r ∈ records, r.Valid normalize) (limit : ℕ) :
    MetaStore.open crc32 codec normalize limit (x.diskWith codec normalize file)
      = .ok ((opened limit file.length
          (x.written codec normalize).snapshot records).node file) := by
  have hsnd := sound_written codec normalize x
  have hread : decodeAllFrames crc32 (x.diskWith codec normalize file).wal
      = .ok (records.map codec.encode) := hread
  exact open_eq hread (loadSnapshot_eq hsnd.version hsnap crc32) hsnd.base hval limit

theorem open_diskWith_error {e : TsdbError} (hread : decodeAllFrames crc32 file = .error e)
    (limit : ℕ) :
    MetaStore.open crc32 codec normalize limit (x.diskWith codec normalize file)
      = .error e :=
  open_of_error (show decodeAllFrames crc32 (x.diskWith ..).wal = .error e from hread)
    limit

section

variable (hx : x.Inside codec normalize)

include hx

theorem decodeAllFrames_cut (crc32 : Bytes → UInt32) :
    decodeAllFrames crc32 ((encodeFrames crc32 (x.payloads codec normalize)).take x.cut)
      = .ok ((x.before codec normalize).map codec.encode) := by
  obtain ⟨_, hcut, htail⟩ := cut_file hx
  rw [hcut]
  rcases htail with ⟨-, htail⟩ | ⟨_, hp, h0, hlt, htail⟩
  · rw [htail, append_nil]
    exact decodeAllFrames_encodeFrames (length_before codec normalize x)
  · obtain ⟨_, hstop, hmag⟩ := nextFrame_torn crc32 hp hlt h0
    rw [htail]
    exact decodeAllFrames_of_stop (length_before codec normalize x) hstop hmag

theorem open_cut (hsnap : SnapshotFits codec (x.written codec normalize).snapshot)
    (crc32 : Bytes → UInt32) :
    MetaStore.open crc32 codec normalize x.secondLimit
        { ((x.written codec normalize).node
            (encodeFrames crc32 (x.payloads codec normalize))).disk with
          wal := (encodeFrames crc32 (x.payloads codec normalize)).take x.cut }
      = .ok ((x.reopened codec normalize).node
          ((encodeFrames crc32 (x.payloads codec normalize)).take x.cut)) := by
  have hlen : ((encodeFrames crc32 (x.payloads codec normalize)).take x.cut).length = x.cut := by
    rw [length_take, length_encodeFrames]
    exact min_eq_left hx
  have hopen := open_diskWith hsnap (decodeAllFrames_cut hx crc32)
    (valid_before codec normalize x) x.secondLimit
  rw [hlen] at hopen
  exact hopen

theorem reopened_below : (x.reopened codec normalize).store.wal.needsCompaction = false := by
  have hsnd := sound_written codec normalize x
  have hbelow := hsnd.below
  have hlen : (x.before codec normalize).length
      ≤ (x.written codec normalize).records.length := length_take_le' ..
  rw [needsCompaction, Bool.or_eq_false_iff, decide_eq_false_iff_not, decide_eq_false_iff_not]
    at hbelow ⊢
  rw [hsnd.count, hsnd.bytes] at hbelow
  exact ⟨fun h ↦ hbelow.1 (h.trans hlen), fun h ↦ hbelow.2 (h.trans hx)⟩

/-- **The first reopening succeeds and the later records follow the cut file.** -/
theorem outcome_eq (hsnap : SnapshotFits codec (x.written codec normalize).snapshot)
    (hbelow : x.StaysBelow codec normalize) :
    ∃ tail : (Bytes → UInt32) → Bytes, ∃ new : List MetadataRecord,
      x.Leaves codec normalize tail ∧
      new.map MetadataRecord.op = (x.acknowledged codec normalize).map some ∧
      (∀ r ∈ new, r.Valid normalize) ∧
      x.cut + framesLength (new.map codec.encode) < maxWalBytes ∧
      ∀ crc32, x.outcome codec normalize crc32 =
        (MetaStore.open crc32 codec normalize x.thirdLimit (x.diskWith codec normalize
            (encodeFrames crc32 ((x.before codec normalize).map codec.encode) ++
              (tail crc32 ++ encodeFrames crc32 (new.map codec.encode))))).map
          fun n ↦ (n.store.toMetaMaps, x.acknowledged codec normalize) := by
  obtain ⟨tail, hcut, htail⟩ := cut_file hx
  obtain ⟨new, happ, hrun⟩ := run_appends x.later
    (l := x.reopened codec normalize) ⟨rfl, rfl⟩ (reopened_below hx) hbelow
  refine ⟨tail, new, htail, happ.ops, happ.valid, ?_, fun crc32 ↦ ?_⟩
  · have hbs := bytes_lt_of_below happ.below
    rwa [happ.bytes] at hbs
  · simp only [outcome, open_empty, run_calls, bind, Except.bind]
    rw [show ((x.written codec normalize).node
      (encodeFrames crc32 (x.payloads codec normalize))).disk.wal
        = encodeFrames crc32 (x.payloads codec normalize) from rfl, open_cut hx hsnap crc32]
    simp only [hrun]
    rw [hcut, append_assoc]
    have hdisk : (((x.reopened codec normalize).run codec normalize x.later).1.node
        (encodeFrames crc32 ((x.before codec normalize).map codec.encode) ++
          (tail crc32 ++ encodeFrames crc32 (new.map codec.encode)))).disk
        = x.diskWith codec normalize
            (encodeFrames crc32 ((x.before codec normalize).map codec.encode) ++
              (tail crc32 ++ encodeFrames crc32 (new.map codec.encode))) := by
      rw [node, happ.snapshot]
      rfl
    rw [hdisk]
    cases MetaStore.open crc32 codec normalize x.thirdLimit _ <;> rfl

end

/-- If the last `open` reads the records before the cut and then all acknowledged ones, the crash is
survived. -/
theorem survives_of_read (hsnap : SnapshotFits codec (x.written codec normalize).snapshot)
    {new : List MetadataRecord}
    (hout : x.outcome codec normalize crc32 = (MetaStore.open crc32 codec normalize x.thirdLimit
        (x.diskWith codec normalize file)).map
          fun n ↦ (n.store.toMetaMaps, x.acknowledged codec normalize))
    (hops : new.map MetadataRecord.op = (x.acknowledged codec normalize).map some)
    (hval : ∀ r ∈ new, r.Valid normalize) (hread : decodeAllFrames crc32 file
      = .ok ((x.before codec normalize ++ new).map codec.encode)) :
    x.Survives codec normalize crc32 := by
  have hall : ∀ r ∈ x.before codec normalize ++ new, r.Valid normalize := by
    intro r hr
    rcases mem_append.mp hr with hr | hr
    · exact valid_before codec normalize x r hr
    · exact hval r hr
  rw [open_diskWith hsnap hread hall] at hout
  refine ⟨_, _, hout, fun table ↦ ?_⟩
  have hmaps : (opened x.thirdLimit file.length (x.written codec normalize).snapshot
      (x.before codec normalize ++ new)).store.toMetaMaps
      = (x.acknowledged codec normalize).foldl MetaMaps.apply
          (x.restored codec normalize) := by
    rw [restored, ← foldl_applyRecord_fst hops, ← foldl_append]
    rfl
  rw [node, hmaps]
  exact ⟨rfl, rfl⟩

/-- **A torn WAL tail and the calls made after it.** If the cut falls between two frames, or nothing
is acknowledged after the reopening, the crash is survived whatever the CRC is. Otherwise it is not:
with fewer than four bytes of the torn frame left the store cannot be opened again, and with more
the acknowledged operations are lost unless they changed nothing. -/
theorem metaStore_survives_torn_tail (codec : RecordCodec)
    (normalize : String → Result String) (x : TornCrash)
    (hx : x.Inside codec normalize) (hbelow : x.StaysBelow codec normalize)
    (hsnap : SnapshotFits codec (x.written codec normalize).snapshot) :
    (x.torn codec normalize = 0 ∨ x.acknowledged codec normalize = [] →
      ∀ crc32, x.Survives codec normalize crc32) ∧
    ((∀ crc32, x.Survives codec normalize crc32) →
      x.torn codec normalize = 0 ∨ x.acknowledged codec normalize = [] ∨
        (4 ≤ x.torn codec normalize ∧ (x.restored codec normalize).Same
            ((x.acknowledged codec normalize).foldl MetaMaps.apply
              (x.restored codec normalize)))) := by
  obtain ⟨_, new, htail, hops, hval, hsize, hout⟩ := outcome_eq hx hsnap hbelow
  have hnew : ∀ p ∈ new.map codec.encode, p.length < 2 ^ 32 :=
    fun p hp ↦ length_lt_of_mem hp (by omega)
  constructor
  · intro h crc32
    refine survives_of_read hsnap (hout crc32) hops hval ?_
    rcases htail with ⟨-, htail⟩ | ⟨p, hp, h0, hlt, htail⟩
    · rw [htail, nil_append, ← encodeFrames_append, ← map_append]
      refine decodeAllFrames_encodeFrames fun p hp ↦ ?_
      rw [map_append] at hp
      rcases mem_append.mp hp with hp | hp
      · exact length_before codec normalize x p hp
      · exact hnew p hp
    · have hack : x.acknowledged codec normalize = [] := h.resolve_left (by omega)
      rw [hack] at hops
      obtain rfl : new = [] := map_eq_nil_iff.mp hops
      obtain ⟨stop, hstop, hmag⟩ := nextFrame_torn crc32 hp hlt h0
      rw [htail, map_nil, encodeFrames_nil, append_nil, append_nil]
      exact decodeAllFrames_of_stop (length_before codec normalize x) hstop hmag
  · intro hsurv
    rcases htail with ⟨h0, -⟩ | ⟨_, hp, h0, hlt, htail⟩
    · exact .inl h0
    by_cases hack : x.acknowledged codec normalize = []
    · exact .inr (.inl hack)
    right
    right
    have hne : new.map codec.encode ≠ [] := by
      intro hnil
      rw [map_eq_nil_iff.mp hnil] at hops
      exact hack (map_eq_nil_iff.mp hops.symm)
    have hcut : x.torn codec normalize ≤ x.cut := Nat.sub_le ..
    constructor
    · -- Within the magic, the next frame is an error of the read.
      by_contra hlt4
      obtain ⟨maps, ops, hok, -⟩ := hsurv (constCrc 0)
      obtain ⟨q, qs, hqs⟩ := exists_cons_of_ne_nil hne
      obtain ⟨remaining, magic, hstop⟩ := nextFrame_torn_magic (constCrc 0) hlt h0
        (by omega) q (encodeFrames (constCrc 0) qs)
      rw [← encodeFrames_cons, ← hqs, ← htail] at hstop
      obtain ⟨e, he⟩ :=
        decodeAllFrames_of_invalidMagic (length_before codec normalize x) hstop
      rw [hout, open_diskWith_error he] at hok
      cases hok
    · obtain ⟨crc32, stop, hstop⟩ := exists_rejecting_crc hp hlt h0 hne
        (by unfold maxWalBytes at hsize; omega)
      rw [← htail] at hstop
      obtain ⟨_, _, hok, hsame⟩ := hsurv crc32
      rw [hout] at hok
      by_cases hmag : ∀ remaining magic, stop ≠ .invalidMagic remaining magic
      · have hread := decodeAllFrames_of_stop (length_before codec normalize x) hstop hmag
        rw [open_diskWith hsnap hread (valid_before codec normalize x)] at hok
        cases hok
        exact hsame
      · push Not at hmag
        obtain ⟨_, _, rfl⟩ := hmag
        obtain ⟨_, he⟩ := decodeAllFrames_of_invalidMagic
          (length_before codec normalize x) hstop
        rw [open_diskWith_error he] at hok
        cases hok

/-- One table is created, the WAL is cut at a byte, and after the reopening another table is
created. -/
def createTwice (cut : ℕ) : TornCrash :=
  ⟨4096, [(0, .createSchema (timeSchema "t"))], cut, 4096, [(0, .createSchema (timeSchema "u"))],
    4096⟩

/-- With the cut behind the first record both tables are there. -/
theorem survives_cut_between_frames :
    (createTwice 35).Inside .plain .ok ∧ (createTwice 35).StaysBelow .plain .ok ∧
      (createTwice 35).acknowledged .plain .ok = [.putSchema (some (timeSchema "u"))] ∧
      ∀ crc32, (createTwice 35).Survives .plain .ok crc32 := by
  have hin : (createTwice 35).Inside .plain .ok := by
    unfold Inside
    decide +kernel
  have hbelow : (createTwice 35).StaysBelow .plain .ok := by
    refine ⟨?_, trivial⟩
    unfold Fits
    decide +kernel
  exact ⟨hin, hbelow, by decide +kernel,
    (metaStore_survives_torn_tail .plain .ok _ hin hbelow (by decide +kernel)).1
      (.inl (by decide +kernel))⟩

/-- With the cut inside of the first record the second table is created, acknowledged, and gone
after the next `open`. -/
theorem create_behind_torn_frame_lost :
    (createTwice 20).Inside .plain .ok ∧ (createTwice 20).StaysBelow .plain .ok ∧
      (createTwice 20).acknowledged .plain .ok = [.putSchema (some (timeSchema "u"))] ∧
      ¬ (createTwice 20).Survives .plain .ok lengthCrc := by
  refine ⟨?_, ⟨?_, trivial⟩, by decide +kernel, ?_⟩
  · unfold Inside
    decide +kernel
  · unfold Fits
    decide +kernel
  · rintro ⟨maps, ops, hout, hsame⟩
    have hlost : ((createTwice 20).outcome .plain .ok lengthCrc).map
          (fun (maps, ops) ↦ (maps.schemas.lookup "u", ops))
        = .ok (none, [.putSchema (some (timeSchema "u"))]) := by decide +kernel
    rw [hout] at hlost
    obtain ⟨hnone, rfl⟩ := Prod.mk.inj (Except.ok.inj hlost)
    have hsome := (hsame "u").1
    rw [show maps.schemas.lookup "u" = none from hnone] at hsome
    exact absurd hsome (by decide +kernel)

/-! ## Restarts without a crash -/

/-- **A restart finds the metadata**, whether the store has compacted its WAL or not: the maps that
the calls before have left. Only a snapshot that is too long for its length field can be lost. -/
theorem reopened_same_maps (crc32 : Bytes → UInt32) (codec : RecordCodec)
    (normalize : String → Result String) (limit limit' : ℕ) (calls : List (ℤ × MetaCall)) :
    ∃ first, MetaStore.open crc32 codec normalize limit .empty = .ok first ∧
      let left := (first.run crc32 codec normalize calls).1
      SnapshotFits codec left.disk.snapshot → ∃ second,
        MetaStore.open crc32 codec normalize limit' left.disk = .ok second ∧
        second.store.toMetaMaps = left.store.toMetaMaps ∧ second.store.seq = left.store.seq := by
  obtain ⟨h, hrun⟩ := Sound.run crc32 calls (sound_opened_nil codec normalize limit)
  generalize ((opened limit 0 none []).run codec normalize calls).1 = l at h hrun
  have hread : decodeAllFrames crc32 (l.node (l.file crc32 codec)).disk.wal
      = .ok (l.records.map codec.encode) := decodeAllFrames_encodeFrames fun p hp ↦
    length_lt_of_mem hp (h.bytes ▸ bytes_lt_of_below h.below)
  refine ⟨_, open_empty .., ?_⟩
  dsimp only
  rw [hrun]
  intro hfits
  exact ⟨_, open_eq hread (loadSnapshot_eq h.version hfits crc32) h.base h.valid limit',
    congrArg Prod.fst h.state, congrArg Prod.snd h.state⟩

theorem created_table_reopened :
    ∃ first second, MetaStore.open lengthCrc .plain .ok 4096 .empty = .ok first ∧
      MetaStore.open lengthCrc .plain .ok 4096 (first.run lengthCrc .plain .ok
        [(0, .createSchema (timeSchema "t"))]).1.disk = .ok second := by
  obtain ⟨first, hfirst, h⟩ := reopened_same_maps lengthCrc .plain .ok 4096 4096
    [(0, .createSchema (timeSchema "t"))]
  obtain rfl := Except.ok.inj (hfirst.symm.trans (open_empty ..))
  obtain ⟨second, hsecond, -⟩ := h (by decide +kernel)
  exact ⟨_, second, hfirst, hsecond⟩

end TornCrash

end MonoTS
