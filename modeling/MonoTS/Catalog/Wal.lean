import MonoTS.Wal.Format

/-!
# The metadata WAL

`metadata.wal` is a sequence of frames: a magic number, the length of the payload, the payload and
its CRC. The writer opens the file in append mode and never looks at what is already there; the
reader goes through the frames and stops at the first one that is incomplete or fails its CRC. A
frame with the wrong magic is an error of the whole read.

The file itself is a byte string held by the caller, since it outlives the `MetaWal` that writes it.
A missing file reads like an empty one.

An append can fail in several ways, and they leave different things behind: `AppendIo` says which of
the system calls fails and how far the write got. The writer is buffered, so that bytes of a failed
append may stay in the buffer and reach the file with a later one.
-/

open List

namespace MonoTS

open LittleEndian ByteStream

/-- What the system does with the calls of one append. -/
inductive AppendIo where
  | done
  /-- The file cannot be opened. -/
  | openFails
  /-- A write or the flush fails: `written` bytes have reached the file, the next `kept` stay in the
  buffer, and the rest was never handed to the writer. -/
  | writeFails (written kept : ℕ)
  /-- Everything is written and `sync_data` fails. -/
  | syncFails
  deriving DecidableEq, Repr

/-- The writer of the metadata WAL and its counters. -/
structure MetaWal where
  /-- The open writer, as the bytes in its buffer. -/
  file : Option Bytes
  records : ℕ
  bytes : ℕ

namespace MetaWal

def walMagic : ℕ := 0x5744424D

def maxWalBytes : ℕ := 512 * 1024

def maxWalRecords : ℕ := 64

def frameHeaderLen : ℕ := 12

def ioError : TsdbError := .storage "IO error"

/-! ## Frames -/

variable (crc32 : Bytes → UInt32)

/-- A frame; that of a snapshot has another magic. The length field holds `payload.len() as u32`. -/
def framed (magic : ℕ) (payload : Bytes) : Bytes :=
  leBytes 4 magic ++ (leBytes 4 payload.length ++ (payload ++ leBytes 4 (crc32 payload).toNat))

variable (payload : Bytes)

/-- The bytes of one record. -/
def encodeFrame : Bytes := framed crc32 walMagic payload

variable (payloads : List Bytes)

/-- The bytes of a list of records. -/
def encodeFrames : Bytes := payloads.flatMap (encodeFrame crc32)

theorem length_framed (magic : ℕ) (payload : Bytes) :
    (framed crc32 magic payload).length = frameHeaderLen + payload.length := by
  simp only [framed, length_append, length_leBytes, frameHeaderLen]
  omega

@[simp] theorem length_encodeFrame :
    (encodeFrame crc32 payload).length = frameHeaderLen + payload.length :=
  length_framed ..

@[simp] theorem encodeFrames_nil : encodeFrames crc32 [] = [] := rfl

@[simp] theorem encodeFrames_cons : encodeFrames crc32 (payload :: payloads)
      = encodeFrame crc32 payload ++ encodeFrames crc32 payloads :=
  flatMap_cons ..

@[simp] theorem encodeFrames_append (payloads payloads' : List Bytes) :
    encodeFrames crc32 (payloads ++ payloads')
      = encodeFrames crc32 payloads ++ encodeFrames crc32 payloads' :=
  flatMap_append ..

/-- The length of a file of whole frames. It does not depend on the CRC. -/
def framesLength : ℕ :=
  (payloads.map fun payload ↦ frameHeaderLen + payload.length).sum

theorem framesLength_cons :
    framesLength (payload :: payloads) = frameHeaderLen + payload.length + framesLength payloads :=
  sum_cons ..

@[simp] theorem length_encodeFrames :
    (encodeFrames crc32 payloads).length = framesLength payloads := by
  induction payloads with
  | nil => rfl
  | cons payload payloads ih =>
    rw [encodeFrames_cons, length_append, length_encodeFrame, ih, framesLength_cons]

/-! ## Reading -/

/-- Why the reader stops. -/
inductive Stop where
  | endOfFile
  | trailingGarbage
  | invalidMagic (remaining magic : ℕ)
  | partialRecord
  | crcMismatch
  deriving DecidableEq, Repr

/-- Read a frame. -/
def readFramed (expectedMagic : ℕ) (r : Bytes) : Step Bytes Stop :=
  if r.length = 0 then .stop .endOfFile
  else if r.length < 12 then .stop .trailingGarbage
  else
    let (magic, c) := getLE 4 r
    if magic ≠ expectedMagic then .stop (.invalidMagic r.length magic)
    else
      let (len, c) := getLE 4 c
      if c.length < len + 4 then .stop .partialRecord
      else
        let payload := c.take len
        let (expected, rest) := getLE 4 (c.drop len)
        if expected ≠ (crc32 payload).toNat then .stop .crcMismatch
        else .item payload rest

/-- One iteration of the loop of `decode_all_frames` on what is left of the file. -/
def nextFrame (r : Bytes) : Step Bytes Stop := readFramed crc32 walMagic r

/-- The payloads of a file. Only a wrong magic makes the read fail. -/
def decodeAllFrames (data : Bytes) : Result (List Bytes) :=
  match items (nextFrame crc32) data with
  | (_, some (.invalidMagic remaining magic)) =>
    .error (.storage s!"invalid wal magic at offset {data.length - remaining}: {hexString magic}")
  | (frames, _) => .ok (frames.map Prod.fst)

variable {crc32} {r payload data : Bytes} {payloads : List Bytes} {wal : MetaWal}

theorem nextFrame_eq_item {rest : Bytes} (h : nextFrame crc32 r = .item payload rest) :
    12 ≤ r.length ∧ leValue (r.take 4) = walMagic ∧
      leValue ((r.drop 4).take 4) + 12 ≤ r.length ∧
      payload = (r.drop 8).take (leValue ((r.drop 4).take 4)) ∧
      leValue ((r.drop (8 + leValue ((r.drop 4).take 4))).take 4) = (crc32 payload).toNat ∧
      rest = r.drop (12 + leValue ((r.drop 4).take 4)) := by
  simp only [nextFrame, readFramed, getLE, drop_drop, Nat.reduceAdd] at h
  split_ifs at h with h0 h12 hmag hlen hcrc
  rw [length_drop] at hlen
  cases h
  refine ⟨Nat.not_lt.mp h12, not_not.mp hmag, by omega, rfl, not_not.mp hcrc, ?_⟩
  rw [show 8 + leValue ((r.drop 4).take 4) + 4 = 12 + leValue ((r.drop 4).take 4) by omega]

theorem consuming_nextFrame : Consuming (nextFrame crc32) := by
  intro r payload rest h
  obtain ⟨_, -, -, -, -, rfl⟩ := nextFrame_eq_item h
  rw [length_drop]
  omega

/-- A frame whose length fits its field is read back, whatever stands behind it. -/
theorem readFramed_framed {magic : ℕ} (hmagic : magic < 2 ^ 32) (hlen : payload.length < 2 ^ 32)
    (rest : Bytes) :
    readFramed crc32 magic (framed crc32 magic payload ++ rest) = .item payload rest := by
  have h12 : (framed crc32 magic payload ++ rest).length = 12 + payload.length + rest.length := by
    rw [length_append, length_framed, frameHeaderLen]
  have hmag : magic % 256 ^ 4 = magic := Nat.mod_eq_of_lt hmagic
  have hfld : payload.length % 256 ^ 4 = payload.length := Nat.mod_eq_of_lt hlen
  have hcrc : (crc32 payload).toNat % 256 ^ 4 = (crc32 payload).toNat :=
    Nat.mod_eq_of_lt (crc32 payload).toNat_lt
  rw [readFramed, h12, if_neg (by omega), if_neg (by omega)]
  simp only [framed, append_assoc, getLE_leBytes_append, hmag, hfld,
    take_left, drop_left, hcrc, ne_eq, not_true_eq_false, if_false]
  rw [if_neg]
  simp only [length_append, length_leBytes]
  omega

theorem nextFrame_encodeFrame (hlen : payload.length < 2 ^ 32) (rest : Bytes) :
    nextFrame crc32 (encodeFrame crc32 payload ++ rest) = .item payload rest :=
  readFramed_framed (by decide) hlen rest

theorem decodeAllFrames_eq_ok (h : decodeAllFrames crc32 data = .ok payloads) :
    payloads = (items (nextFrame crc32) data).1.map Prod.fst := by
  unfold decodeAllFrames at h
  split at h
  · cases h
  · next frames _ hits =>
    cases h
    rw [hits]

section

variable (hlen : ∀ p ∈ payloads, p.length < 2 ^ 32)

include hlen

/-- Records whose lengths fit their fields are read back in front of any tail, and the tail decides
the rest. -/
theorem items_encodeFrames (tail : Bytes) :
    ∃ read, items (nextFrame crc32) (encodeFrames crc32 payloads ++ tail) =
        (read ++ (items (nextFrame crc32) tail).1, (items (nextFrame crc32) tail).2) ∧
      read.map Prod.fst = payloads := by
  have henc : ∀ p ∈ payloads, ∀ rest,
      nextFrame crc32 (encodeFrame crc32 p ++ rest) = .item (id p) rest :=
    fun p hp rest ↦ nextFrame_encodeFrame (hlen p hp) rest
  obtain ⟨read, hread, hmap⟩ := items_append consuming_nextFrame henc tail
  exact ⟨read, hread, hmap.trans (map_id _)⟩

/-- A tail at which the reader stops, for any reason but a wrong magic, is not seen. -/
theorem decodeAllFrames_of_stop {tail : Bytes} {stop : Stop}
    (hstop : nextFrame crc32 tail = .stop stop)
    (hmag : ∀ remaining magic, stop ≠ .invalidMagic remaining magic) :
    decodeAllFrames crc32 (encodeFrames crc32 payloads ++ tail) = .ok payloads := by
  obtain ⟨_, hits, hread⟩ := items_encodeFrames hlen tail
  rw [items_of_stop hstop, append_nil] at hits
  unfold decodeAllFrames
  rw [hits]
  cases stop with
  | invalidMagic remaining magic => exact absurd rfl (hmag remaining magic)
  | _ => exact congrArg Except.ok hread

theorem decodeAllFrames_encodeFrames :
    decodeAllFrames crc32 (encodeFrames crc32 payloads) = .ok payloads := by
  have hnil : nextFrame crc32 [] = .stop .endOfFile := rfl
  have h := decodeAllFrames_of_stop hlen hnil (fun _ _ ↦ by simp)
  rwa [append_nil] at h

theorem decodeAllFrames_of_invalidMagic {tail : Bytes} {remaining magic : ℕ}
    (hstop : nextFrame crc32 tail = .stop (.invalidMagic remaining magic)) :
    ∃ e, decodeAllFrames crc32 (encodeFrames crc32 payloads ++ tail) = .error e := by
  obtain ⟨_, hits, -⟩ := items_encodeFrames hlen tail
  rw [items_of_stop hstop] at hits
  unfold decodeAllFrames
  rw [hits]
  exact ⟨_, rfl⟩

end

theorem nextFrame_of_fields {len : ℕ} (hmag : leValue (r.take 4) = walMagic)
    (hfld : leValue ((r.drop 4).take 4) = len) (hlen : len + 12 ≤ r.length)
    (hcrc : leValue ((r.drop (8 + len)).take 4) = (crc32 ((r.drop 8).take len)).toNat) :
    nextFrame crc32 r = .item ((r.drop 8).take len) (r.drop (12 + len)) := by
  have hcrcF : ¬ (r.drop 8).length < len + 4 := by
    rw [length_drop]
    omega
  rw [nextFrame, readFramed, if_neg (by omega), if_neg (by omega)]
  simp only [getLE, drop_drop, Nat.reduceAdd, hmag, ne_eq, not_true_eq_false, if_false,
    hfld, hcrcF, hcrc]
  rw [show 8 + len + 4 = 12 + len by omega]

theorem nextFrame_append {rest : Bytes} (h : nextFrame crc32 r = .item payload rest)
    (tail : Bytes) : nextFrame crc32 (r ++ tail) = .item payload (rest ++ tail) := by
  obtain ⟨_, hmag, _, rfl, hcrc, rfl⟩ := nextFrame_eq_item h
  have hwin (n m : ℕ) (hn : n + m ≤ r.length) :
      ((r ++ tail).drop n).take m = (r.drop n).take m := by
    rw [drop_append_of_le_length (by omega), take_append_of_le_length]
    rw [length_drop]
    omega
  have hfld := congrArg leValue (hwin 4 4 (by omega))
  rw [nextFrame_of_fields _ hfld, hwin 8 _ (by omega), drop_append_of_le_length (by omega)]
  · rw [length_append]
    omega
  · rw [hwin _ 4 (by omega), hwin 8 _ (by omega), hcrc]
  · rw [take_append_of_le_length (by omega), hmag]

theorem eq_nil_of_endOfFile (h : nextFrame crc32 r = .stop .endOfFile) : r = [] := by
  simp only [nextFrame, readFramed, getLE, drop_drop, Nat.reduceAdd] at h
  split_ifs at h with h0 h12 hmag hlen hcrc
  · exact length_eq_zero_iff.mp h0
  all_goals cases h

/-- The file ends behind its last frame. -/
def Whole (crc32 : Bytes → UInt32) (data : Bytes) : Prop :=
  (items (nextFrame crc32) data).2 = some .endOfFile

instance (data : Bytes) : Decidable (Whole crc32 data) :=
  inferInstanceAs (Decidable (_ = _))

theorem decodeAllFrames_of_whole (h : Whole crc32 data) :
    decodeAllFrames crc32 data = .ok ((items (nextFrame crc32) data).1.map Prod.fst) := by
  rw [Whole] at h
  unfold decodeAllFrames
  cases hits : items (nextFrame crc32) data with
  | mk =>
    rw [hits] at h
    obtain rfl := h
    rfl

/-- A frame behind a file of whole frames is read, and the file still ends behind its last frame. -/
theorem Whole.append_frame (h : Whole crc32 data)
    (hread : decodeAllFrames crc32 data = .ok payloads) (hlen : payload.length < 2 ^ 32) :
    Whole crc32 (data ++ encodeFrame crc32 payload) ∧
      decodeAllFrames crc32 (data ++ encodeFrame crc32 payload) = .ok (payloads ++ [payload]) := by
  have hnil : nextFrame crc32 [] = .stop .endOfFile := rfl
  have hfr : items (nextFrame crc32) (encodeFrame crc32 payload)
      = ([(payload, [])], some .endOfFile) := by
    have hnext : nextFrame crc32 (encodeFrame crc32 payload) = .item payload [] := by
      rw [← nextFrame_encodeFrame hlen [], append_nil]
    rw [items_of_item consuming_nextFrame hnext, items_of_stop hnil]
  obtain ⟨_, hits, hmap⟩ := items_append_of_end consuming_nextFrame
    (fun _ _ _ ↦ nextFrame_append) (fun _ ↦ eq_nil_of_endOfFile) h (encodeFrame crc32 payload)
  rw [hfr] at hits
  have hwh : Whole crc32 (data ++ encodeFrame crc32 payload) := by rw [Whole, hits]
  refine ⟨hwh, ?_⟩
  rw [decodeAllFrames_of_whole hwh, hits, map_append, hmap, decodeAllFrames_eq_ok hread]
  rfl

/-! ## The writer -/

/-- `MetaWal::open`: scan the file and count its frames. The counter of bytes is the length of the
file, whatever the scan has read of it. -/
def «open» (crc32 : Bytes → UInt32) (data : Bytes) : Result MetaWal := do
  let frames ← decodeAllFrames crc32 data
  return ⟨none, frames.length, data.length⟩

def needsCompaction (wal : MetaWal) : Bool :=
  maxWalRecords ≤ wal.records || maxWalBytes ≤ wal.bytes

/-- The buffer of the writer, which is opened when there is none. -/
def writer (io : AppendIo) (wal : MetaWal) : Result Bytes :=
  match wal.file, io with
  | some buffer, _ => .ok buffer
  | none, .openFails => .error ioError
  | none, _ => .ok []

/-- Append a record. Returns the writer and the file afterwards. -/
def append (crc32 : Bytes → UInt32) (io : AppendIo) (payload : Bytes) (wal : MetaWal)
    (data : Bytes) : Result Unit × MetaWal × Bytes :=
  match wal.writer io with
  | .error e => (.error e, wal, data)
  | .ok buffer =>
    let out := buffer ++ encodeFrame crc32 payload
    match io with
    | .writeFails written kept =>
      (.error ioError, { wal with file := some ((out.drop written).take kept) },
        data ++ out.take written)
    | .syncFails => (.error ioError, { wal with file := some [] }, data ++ out)
    | _ =>
      (.ok (), ⟨some [], wal.records + 1, wal.bytes + frameHeaderLen + payload.length⟩, data ++ out)

/-- `MetaWal::truncate`. When the file cannot be removed the counters stay. -/
def truncate (removed : Bool) (wal : MetaWal) (data : Bytes) : Result Unit × MetaWal × Bytes :=
  if data = [] ∨ removed then (.ok (), ⟨none, 0, 0⟩, [])
  else (.error ioError, { wal with file := none }, data)

/-- The buffer holds nothing of an earlier append. -/
def Flushed (wal : MetaWal) : Prop := wal.file.getD [] = []

theorem writer_done (h : wal.Flushed) : wal.writer .done = .ok [] := by
  rcases hfile : wal.file with _ | buffer
  · simp only [writer, hfile]
  · rw [Flushed, hfile, Option.getD_some] at h
    simp only [writer, hfile, h]

theorem append_done (h : wal.Flushed) (payload data : Bytes) :
    append crc32 .done payload wal data
      = (.ok (), ⟨some [], wal.records + 1, wal.bytes + frameHeaderLen + payload.length⟩,
          data ++ encodeFrame crc32 payload) := by
  unfold append
  rw [writer_done h]
  dsimp only
  rw [nil_append]

variable (crc32) in
/-- Everything an append can do with an empty buffer: fail before it writes or while it writes, fail
behind its frame, or succeed. -/
theorem append_cases (h : wal.Flushed) (io : AppendIo) (payload data : Bytes) :
    (∃ e, append crc32 io payload wal data = (.error e, wal, data)) ∨
    (∃ written kept next, io = .writeFails written kept ∧
      append crc32 io payload wal data = (.error ioError, next)) ∨
    append crc32 io payload wal data
      = (.error ioError, { wal with file := some [] }, data ++ encodeFrame crc32 payload) ∨
    append crc32 io payload wal data
      = (.ok (), ⟨some [], wal.records + 1, wal.bytes + frameHeaderLen + payload.length⟩,
          data ++ encodeFrame crc32 payload) := by
  unfold append
  generalize encodeFrame crc32 payload = frame
  cases hwr : wal.writer io with
  | error e => exact .inl ⟨e, rfl⟩
  | ok buffer =>
    have hbuf : buffer = [] := by
      cases hfile : wal.file with
      | none =>
        simp only [writer, hfile] at hwr
        cases io <;> cases hwr <;> rfl
      | some buffer' =>
        rw [Flushed, hfile] at h
        simp only [writer, hfile] at hwr
        cases hwr
        exact h
    subst hbuf
    refine .inr ?_
    dsimp only
    rw [nil_append]
    cases io with
    | writeFails written kept => exact .inl ⟨written, kept, _, rfl, rfl⟩
    | syncFails => exact .inr (.inl rfl)
    | done | openFails => exact .inr (.inr rfl)

end MetaWal

end MonoTS
