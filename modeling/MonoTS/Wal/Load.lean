import MonoTS.Wal.Log
import MonoTS.Wal.Recover

/-!
# Loading a range of LSNs from the WAL

A captured insert may be kept without its rows, only with its LSNs; the rows are then loaded from
the WAL. `read_wal_batches_for_lsn_range` looks for the file in which the range begins and reads
from there on until a frame lies behind the range. It returns the frames of the range that are in
the files, and nothing tells whether these are all of them.

In a chain of files in which the LSNs of the frame headers increase it returns exactly these frames,
if and only if every file that it opens has a segment header (`range_read_exact_iff`); the last
frame of a file may be torn. A segment has 0 bytes until its first flush, and a read that gets to
such a file fails (`range_read_fails_at_fresh_segment`). `readWalBatchesForLsnRange_chain` is about
files that were written as logs, with or without a footer.
-/

open List Option

namespace MonoTS

open LittleEndian ByteStream SegmentHeader WalFile

variable {Schema Batch : Type*} (crc32 : Bytes → UInt32) (ipc : ArrowIpc Schema Batch)

/-! ## The reader -/

/-- The loop over the batches that a `WalFrameCursor` returns. It ends at a footer, and with the
first frame that cannot be read. -/
def readFramesInRange (range : LsnRange) :
    List (FrameHeader × Bytes) → List Batch → Result (List Batch × Bool)
  | [], out => .ok (out, false)
  | (h, payload) :: frames, out =>
    match h.recordType with
    | .batch =>
      match ipc.decodeBatch payload with
      | .error e => .error e
      | .ok batch =>
        if h.lsn < range.baseLsn then readFramesInRange range frames out
        else if range.maxLsn < h.lsn then .ok (out, true)
        else readFramesInRange range frames (out ++ [batch])
    | .footer => .ok (out, false)
    | .schema | .memTableEnd | .unknown _ => readFramesInRange range frames out

namespace WalFile

/-- The batches in the range, and whether a frame behind the range was seen. -/
def readMemtableFramesInRange (file : WalFile) (range : LsnRange) : Result (List Batch × Bool) :=
  match decode file.bytes with
  | .error e => .error e
  | .ok (_, r) => readFramesInRange ipc range ((segmentFrames crc32 r).1.map Prod.fst) []

/-- The loop of `find_wal_file_for_lsn`. -/
def findLoop (lsn : ℕ) : List WalFile → Option ℕ → Option ℕ
  | [], best => best
  | file :: files, best =>
    let (base, max) := file.lsnRangeInSegment
    if max = 0 then findLoop lsn files best
    else
      let base := if base = 0 then max else base
      if base ≤ lsn ∧ lsn ≤ max then some file.fileId
      else findLoop lsn files (if base ≤ lsn then some file.fileId else best)

variable (files : List WalFile)

/-- The file whose LSNs span the given one; if there is none, the last that begins before it, and
else the first file. -/
def findWalFileForLsn (lsn : ℕ) : Option ℕ :=
  (findLoop lsn files none).or (files.head?.map fileId)

/-- Read one file after the other, until one of them goes beyond the range. -/
def readFiles (range : LsnRange) : List WalFile → List Batch → Result (List Batch)
  | [], out => .ok out
  | file :: files, out =>
    match file.readMemtableFramesInRange crc32 ipc range with
    | .error e => .error e
    | .ok (frames, exceededMax) =>
      if exceededMax then .ok (out ++ frames) else readFiles range files (out ++ frames)

/-- The files are in the order of their ids, so that `next_wal_file_after` is the next one. -/
def readWalBatchesForLsnRange (range : LsnRange) : Result (List Batch) :=
  match findWalFileForLsn files range.baseLsn with
  | none => .ok []
  | some mid => readFiles crc32 ipc range (files.filter fun file ↦ mid ≤ file.fileId) []

end WalFile

/-! ## The frames of a file -/

/-- The LSNs of the batch frames in front of the footer, by their headers. -/
def batchLsns : List FrameHeader → List ℕ
  | [] => []
  | frame :: frames =>
    match frame.recordType with
    | .batch => frame.lsn :: batchLsns frames
    | .footer => []
    | .schema | .memTableEnd | .unknown _ => batchLsns frames

/-- The batches that a reader finds in a file, each with its LSN. -/
def WalFile.writes (file : WalFile) : List (Write Batch) := file.recoverable crc32 ipc 0 false

namespace WalFile

/-- The files up to the first with a frame behind the range. -/
def upTo (range : LsnRange) : List WalFile → List WalFile
  | [] => []
  | file :: files =>
    file :: if ∃ w ∈ file.writes crc32 ipc, range.maxLsn < w.1 then [] else upTo range files

/-- The files that a read of the range opens. -/
def opened (files : List WalFile) (range : LsnRange) : List WalFile :=
  match findWalFileForLsn files range.baseLsn with
  | none => []
  | some mid => upTo crc32 ipc range (files.filter fun file ↦ mid ≤ file.fileId)

end WalFile

/-- A chain of numbered files in which the LSNs of the batch frames increase. The batches that are
found can be decoded; a file may end in the middle of a frame. -/
structure WalChain (files : List WalFile) : Prop where
  ids : files.Pairwise (·.fileId < ·.fileId)
  decodes : ∀ file ∈ files, ∀ x ∈ file.frames crc32, x.1.recordType = .batch →
    (ipc.decodeBatch x.2).isOk
  lsns_lt : ∀ lsn ∈ files.flatMap fun file ↦ batchLsns file.headers, lsn < 2 ^ 64
  sorted : (files.flatMap fun file ↦ batchLsns file.headers).Pairwise (· < ·)

/-! ## Files as logs -/

/-- The batch of an entry with its LSN. -/
def LogEntry.write? : LogEntry Schema Batch → Option (Write Batch)
  | .batch _ lsn b => some (lsn.toNat, b)
  | .schema _ | .memtableEnd _ _ _ _ => none

/-- A numbered file that was written as the given log, and closed if there is a footer. -/
structure LoggedFile (Schema Batch : Type*) where
  fileId : ℕ
  path : String
  memtableId : ℕ
  now : ℕ
  log : List (LogEntry Schema Batch)
  /-- The footer with the number of its frame. -/
  footer : Option (UInt64 × SegmentFooter)

namespace LoggedFile

/-- The frame that `finish` writes; it has no LSN. -/
def footerFrame (footer : UInt64 × SegmentFooter) : Frame :=
  ⟨.footer, 0, footer.1.toNat, 0, footer.2.encode⟩

variable (f : LoggedFile Schema Batch)

/-- The frames of the file. -/
def frames : List Frame :=
  f.log.map (LogEntry.frame ipc) ++ (f.footer.map footerFrame).toList

/-- The file on the disk. -/
def file : WalFile :=
  ⟨f.fileId, f.path, (newV1 f.memtableId f.now).encode ++
    (f.frames ipc).flatMap (Frame.encode crc32)⟩

/-- The batches in the file. -/
def writes : List (Write Batch) := f.log.filterMap LogEntry.write?

/-- The writer has accepted every entry, and readers find it again. -/
def Readable (f : LoggedFile Schema Batch) : Prop :=
  ∀ e ∈ f.log, e.Accepted ipc ∧ e.Readable ipc

/-- The batches in a chain of files. -/
def chain (files : List (LoggedFile Schema Batch)) : List (Write Batch) := files.flatMap writes

end LoggedFile

/-- The batches of the range. -/
def LsnRange.load (range : LsnRange) (writes : List (Write Batch)) : List Batch :=
  (writes.filter fun w ↦ range.baseLsn ≤ w.1 ∧ w.1 ≤ range.maxLsn).map Prod.snd

/-! ## What the readers see of a log -/

theorem nextHeader_encode {f : Frame} (hf : f.WellFormed) (hlen : f.payload.length < 2 ^ 32)
    (rest : Bytes) : nextHeader (f.encode crc32 ++ rest) = .item (f.header crc32) rest := by
  rw [nextHeader, Frame.encode, append_assoc, FrameHeader.decode_encode (hf.inRange_header crc32)]
  dsimp only
  rw [Frame.bodyLen_header, Nat.mod_eq_of_lt hlen, drop_left]

namespace LoggedFile

variable {crc32 ipc} {f : LoggedFile Schema Batch}

theorem wellFormed_footerFrame (footer : UInt64 × SegmentFooter) :
    (footerFrame footer).WellFormed ∧ (footerFrame footer).payload.length < 2 ^ 32 := by
  have hlen : (footerFrame footer).payload.length = 24 := by
    simp [footerFrame, SegmentFooter.encode]
  refine ⟨⟨rfl, ?_, ?_, ?_, footer.1.toNat_lt, ?_⟩, ?_⟩
  · exact show 3 < 2 ^ 16 by decide
  · exact Nat.two_pow_pos 16
  · rw [Frame.blockLen, hlen]
    decide
  · exact Nat.two_pow_pos 64
  · rw [hlen]
    decide

section

variable (h : f.Readable ipc)

include h

theorem wellFormed_frames :
    ∀ frame ∈ f.frames ipc, frame.WellFormed ∧ frame.payload.length < 2 ^ 32 := by
  intro frame hfr
  rcases mem_append.mp hfr with hfr | hfr
  · obtain ⟨e, he, rfl⟩ := List.mem_map.mp hfr
    exact ⟨(h e he).1.wellFormed, (h e he).2⟩
  · obtain ⟨footer, -, rfl⟩ := map_eq_some_iff.mp (mem_toList.mp hfr)
    exact wellFormed_footerFrame footer

theorem segmentFrames_frames :
    (segmentFrames crc32 ((f.frames ipc).flatMap (Frame.encode crc32))).1.map Prod.fst
      = (f.frames ipc).map fun frame ↦ (frame.header crc32, frame.payload) := by
  obtain ⟨_, hits, hread⟩ := items_append (consuming_readFrame crc32)
    (fun frame hfr rest ↦ readFrame_encode crc32 (wellFormed_frames h frame hfr).1
      (wellFormed_frames h frame hfr).2 rest) []
  have hend : (items (readFrame crc32) []).1 = [] := rfl
  rw [append_nil, hend, append_nil] at hits
  rw [segmentFrames, hits, hread]

theorem headers_file : (f.file crc32 ipc).headers = (f.frames ipc).map (Frame.header crc32) := by
  obtain ⟨_, hits, hread⟩ := items_append consuming_nextHeader
    (fun frame hfr rest ↦ nextHeader_encode crc32 (wellFormed_frames h frame hfr).1
      (wellFormed_frames h frame hfr).2 rest) []
  have hend : (items nextHeader []).1 = [] := rfl
  rw [append_nil, hend, append_nil] at hits
  rw [headers, file, decode_encode_newV1]
  dsimp only
  rw [hits, hread]

theorem frames_file :
    (f.file crc32 ipc).frames crc32
      = (f.frames ipc).map fun frame ↦ (frame.header crc32, frame.payload) := by
  rw [WalFile.frames, file, decode_encode_newV1]
  exact segmentFrames_frames h

theorem writes_file : (f.file crc32 ipc).writes crc32 ipc = f.writes := by
  rw [WalFile.writes, WalFile.recoverable, frames_file h, frames, writes]
  induction f.log with
  | nil => rcases f.footer with _ | footer <;> rfl
  | cons e log ih =>
    cases e with
    | schema | memtableEnd => exact ih
    | batch =>
      simp only [map_cons, cons_append, recoverable, LogEntry.frame, Frame.header,
        batchNeedsRecover_zero, Bool.true_eq_false, if_false, ipc.decodeBatch_encodeBatch]
      exact congrArg _ ih

theorem batchLsns_file : batchLsns (f.file crc32 ipc).headers = f.writes.map Prod.fst := by
  rw [headers_file h, frames, writes]
  induction f.log with
  | nil => rcases f.footer with _ | footer <;> rfl
  | cons e log ih =>
    cases e with
    | schema | memtableEnd => exact ih
    | batch => exact congrArg _ ih

end

end LoggedFile

/-! ## Finding the file -/

namespace WalFile

theorem mem_lsnRangeLoop (headers : List FrameHeader) (lo hi : ℕ) :
    ((lsnRangeLoop headers lo hi).1 = lo ∨ (lsnRangeLoop headers lo hi).1 ∈ batchLsns headers) ∧
    ((lsnRangeLoop headers lo hi).2 = hi ∨ (lsnRangeLoop headers lo hi).2 ∈ batchLsns headers) := by
  induction headers generalizing lo hi with
  | nil => exact ⟨.inl rfl, .inl rfl⟩
  | cons frame frames ih =>
    rw [lsnRangeLoop]
    split_ifs with hbat hfoot
    · obtain ⟨hlo, hhi⟩ := ih (min lo frame.lsn) (max hi frame.lsn)
      simp only [batchLsns, hbat.1, mem_cons]
      constructor
      · rcases hlo with hlo | hlo
        · exact (min_choice lo frame.lsn).imp hlo.trans (.inl ∘ hlo.trans)
        · exact .inr (.inr hlo)
      · rcases hhi with hhi | hhi
        · exact (max_choice hi frame.lsn).imp hhi.trans (.inl ∘ hhi.trans)
        · exact .inr (.inr hhi)
    · exact ⟨.inl rfl, .inl rfl⟩
    · have hcons : ∀ {x}, x ∈ batchLsns frames → x ∈ batchLsns (frame :: frames) := by
        intro x hx
        rw [batchLsns]
        split
        · exact mem_cons_of_mem _ hx
        · contradiction
        all_goals exact hx
      exact (ih lo hi).imp (Or.imp_right hcons) (Or.imp_right hcons)

/-- A file whose first LSN is not behind the given one has a batch that is not behind it. -/
theorem exists_batchLsns_le {file : WalFile} (lsn : ℕ)
    (hlt : ∀ n ∈ batchLsns file.headers, n < 2 ^ 64) (hmax : file.lsnRangeInSegment.2 ≠ 0)
    (hle : (if file.lsnRangeInSegment.1 = 0 then file.lsnRangeInSegment.2
      else file.lsnRangeInSegment.1) ≤ lsn) :
    ∃ n ∈ batchLsns file.headers, n ≤ lsn := by
  rw [lsnRangeInSegment] at hmax hle
  obtain ⟨hlo, hhi⟩ := mem_lsnRangeLoop file.headers (2 ^ 64 - 1) 0
  by_cases hzero : (lsnRangeLoop file.headers (2 ^ 64 - 1) 0).2 = 0
  · rw [if_pos hzero] at hmax
    exact absurd rfl hmax
  have hhi := hhi.resolve_left hzero
  rw [if_neg hzero] at hle
  split_ifs at hle with hbase
  · exact ⟨_, hhi, hle⟩
  -- a smallest LSN that was never lowered is the initial one, and no LSN is above that
  rcases hlo with hlo | hlo
  · exact ⟨_, hhi, (Nat.le_sub_one_of_lt (hlt _ hhi)).trans (hlo ▸ hle)⟩
  · exact ⟨_, hlo, hle⟩

/-- The loop returns a file that has a batch not behind the given LSN, or what it started with. -/
theorem findLoop_eq_some {files : List WalFile} {lsn : ℕ} {best : Option ℕ} {id : ℕ}
    (hlt : ∀ file ∈ files, ∀ n ∈ batchLsns file.headers, n < 2 ^ 64)
    (h : findLoop lsn files best = some id) :
    best = some id ∨
      ∃ file ∈ files, file.fileId = id ∧ ∃ n ∈ batchLsns file.headers, n ≤ lsn := by
  induction files generalizing best with
  | nil => exact .inl h
  | cons file files ih =>
    have ih := fun best ↦ @ih best fun f hf ↦ hlt f (mem_cons_of_mem _ hf)
    have hcons : (∃ f ∈ files, f.fileId = id ∧ ∃ n ∈ batchLsns f.headers, n ≤ lsn) →
        ∃ f ∈ file :: files, f.fileId = id ∧ ∃ n ∈ batchLsns f.headers, n ≤ lsn :=
      fun ⟨f, hf, hx⟩ ↦ ⟨f, mem_cons_of_mem _ hf, hx⟩
    rw [findLoop] at h
    dsimp only at h
    by_cases hzero : file.lsnRangeInSegment.2 = 0
    · rw [if_pos hzero] at h
      exact (ih _ h).imp_right hcons
    have hfile := exists_batchLsns_le lsn (hlt file mem_cons_self) hzero
    rw [if_neg hzero] at h
    generalize (if file.lsnRangeInSegment.1 = 0 then file.lsnRangeInSegment.2
      else file.lsnRangeInSegment.1) = base at h hfile
    split_ifs at h with hspan hbase
    · exact .inr ⟨file, mem_cons_self, some.inj h, hfile hspan.1⟩
    · rcases ih _ h with hid | hlater
      · exact .inr ⟨file, mem_cons_self, some.inj hid, hfile hbase⟩
      · exact .inr (hcons hlater)
    · exact (ih _ h).imp_right hcons

end WalFile

/-! ## Reading the range -/

variable {crc32 ipc} {range : LsnRange}

namespace LsnRange

theorem load_append (writes writes' : List (Write Batch)) :
    range.load (writes ++ writes') = range.load writes ++ range.load writes' := by
  rw [load, filter_append, map_append, load, load]

theorem load_flatMap_filter {α : Type*} {g : α → List (Write Batch)} {p : α → Bool} {xs : List α}
    (h : ∀ x ∈ xs, p x = false → range.load (g x) = []) :
    range.load ((xs.filter p).flatMap g) = range.load (xs.flatMap g) := by
  induction xs with
  | nil => rfl
  | cons x xs ih =>
    have ih := ih fun y hy ↦ h y (mem_cons_of_mem x hy)
    rw [flatMap_cons, load_append, ← ih]
    cases hp : p x with
    | true => rw [filter_cons_of_pos hp, flatMap_cons, load_append]
    | false =>
      rw [filter_cons_of_neg (ne_true_of_eq_false hp), h x mem_cons_self hp, nil_append]

theorem load_cons_of_mem {w : Write Batch} (hbase : range.baseLsn ≤ w.1) (hmax : w.1 ≤ range.maxLsn)
    (writes : List (Write Batch)) : range.load (w :: writes) = w.2 :: range.load writes := by
  rw [load, filter_cons, if_pos (decide_eq_true ⟨hbase, hmax⟩), map_cons, load]

theorem load_cons_of_notMem {w : Write Batch} (h : ¬(range.baseLsn ≤ w.1 ∧ w.1 ≤ range.maxLsn))
    (writes : List (Write Batch)) : range.load (w :: writes) = range.load writes := by
  rw [load, filter_cons_of_neg (by rwa [decide_eq_true_eq]), load]

theorem load_eq_nil_iff {writes : List (Write Batch)} :
    range.load writes = [] ↔ ∀ w ∈ writes, ¬(range.baseLsn ≤ w.1 ∧ w.1 ≤ range.maxLsn) := by
  rw [load, map_eq_nil_iff, filter_eq_nil_iff]
  simp only [decide_eq_true_eq]

/-- In a chain of increasing LSNs nothing of the range stands behind a frame that is behind it. -/
theorem load_eq_nil_of_exceeded {writes writes' : List (Write Batch)}
    (hsorted : (writes ++ writes').Pairwise (·.1 < ·.1))
    (h : ∃ w ∈ writes, range.maxLsn < w.1) : range.load writes' = [] := by
  obtain ⟨w, hw, hlt⟩ := h
  refine load_eq_nil_iff.mpr fun w' hw' hmem ↦ ?_
  have haft := (pairwise_append.mp hsorted).2.2 w hw w' hw'
  exact absurd (hlt.trans haft) (Nat.not_lt.mpr hmem.2)

end LsnRange

open LsnRange

variable {frames : List (FrameHeader × Bytes)}

/-- The LSNs of the batches that are found are those of headers. -/
theorem lsns_recoverable_isPrefix {headers : List FrameHeader}
    (hpre : frames.map Prod.fst <+: headers) :
    (recoverable ipc 0 false frames).map Prod.fst <+: batchLsns headers := by
  induction frames generalizing headers with
  | nil => exact nil_prefix
  | cons x frames ih =>
    obtain ⟨frame, payload⟩ := x
    obtain ⟨rest, rfl⟩ := hpre
    have ih := ih (prefix_append _ rest)
    rw [map_cons, cons_append]
    cases htype : frame.recordType with
    | batch =>
      simp only [recoverable, batchLsns, htype, batchNeedsRecover_zero, Bool.true_eq_false,
        if_false]
      cases ipc.decodeBatch payload with
      | ok => exact (prefix_cons_inj _).mpr ih
      | error => exact nil_prefix
    | footer =>
      simp only [recoverable, htype]
      exact nil_prefix
    | schema | memTableEnd | unknown raw => simpa only [recoverable, batchLsns, htype] using ih

/-- The loop over the frames returns the batches of the range, and says whether one of the frames is
behind it. -/
theorem readFramesInRange_eq (out : List Batch)
    (hdec : ∀ x ∈ frames, x.1.recordType = .batch → (ipc.decodeBatch x.2).isOk)
    (hsorted : (recoverable ipc 0 false frames).Pairwise (·.1 < ·.1)) :
    readFramesInRange ipc range frames out =
      .ok (out ++ range.load (recoverable ipc 0 false frames),
        decide (∃ w ∈ recoverable ipc 0 false frames, range.maxLsn < w.1)) := by
  induction frames generalizing out with
  | nil => simp [readFramesInRange, recoverable, load]
  | cons x frames ih =>
    obtain ⟨frame, payload⟩ := x
    obtain ⟨hfst, hdec⟩ := forall_mem_cons.mp hdec
    cases htype : frame.recordType with
    | footer => simp [readFramesInRange, recoverable, load, htype]
    | schema | memTableEnd | unknown raw =>
      simp only [readFramesInRange, recoverable, htype] at hsorted ⊢
      exact ih out hdec hsorted
    | batch =>
      cases hbat : ipc.decodeBatch payload with
      | error =>
        have hok := hfst htype
        rw [hbat] at hok
        cases hok
      | ok =>
        simp only [readFramesInRange, recoverable, htype, hbat, batchNeedsRecover_zero,
          Bool.true_eq_false, if_false] at hsorted ⊢
        obtain ⟨haft, hsorted⟩ := pairwise_cons.mp hsorted
        have ih := fun out ↦ ih out hdec hsorted
        simp only [exists_mem_cons_iff]
        rcases lt_or_ge frame.lsn range.baseLsn with hlt | hbase
        · -- in front of the range
          have hle : ¬range.maxLsn < frame.lsn := Nat.not_lt.mpr (hlt.le.trans range.le)
          rw [if_pos hlt, load_cons_of_notMem fun h ↦ absurd h.1 (Nat.not_le.mpr hlt), ih]
          simp only [hle, false_or]
        rw [if_neg (Nat.not_lt.mpr hbase)]
        rcases lt_or_ge range.maxLsn frame.lsn with hgt | hmax
        · -- behind it: the loop ends, and every frame that follows is behind it too
          rw [if_pos hgt, load_cons_of_notMem fun h ↦ absurd h.2 (Nat.not_le.mpr hgt),
            load_eq_nil_iff.mpr fun w hw h ↦
              absurd (hgt.trans (haft w hw)) (Nat.not_lt.mpr h.2), append_nil,
            decide_eq_true (.inl hgt)]
        · rw [if_neg (Nat.not_lt.mpr hmax), load_cons_of_mem hbase hmax, ih,
            append_assoc, singleton_append]
          simp only [Nat.not_lt.mpr hmax, false_or]

namespace WalFile

variable {file : WalFile} {files : List WalFile}

theorem lsns_writes_isPrefix (file : WalFile) :
    (file.writes crc32 ipc).map Prod.fst <+: batchLsns file.headers :=
  lsns_recoverable_isPrefix (frames_isPrefix_headers crc32 file)

theorem mem_of_mem_upTo (h : file ∈ upTo crc32 ipc range files) : file ∈ files := by
  induction files with
  | nil => exact h
  | cons _ files ih =>
    refine (mem_cons.mp h).elim (fun heq ↦ heq ▸ mem_cons_self) fun h ↦ mem_cons_of_mem _ (ih ?_)
    split_ifs at h
    · cases h
    · exact h

theorem mem_of_mem_opened (h : file ∈ opened crc32 ipc files range) : file ∈ files := by
  rw [opened] at h
  split at h
  · cases h
  · exact mem_of_mem_filter (mem_of_mem_upTo h)

theorem readMemtableFramesInRange_eq (hhead : (decode file.bytes).isOk)
    (hdecode : ∀ x ∈ file.frames crc32, x.1.recordType = .batch → (ipc.decodeBatch x.2).isOk)
    (hsorted : (file.writes crc32 ipc).Pairwise (·.1 < ·.1)) :
    file.readMemtableFramesInRange crc32 ipc range =
      .ok (range.load (file.writes crc32 ipc),
        decide (∃ w ∈ file.writes crc32 ipc, range.maxLsn < w.1)) := by
  refine Eq.trans ?_ (readFramesInRange_eq [] hdecode hsorted)
  rw [readMemtableFramesInRange, frames]
  cases hdec : decode file.bytes with
  | error =>
    rw [hdec] at hhead
    cases hhead
  | ok => rfl

section

variable (hdec : ∀ file ∈ files, ∀ x ∈ file.frames crc32, x.1.recordType = .batch →
    (ipc.decodeBatch x.2).isOk)
  (hsorted : (files.flatMap (writes crc32 ipc)).Pairwise (·.1 < ·.1))

include hdec hsorted

theorem readFiles_eq (hhead : ∀ file ∈ upTo crc32 ipc range files, (decode file.bytes).isOk)
    (out : List Batch) : readFiles crc32 ipc range files out
      = .ok (out ++ range.load (files.flatMap (writes crc32 ipc))) := by
  induction files generalizing out with
  | nil => exact congrArg _ (append_nil out).symm
  | cons file files ih =>
    obtain ⟨hfst, hhead⟩ := forall_mem_cons.mp hhead
    obtain ⟨hbat, hdec⟩ := forall_mem_cons.mp hdec
    rw [flatMap_cons] at hsorted ⊢
    obtain ⟨hfile, hfs, -⟩ := pairwise_append.mp hsorted
    rw [readFiles, readMemtableFramesInRange_eq hfst hbat hfile, load_append]
    dsimp only
    -- the files behind one that exceeds the range are not read, and have nothing of it
    by_cases hex : ∃ w ∈ file.writes crc32 ipc, range.maxLsn < w.1
    · rw [if_pos (decide_eq_true hex), load_eq_nil_of_exceeded hsorted hex, append_nil]
    · rw [if_neg hex] at hhead
      rw [if_neg (by rwa [decide_eq_true_eq]), ih hdec hfs hhead, append_assoc]

theorem header_of_readFiles {out : List Batch} (h : (readFiles crc32 ipc range files out).isOk) :
    ∀ file ∈ upTo crc32 ipc range files, (decode file.bytes).isOk := by
  induction files generalizing out with
  | nil => exact fun _ hfile ↦ absurd hfile not_mem_nil
  | cons file files ih =>
    obtain ⟨hbat, hdec⟩ := forall_mem_cons.mp hdec
    rw [flatMap_cons] at hsorted
    obtain ⟨hfile, hfs, -⟩ := pairwise_append.mp hsorted
    have hhead : (decode file.bytes).isOk := by
      rw [readFiles, readMemtableFramesInRange] at h
      cases hdecode : decode file.bytes with
      | error => rw [hdecode] at h; cases h
      | ok => rfl
    rw [readFiles, readMemtableFramesInRange_eq hhead hbat hfile] at h
    refine forall_mem_cons.mpr ⟨hhead, ?_⟩
    split_ifs with hex
    · exact fun _ hfile ↦ absurd hfile not_mem_nil
    · rw [decide_eq_false hex] at h
      exact ih hdec hfs h

end

end WalFile

namespace WalChain

variable {file : WalFile} {files : List WalFile} (h : WalChain crc32 ipc files)

include h

theorem sorted_writes : (files.flatMap (writes crc32 ipc)).Pairwise (·.1 < ·.1) := by
  rw [← pairwise_map, map_flatMap]
  exact h.sorted.sublist (.flatMap_right files fun file _ ↦ file.lsns_writes_isPrefix.sublist)

theorem lt_of_fileId_lt {file' : WalFile} (hfile : file ∈ files)
    (hfile' : file' ∈ files) (hid : file.fileId < file'.fileId) :
    ∀ n ∈ batchLsns file.headers, ∀ n' ∈ batchLsns file'.headers, n < n' := by
  obtain ⟨i, hi, rfl⟩ := mem_iff_getElem.mp hfile
  obtain ⟨j, hj, rfl⟩ := mem_iff_getElem.mp hfile'
  have hij : i < j := by
    rcases lt_trichotomy i j with hij | rfl | hji
    · exact hij
    · exact absurd hid (lt_irrefl _)
    · exact absurd hid (pairwise_iff_getElem.mp h.ids j i hj hi hji).asymm
  exact pairwise_iff_getElem.mp (pairwise_flatMap.mp h.sorted).2 i j hi hj hij

/-- No file before the one that is found has batches of the range. -/
theorem load_eq_nil_of_lt_found {mid : ℕ}
    (hfind : findWalFileForLsn files range.baseLsn = some mid) (hfile : file ∈ files)
    (hlt : file.fileId < mid) : range.load (file.writes crc32 ipc) = [] := by
  rcases or_eq_some_iff.mp hfind with hfind | ⟨-, hfind⟩
  · have hlsns : ∀ file ∈ files, ∀ n ∈ batchLsns file.headers, n < 2 ^ 64 :=
      fun file hfile n hn ↦ h.lsns_lt n (mem_flatMap.mpr ⟨file, hfile, hn⟩)
    obtain ⟨_, hfile', rfl, n, hn, hle⟩ := (findLoop_eq_some hlsns hfind).resolve_left nofun
    refine load_eq_nil_iff.mpr fun w hw hmem ↦ ?_
    have hw := file.lsns_writes_isPrefix.subset (mem_map_of_mem hw)
    have hbef := h.lt_of_fileId_lt hfile hfile' hlt w.1 hw n hn
    exact absurd (hbef.trans_le hle) (Nat.not_lt.mpr hmem.1)
  · -- There is no candidate, and the first file has the smallest id.
    cases files with
    | nil => cases hfile
    | cons first =>
      obtain rfl : first.fileId = mid := some.inj hfind
      rcases mem_cons.mp hfile with rfl | hfile
      · exact absurd hlt (lt_irrefl _)
      · exact absurd hlt ((pairwise_cons.mp h.ids).1 file hfile).asymm

theorem readWalBatchesForLsnRange_eq
    (hhead : ∀ file ∈ opened crc32 ipc files range, (decode file.bytes).isOk) :
    readWalBatchesForLsnRange crc32 ipc files range
      = .ok (range.load (files.flatMap (writes crc32 ipc))) := by
  rw [opened] at hhead
  rw [readWalBatchesForLsnRange]
  split
  · next hfind =>
    have hnil := (or_eq_none_iff.mp hfind).2
    rw [map_eq_none_iff, head?_eq_none_iff] at hnil
    rw [hnil]
    rfl
  · next mid hfind =>
    rw [hfind] at hhead
    rw [readFiles_eq (fun file hfile ↦ h.decodes file (mem_of_mem_filter hfile))
      (h.sorted_writes.sublist (filter_sublist.flatMap _)) hhead, nil_append]
    refine congrArg _ (load_flatMap_filter fun file hfile hlt ↦ ?_)
    rw [decide_eq_false_iff_not, not_le] at hlt
    exact h.load_eq_nil_of_lt_found hfind hfile hlt

theorem header_of_read (hread : (readWalBatchesForLsnRange crc32 ipc files range).isOk) :
    ∀ file ∈ opened crc32 ipc files range, (decode file.bytes).isOk := by
  rw [readWalBatchesForLsnRange] at hread
  rw [opened]
  split at hread
  · exact fun _ hfile ↦ absurd hfile not_mem_nil
  · exact header_of_readFiles (fun file hfile ↦ h.decodes file (mem_of_mem_filter hfile))
      (h.sorted_writes.sublist (filter_sublist.flatMap _)) hread

end WalChain

/-- **A range read returns the batches of the frames in the range**, in the order of their LSNs, if
and only if every file that it opens has a segment header. -/
theorem range_read_exact_iff {files : List WalFile} (h : WalChain crc32 ipc files)
    (range : LsnRange) :
    (∃ writes : List (Write Batch),
      readWalBatchesForLsnRange crc32 ipc files range = .ok (writes.map Prod.snd) ∧
      writes.Pairwise (·.1 < ·.1) ∧
      ∀ w, w ∈ writes ↔ (∃ file ∈ files, w ∈ file.writes crc32 ipc) ∧
        range.baseLsn ≤ w.1 ∧ w.1 ≤ range.maxLsn) ↔
    ∀ file ∈ opened crc32 ipc files range, (decode file.bytes).isOk := by
  constructor
  · rintro ⟨_, hread, -⟩
    exact h.header_of_read (hread ▸ rfl)
  · intro hhead
    refine ⟨_, h.readWalBatchesForLsnRange_eq hhead, h.sorted_writes.sublist filter_sublist,
      fun w ↦ ?_⟩
    rw [mem_filter, mem_flatMap, decide_eq_true_eq]

/-- The chain of the example: a closed file, one without batches, and one that ends in the middle of
its second frame. -/
def gappedChain : List WalFile :=
  let torn := LoggedFile.file lengthCrc byteIpc
    ⟨7, "00000000000000000007.wal", 3, 0, [.batch 1 9 90, .batch 2 10 100], none⟩
  [LoggedFile.file lengthCrc byteIpc ⟨2, "00000000000000000002.wal", 1, 0,
      [.schema (), .batch 1 3 30, .batch 2 5 50, .memtableEnd 3 5 1 2], some (4, ⟨2, 4, 5⟩)⟩,
    LoggedFile.file lengthCrc byteIpc ⟨3, "00000000000000000003.wal", 2, 0, [.schema ()], none⟩,
    { torn with bytes := torn.bytes.dropLast }]

/-- The range begins and ends in gaps, and its frames are in two of the files. -/
theorem gapped_range_read :
    ∃ writes : List (Write UInt8),
      readWalBatchesForLsnRange lengthCrc byteIpc gappedChain (.new 4 11)
        = .ok (writes.map Prod.snd) ∧
      writes.Pairwise (·.1 < ·.1) ∧ (5, 50) ∈ writes ∧ (9, 90) ∈ writes := by
  have hch : WalChain lengthCrc byteIpc gappedChain := by
    constructor <;> decide +kernel
  obtain ⟨writes, hread, hsorted, hmem⟩ :=
    (range_read_exact_iff hch (.new 4 11)).mpr (by decide +kernel)
  exact ⟨writes, hread, hsorted, (hmem _).mpr (by decide +kernel), (hmem _).mpr (by decide +kernel)⟩

/-- A file with the LSNs 1 and 2, and the segment after it, of which nothing is on the disk yet. -/
def freshChain : List WalFile :=
  [LoggedFile.file lengthCrc byteIpc ⟨1, "00000000000000000001.wal", 1, 0,
    [.batch 1 1 10, .batch 2 2 20], none⟩, ⟨2, "00000000000000000002.wal", []⟩]

/-- Both frames of the range are in the first file; the read goes on to the second and fails. -/
theorem range_read_fails_at_fresh_segment :
    WalChain lengthCrc byteIpc freshChain ∧
      (readWalBatchesForLsnRange lengthCrc byteIpc freshChain (.new 1 2)).isOk = false := by
  refine ⟨?_, by decide +kernel⟩
  constructor <;> decide +kernel

namespace LoggedFile

variable {files : List (LoggedFile Schema Batch)} (hread : ∀ f ∈ files, f.Readable ipc)
  (hids : files.Pairwise (·.fileId < ·.fileId)) (hsorted : (chain files).Pairwise (·.1 < ·.1))

include hread hids hsorted

theorem walChain : WalChain crc32 ipc (files.map (file crc32 ipc)) := by
  have hlsns : (files.map (file crc32 ipc)).flatMap (fun file ↦ batchLsns file.headers)
      = (chain files).map Prod.fst := by
    rw [flatMap_map, chain, map_flatMap]
    exact flatMap_congr fun f hf ↦ batchLsns_file (hread f hf)
  refine ⟨pairwise_map.mpr hids, ?_, ?_, ?_⟩
  · intro x hx y hy hbat
    obtain ⟨f, hf, rfl⟩ := List.mem_map.mp hx
    rw [frames_file (hread f hf)] at hy
    obtain ⟨_, hfr, rfl⟩ := List.mem_map.mp hy
    rcases mem_append.mp hfr with hfr | hfr
    · obtain ⟨e, he, rfl⟩ := List.mem_map.mp hfr
      obtain ⟨sequence, lsn, b, rfl⟩ := LogEntry.eq_batch_of_recordType hbat
      exact congrArg Except.isOk (ipc.decodeBatch_encodeBatch b)
    · obtain ⟨_, -, rfl⟩ := map_eq_some_iff.mp (mem_toList.mp hfr)
      cases hbat
  · intro n hn
    rw [hlsns] at hn
    obtain ⟨_, hw, rfl⟩ := List.mem_map.mp hn
    obtain ⟨_, -, hw⟩ := mem_flatMap.mp hw
    obtain ⟨e, -, he⟩ := mem_filterMap.mp hw
    cases e with
    | batch sequence lsn =>
      cases he
      exact lsn.toNat_lt
    | schema | memtableEnd => cases he
  · rw [hlsns]
    exact pairwise_map.mpr hsorted

/-- **The frames of the range that are in the files are loaded**, in order and no others. -/
theorem readWalBatchesForLsnRange_chain :
    readWalBatchesForLsnRange crc32 ipc (files.map (file crc32 ipc)) range
      = .ok (range.load (chain files)) := by
  rw [(walChain hread hids hsorted).readWalBatchesForLsnRange_eq, flatMap_map, chain]
  · exact congrArg _ (congrArg _ (flatMap_congr fun f hf ↦ writes_file (hread f hf)))
  · intro _ hfile
    obtain ⟨f, -, rfl⟩ := List.mem_map.mp (mem_of_mem_opened hfile)
    rw [file, decode_encode_newV1]
    rfl

end LoggedFile

end MonoTS
