import MonoTS.Wal.Collect
import MonoTS.Wal.Partition

/-!
# Recovering the WAL into SSTs

Recovery walks the WAL chain and writes each partition as an SST. A partition whose SST cannot be
written is logged and passed over; the walk goes on, and WAL files are collected afterwards against
the index as it is then. The next recovery trims by the largest LSN of that index. So a failed
partition is found again only if its LSNs are behind those of every partition that was written:
`recover_keeps_frames_iff`.

Which partitions fail is an arbitrary function of their number. Frames are those a recovery reads; a
frame behind a torn or undecodable one is not seen by any recovery.
-/

open List

namespace MonoTS

open LittleEndian ByteStream WalRecoverPartition WalFile

variable {Schema Batch : Type*} (crc32 : Bytes → UInt32) (ipc : ArrowIpc Schema Batch)

/-! ## The span of a segment, from its frame headers -/

/-- Read a header and skip the body without looking at it; the skip may end behind the file. -/
def nextHeader (r : Bytes) : Step FrameHeader Unit :=
  match FrameHeader.decode r with
  | .ok (some (h, behind)) => .item h (behind.drop h.bodyLen)
  | _ => .stop ()

theorem consuming_nextHeader : Consuming nextHeader := by
  intro r h rest hr
  unfold nextHeader at hr
  split at hr
  · next h' behind hd =>
    cases hr
    have hdec := FrameHeader.decode_eq_some hd
    rw [hdec.2.2.2.2.2.2.2, length_drop, length_drop]
    have hlen := hdec.1
    unfold frameHeaderSize at *
    omega
  · cases hr

namespace WalFile

variable (file : WalFile)

/-- The frame headers, found by skipping bodies. -/
def headers : List FrameHeader :=
  match SegmentHeader.decode file.bytes with
  | .error _ => []
  | .ok (_, r) => (items nextHeader r).1.map Prod.fst

/-- The loop over the headers, with the smallest and the largest LSN so far. -/
def lsnRangeLoop : List FrameHeader → ℕ → ℕ → ℕ × ℕ
  | [], lo, hi => (lo, hi)
  | frame :: frames, lo, hi =>
    if frame.recordType = .batch ∧ 0 < frame.lsn then
      lsnRangeLoop frames (min lo frame.lsn) (max hi frame.lsn)
    else if frame.recordType = .footer then (lo, hi)
    else lsnRangeLoop frames lo hi

/-- Inclusive LSN range of the batch frames; `(0, 0)` if there are none. -/
def lsnRangeInSegment : ℕ × ℕ :=
  let range := lsnRangeLoop file.headers (2 ^ 64 - 1) 0
  if range.2 = 0 then (0, 0) else range

def hasBatchHeader : List FrameHeader → Bool
  | [] => false
  | frame :: frames =>
    match frame.recordType with
    | .batch => true
    | .footer => false
    | _ => hasBatchHeader frames

def segmentHasBatches : Bool := hasBatchHeader file.headers

theorem le_lsnRangeLoop (frames : List FrameHeader) (lo hi : ℕ) :
    hi ≤ (lsnRangeLoop frames lo hi).2 := by
  induction frames generalizing lo hi with
  | nil => exact le_rfl
  | cons frame frames ih =>
    unfold lsnRangeLoop
    split_ifs
    · exact (le_max_left _ _).trans (ih _ _)
    · exact le_rfl
    · exact ih _ _

variable {crc32 ipc} {sstMax : ℕ} {hasFiles : Bool}

theorem le_lsnRangeLoop_of_mem {frames : List (FrameHeader × Bytes)} {hs : List FrameHeader}
    {w : Write Batch} (hpre : frames.map Prod.fst <+: hs)
    (hw : w ∈ MonoTS.recoverable ipc sstMax hasFiles frames) (lo hi : ℕ) :
    w.1 ≤ (lsnRangeLoop hs lo hi).2 := by
  induction frames generalizing hs lo hi with
  | nil => cases hw
  | cons x frames ih =>
    obtain ⟨frame, _⟩ := x
    obtain ⟨rest, rfl⟩ := hpre
    have hrest : frames.map Prod.fst <+: frames.map Prod.fst ++ rest := prefix_append _ _
    rw [map_cons, cons_append]
    unfold MonoTS.recoverable at hw
    unfold lsnRangeLoop
    split at hw
    · next htype =>
      have hfoot : ¬ frame.recordType = .footer := by rw [htype]; exact RecordType.noConfusion
      have htail (h : w ∈ MonoTS.recoverable ipc sstMax hasFiles frames) :
          w.1 ≤ (if frame.recordType = .batch ∧ 0 < frame.lsn then
              lsnRangeLoop (frames.map Prod.fst ++ rest) (min lo frame.lsn) (max hi frame.lsn)
            else if frame.recordType = .footer then (lo, hi)
            else lsnRangeLoop (frames.map Prod.fst ++ rest) lo hi).2 := by
        rw [if_neg hfoot]
        split_ifs
        · exact ih hrest h _ _
        · exact ih hrest h _ _
      split_ifs at hw
      · exact htail hw
      · split at hw
        · rcases mem_cons.mp hw with rfl | hw
          · rcases Nat.eq_zero_or_pos frame.lsn with hzero | hpos
            · exact hzero.trans_le (Nat.zero_le _)
            · rw [if_pos ⟨htype, hpos⟩]
              exact (le_max_right _ _).trans (le_lsnRangeLoop _ _ _)
          · exact htail hw
        · cases hw
    · cases hw
    all_goals
      next htype =>
      rw [if_neg (by rw [htype]; exact fun h ↦ RecordType.noConfusion h.1),
        if_neg (by rw [htype]; exact RecordType.noConfusion)]
      exact ih hrest hw _ _

variable (crc32) in
theorem frames_isPrefix_headers (file : WalFile) :
    (file.frames crc32).map Prod.fst <+: file.headers := by
  unfold frames headers
  cases hdec : SegmentHeader.decode file.bytes with
  | error => exact nil_prefix
  | ok hr =>
    obtain ⟨_, r⟩ := hr
    simp only [map_map]
    refine items_isPrefix (f := Prod.fst) (g := id) (consuming_readFrame crc32)
      consuming_nextHeader (fun r a rest hr ↦ ?_) r
    obtain ⟨hd, -, -, -, hrest⟩ := readFrame_eq_item crc32 hr
    rw [nextHeader, id, hd, hrest]
    rfl

theorem le_lsnRangeInSegment {file : WalFile} {w : Write Batch}
    (hw : w ∈ file.recoverable crc32 ipc sstMax hasFiles) :
    w.1 ≤ file.lsnRangeInSegment.2 := by
  have hle := le_lsnRangeLoop_of_mem (frames_isPrefix_headers crc32 file) hw (2 ^ 64 - 1) 0
  unfold lsnRangeInSegment
  simp only
  split_ifs with hzero
  · rwa [hzero] at hle
  · exact hle

end WalFile

/-! ## Recovery -/

/-- What becomes of a partition. -/
inductive PartitionOutcome where
  /-- The batches cannot be put into a memtable, which ends the recovery. -/
  | rejected (e : TsdbError)
  /-- Writing the SST fails. -/
  | failed
  | written

/-- The SST of a partition. -/
def WalRecoverPartition.toSst (p : WalRecoverPartition Batch) : Sst Batch :=
  if 0 < p.maxLsn then ⟨if p.baseLsn = 0 then p.maxLsn else p.baseLsn, p.maxLsn, p.batches⟩
  else ⟨0, 0, p.batches⟩

/-- What recovery has reached. -/
structure RecoverState (Batch : Type*) where
  nextId : ℕ
  maxRecoveredId : ℕ
  index : List (Sst Batch)

variable (outcome : ℕ → PartitionOutcome)

/-- The callback of the walk. Partitions are numbered from `1`. -/
def onRecoverPartition (s : RecoverState Batch) (p : WalRecoverPartition Batch) :
    Result (RecoverState Batch) :=
  let s' := { s with nextId := s.nextId + 1, maxRecoveredId := max s.maxRecoveredId s.nextId }
  match outcome s.nextId with
  | .rejected e => .error e
  | .failed => .ok s'
  | .written => .ok { s' with index := s.index ++ [p.toSst] }

/-- Returns the largest memtable id used, the index and the WAL chain. -/
def recoverWalToSst (files : List WalFile) (index : List (Sst Batch)) :
    Result (ℕ × List (Sst Batch) × List WalFile) :=
  match walkUnflushedPartitions crc32 ipc (maxLsnInSstMetas index) (!index.isEmpty)
      (onRecoverPartition outcome) files ⟨1, 0, index⟩ with
  | .error e => .error e
  | .ok (s, files) =>
    let left := gcSealedWalFiles (fun f ↦ f.lsnRangeInSegment.2) segmentHasBatches
      (fun _ ↦ false) s.index [] files
    .ok (s.maxRecoveredId, s.index, left.1)

/-! ## The index after recovery -/

/-- The partitions that are written, of those numbered from `id` on. -/
def writtenParts : ℕ → List (List (Write Batch)) → List (List (Write Batch))
  | _, [] => []
  | id, part :: parts =>
    match outcome id with
    | .written => part :: writtenParts (id + 1) parts
    | _ => writtenParts (id + 1) parts

variable {outcome} {parts : List (List (Write Batch))} {part : List (Write Batch)}
  {s s' : RecoverState Batch}

theorem mem_writtenParts {id : ℕ} :
    part ∈ writtenParts outcome id parts ↔
      ∃ i, parts[i]? = some part ∧ outcome (id + i) = .written := by
  induction parts generalizing id with
  | nil => simp [writtenParts]
  | cons x parts ih =>
    have hsplit : (∃ i, (x :: parts)[i]? = some part ∧ outcome (id + i) = .written) ↔
        x = part ∧ outcome id = .written ∨
          ∃ i, parts[i]? = some part ∧ outcome (id + 1 + i) = .written := by
      constructor
      · rintro ⟨i | i, hi, ho⟩
        · exact .inl ⟨Option.some.inj hi, ho⟩
        · exact .inr ⟨i, hi, by rwa [Nat.add_assoc, Nat.add_comm 1 i]⟩
      · rintro (⟨rfl, ho⟩ | ⟨i, hi, ho⟩)
        · exact ⟨0, rfl, ho⟩
        · exact ⟨i + 1, hi, by rwa [Nat.add_assoc, Nat.add_comm 1 i] at ho⟩
    rw [hsplit, ← ih]
    cases ho : outcome id with
    | written => simp only [writtenParts, ho, mem_cons, and_true, eq_comm]
    | failed | rejected => simp [writtenParts, ho]

/-- A partition that the callback takes is written or left out, and uses up an id. -/
theorem onRecoverPartition_eq_ok {p : WalRecoverPartition Batch}
    (h : onRecoverPartition outcome s p = .ok s') : s'.nextId = s.nextId + 1 ∧
      (outcome s.nextId = .written ∧ s'.index = s.index ++ [p.toSst] ∨
        outcome s.nextId = .failed ∧ s'.index = s.index) := by
  rw [onRecoverPartition] at h
  cases ho : outcome s.nextId with
  | rejected =>
    rw [ho] at h
    cases h
  | failed =>
    rw [ho] at h
    cases h
    exact ⟨rfl, .inr ⟨rfl, rfl⟩⟩
  | written =>
    rw [ho] at h
    cases h
    exact ⟨rfl, .inl ⟨rfl, rfl⟩⟩

section

variable (h : callBack (onRecoverPartition outcome) s parts = .ok s')

include h

theorem callBack_recover : s'.index =
      s.index ++ (writtenParts outcome s.nextId parts).map fun p ↦ (toPartition p).toSst := by
  induction parts generalizing s with
  | nil =>
    cases h
    exact (append_nil _).symm
  | cons part parts ih =>
    rw [callBack, foldlM_cons] at h
    obtain ⟨_, ht, h⟩ := Result.bind_eq_ok.mp h
    obtain ⟨hid, ⟨ho, hidx⟩ | ⟨ho, hidx⟩⟩ := onRecoverPartition_eq_ok ht
    · rw [ih h, hid, hidx, writtenParts, ho, append_assoc]
      rfl
    · rw [ih h, hid, hidx, writtenParts, ho]

theorem callBack_not_rejected {i : ℕ} (hi : parts[i]? = some part) :
    outcome (s.nextId + i) = .written ∨ outcome (s.nextId + i) = .failed := by
  induction parts generalizing s i with
  | nil => cases hi
  | cons x parts ih =>
    rw [callBack, foldlM_cons] at h
    obtain ⟨_, ht, h⟩ := Result.bind_eq_ok.mp h
    obtain ⟨hid, hwr⟩ := onRecoverPartition_eq_ok ht
    rcases i with _ | i
    · exact hwr.imp And.left And.left
    · have hrest := ih h hi
      rwa [hid, Nat.add_right_comm] at hrest

end

theorem toSst_maxLsn (p : WalRecoverPartition Batch) : p.toSst.maxLsn = p.maxLsn := by
  unfold toSst
  split_ifs with h
  · rfl
  · rfl
  · exact (Nat.eq_zero_of_not_pos h).symm

theorem toSst_contents (part : List (Write Batch)) :
    (toPartition part).toSst.contents = part.map Prod.snd := by
  rw [← toPartition_batches]
  unfold toSst
  split_ifs <;> rfl

theorem toPartition_maxLsn_lt {l : ℕ} (hpos : 0 < l) :
    (toPartition part).maxLsn < l ↔ ∀ x ∈ part, x.1 < l := by
  suffices h : ∀ p : WalRecoverPartition Batch,
      (part.foldl push p).maxLsn < l ↔ p.maxLsn < l ∧ ∀ x ∈ part, x.1 < l by
    rw [toPartition, h]
    exact and_iff_right hpos
  induction part with
  | nil => simp
  | cons x part ih =>
    intro p
    rw [foldl_cons, ih, forall_mem_cons, ← and_assoc]
    exact and_congr_left' max_lt_iff

/-! ## Lost and kept frames -/

/-- Every frame of a failed partition, if no SST had it before, is written with another partition or
has an LSN behind those of every partition that is written. -/
def FailuresBehind (outcome : ℕ → PartitionOutcome) (sstMax : ℕ)
    (parts : List (List (Write Batch))) : Prop :=
  ∀ i part, parts[i]? = some part → outcome (1 + i) = .failed → ∀ w ∈ part, sstMax < w.1 →
    (∃ j q, parts[j]? = some q ∧ outcome (1 + j) = .written ∧ w.2 ∈ q.map Prod.snd) ∨
      ∀ j q, parts[j]? = some q → outcome (1 + j) = .written → ∀ x ∈ q, x.1 < w.1

section

variable {crc32 ipc} {files files' : List WalFile} {index index' : List (Sst Batch)} {id : ℕ}

/-- What a recovery that returned has done: the callbacks went through, the chain was only appended
to, and the files the index covers were dropped. -/
theorem recoverWalToSst_ok
    (h : recoverWalToSst crc32 ipc outcome files index = .ok (id, index', files')) :
    ∃ s walked, callBack (onRecoverPartition outcome) ⟨1, 0, index⟩
        (chainPartitions crc32 ipc (maxLsnInSstMetas index) (!index.isEmpty) files) = .ok s ∧
      List.Forall₂ WalFile.Extends files walked ∧ s.index = index' ∧
      files' = (gcSealedWalFiles (fun f ↦ f.lsnRangeInSegment.2) segmentHasBatches
        (fun _ ↦ false) index' [] walked).1 := by
  unfold recoverWalToSst at h
  split at h
  · cases h
  next s walked hwalk =>
  cases h
  obtain ⟨hcall, hfs⟩ := walk_ok crc32 ipc hwalk
  exact ⟨s, walked, hcall, hfs, rfl, rfl⟩

variable {s : RecoverState Batch} {parts : List (List (Write Batch))} {w : Write Batch}

section

variable (hcall : callBack (onRecoverPartition outcome) ⟨1, 0, index⟩ parts = .ok s)

include hcall

theorem mem_inserted : (∃ x ∈ s.index.drop index.length, w.2 ∈ x.contents) ↔
      ∃ j q, parts[j]? = some q ∧ outcome (1 + j) = .written ∧ w.2 ∈ q.map Prod.snd := by
  rw [callBack_recover hcall, drop_left]
  constructor
  · rintro ⟨_, hx, hw⟩
    obtain ⟨q, hq, rfl⟩ := mem_map.mp hx
    obtain ⟨j, hj, ho⟩ := mem_writtenParts.mp hq
    exact ⟨j, q, hj, ho, toSst_contents q ▸ hw⟩
  · rintro ⟨j, q, hj, ho, hw⟩
    have hq := mem_writtenParts.mpr ⟨j, hj, ho⟩
    exact ⟨_, mem_map_of_mem hq, (toSst_contents q).symm ▸ hw⟩

/-- The new trim point is below an LSN if the old one and all written partitions are. -/
theorem trim_lt_iff (hlt : maxLsnInSstMetas index < w.1) :
    maxLsnInSstMetas s.index < w.1 ↔
      ∀ j q, parts[j]? = some q → outcome (1 + j) = .written → ∀ x ∈ q, x.1 < w.1 := by
  have hpos : 0 < w.1 := (Nat.zero_le _).trans_lt hlt
  rw [maxLsnInSstMetas_lt_iff hpos, callBack_recover hcall, forall_mem_append,
    and_iff_right ((maxLsnInSstMetas_lt_iff hpos).mp hlt), forall_mem_map]
  constructor
  · intro hall j q hj ho
    have hq := hall q (mem_writtenParts.mpr ⟨j, hj, ho⟩)
    rwa [toSst_maxLsn, toPartition_maxLsn_lt hpos] at hq
  · intro hall q hq
    obtain ⟨j, hj, ho⟩ := mem_writtenParts.mp hq
    rw [toSst_maxLsn, toPartition_maxLsn_lt hpos]
    exact hall j q hj ho

end

/-- A frame behind every SST of the index is still there, and the next recovery rebuilds it. -/
theorem mem_recoverable_after {walked : List WalFile} {file : WalFile}
    (hext : List.Forall₂ WalFile.Extends files walked)
    (hmono : ∀ s ∈ index, s ∈ index') (hfile : file ∈ files)
    (hw : w ∈ file.recoverable crc32 ipc (maxLsnInSstMetas index) (!index.isEmpty))
    (hlt : maxLsnInSstMetas index' < w.1) :
    ∃ file' ∈ (gcSealedWalFiles (fun f ↦ f.lsnRangeInSegment.2) segmentHasBatches
        (fun _ ↦ false) index' [] walked).1,
      w ∈ file'.recoverable crc32 ipc (maxLsnInSstMetas index') (!index'.isEmpty) := by
  obtain ⟨file', hfile', hexte⟩ := exists_extends hext hfile
  have hfs : (!index.isEmpty) = true → (!index'.isEmpty) = true := by
    rw [Bool.not_eq_true', Bool.not_eq_true', isEmpty_eq_false_iff_exists_mem,
      isEmpty_eq_false_iff_exists_mem]
    exact fun ⟨s, hs⟩ ↦ ⟨s, hmono s hs⟩
  have hw' : w ∈ file'.recoverable crc32 ipc (maxLsnInSstMetas index') (!index'.isEmpty) :=
    mem_recoverable_mono ipc (hexte.frames crc32) (maxLsnInSstMetas_mono hmono) hfs hlt hw
  rcases mem_gcSealedWalFiles (.inr hfile') with hkept | hdrop
  · exact ⟨file', hkept, hw'⟩
  · -- A dropped file's last LSN is covered, and this frame is not behind it.
    have hle := le_lsnRangeInSegment hw'
    obtain ⟨_, hs, hcov⟩ := covered_of_dropped hdrop (((Nat.zero_le _).trans_lt hlt).trans_le hle)
    have hmax := (hle.trans (Sst.coversLsn_iff.mp hcov).2.2).trans (le_maxLsnInSstMetas hs)
    exact absurd hlt hmax.not_gt

theorem mem_chainPartitions {sstMax : ℕ} {hasFiles : Bool} :
    (∃ part ∈ chainPartitions crc32 ipc sstMax hasFiles files, w ∈ part) ↔
      ∃ file ∈ files, w ∈ file.recoverable crc32 ipc sstMax hasFiles := by
  constructor
  · rintro ⟨part, hpart, hw⟩
    obtain ⟨file, hfile, hpart⟩ := mem_flatMap.mp hpart
    refine ⟨file, hfile, ?_⟩
    rw [WalFile.recoverable, ← flatten_segmentPartitions]
    exact mem_flatten.mpr ⟨part, hpart, hw⟩
  · rintro ⟨file, hfile, hw⟩
    rw [WalFile.recoverable, ← flatten_segmentPartitions] at hw
    obtain ⟨part, hpart, hw⟩ := mem_flatten.mp hw
    exact ⟨part, mem_flatMap.mpr ⟨file, hfile, hpart⟩, hw⟩

/-- **When a failed partition is not lost.** After a recovery that returned `Ok`, every frame that
it read behind the initial trim point is in an SST it inserted or will be rebuilt by the next
recovery, if and only if every frame of a failed partition is written with another one or has an LSN
behind those of all partitions that were written. -/
theorem recover_keeps_frames_iff
    (h : recoverWalToSst crc32 ipc outcome files index = .ok (id, index', files')) :
    (∀ file ∈ files, ∀ w ∈ file.recoverable crc32 ipc (maxLsnInSstMetas index) (!index.isEmpty),
      maxLsnInSstMetas index < w.1 → (∃ s ∈ index'.drop index.length, w.2 ∈ s.contents) ∨
          ∃ file' ∈ files',
            w ∈ file'.recoverable crc32 ipc (maxLsnInSstMetas index') (!index'.isEmpty)) ↔
    FailuresBehind outcome (maxLsnInSstMetas index)
      (chainPartitions crc32 ipc (maxLsnInSstMetas index) (!index.isEmpty) files) := by
  obtain ⟨s, _, hcall, hext, rfl, rfl⟩ := recoverWalToSst_ok h
  have hmono : ∀ x ∈ index, x ∈ s.index := fun x hx ↦
    callBack_recover hcall ▸ mem_append_left _ hx
  constructor
  · intro hkept i part hi _ w hw hlt
    obtain ⟨file, hfile, hrec⟩ := mem_chainPartitions.mp ⟨part, mem_of_getElem? hi, hw⟩
    refine (hkept file hfile w hrec hlt).imp (mem_inserted hcall).mp ?_
    rintro ⟨_, -, hrec'⟩
    exact (trim_lt_iff hcall hlt).mp
      (lt_of_mem_recoverable ipc ((Nat.zero_le _).trans_lt hlt) hrec')
  · intro hbeh file hfile w hrec hlt
    obtain ⟨part, hpart, hw⟩ := mem_chainPartitions.mpr ⟨file, hfile, hrec⟩
    obtain ⟨i, hi⟩ := getElem?_of_mem hpart
    rcases callBack_not_rejected hcall hi with ho | ho
    · exact .inl ((mem_inserted hcall).mpr ⟨i, part, hi, ho, mem_map_of_mem hw⟩)
    · refine (hbeh i part hi ho w hw hlt).imp (mem_inserted hcall).mpr fun hall ↦ ?_
      exact mem_recoverable_after hext hmono hfile hrec ((trim_lt_iff hcall hlt).mpr hall)

end

/-! ## A segment with two memtables -/

/-- A segment with batch `7` at LSN `1`, a marker, batch `8` at LSN `2`, and what else was appended.
-/
def twoMemtables (more : List (AppendOp UInt8)) : WalFile where
  fileId := 1
  path := "00000000000000000001.wal"
  bytes :=
    match FramedSegmentWriter.createWithBlockMax lengthCrc byteIpc "00000000000000000001.wal" none
        1 0 () defaultWalBlockMaxBytes with
    | .ok w =>
      (w.applyAll lengthCrc byteIpc ([.batch 7 1, .memtableEnd 1 1 2, .batch 8 2] ++ more)).file
    | .error _ => []

/-- The write of one partition fails. -/
def failing (id n : ℕ) : PartitionOutcome := if n = id then .failed else .written

/-- The second partition fails and is rebuilt by the next recovery. -/
theorem later_failure_kept :
    recoverWalToSst lengthCrc byteIpc (failing 2) [twoMemtables []] [] =
        .ok (2, [⟨1, 1, [7]⟩], [twoMemtables [.memtableEnd 2 2 3]]) ∧
      ∀ w ∈ (twoMemtables []).recoverable lengthCrc byteIpc 0 false, 0 < w.1 →
        (∃ s ∈ [(⟨1, 1, [7]⟩ : Sst UInt8)], w.2 ∈ s.contents) ∨
          ∃ file' ∈ [twoMemtables [.memtableEnd 2 2 3]],
            w ∈ file'.recoverable lengthCrc byteIpc 1 true := by
  have hrec : recoverWalToSst lengthCrc byteIpc (failing 2) [twoMemtables []] [] =
      .ok (2, [⟨1, 1, [7]⟩], [twoMemtables [.memtableEnd 2 2 3]]) := by decide +kernel
  have hpart : chainPartitions lengthCrc byteIpc 0 false [twoMemtables []] =
      [[(1, 7)], [(2, 8)]] := by decide +kernel
  have hbeh : FailuresBehind (failing 2) 0
      (chainPartitions lengthCrc byteIpc 0 false [twoMemtables []]) := by
    rw [hpart]
    intro i part hi ho w hw _
    obtain rfl : i = 1 := by
      have hid : 1 + i = 2 := by
        by_contra hne
        rw [failing, if_neg hne] at ho
        cases ho
      omega
    cases hi
    rw [mem_singleton.mp hw]
    refine .inr fun j q hj hwr x hx ↦ ?_
    match j with
    | 0 =>
      cases hj
      rw [mem_singleton.mp hx]
      decide
    | 1 => cases hwr
    | j + 2 => cases hj
  refine ⟨hrec, ?_⟩
  exact (recover_keeps_frames_iff hrec).mpr hbeh (twoMemtables []) mem_cons_self

/-- The first partition fails and the second is written: the first batch is in no SST, and the next
recovery trims its frame. -/
theorem earlier_failure_lost :
    recoverWalToSst lengthCrc byteIpc (failing 1) [twoMemtables []] [] =
        .ok (2, [⟨2, 2, [8]⟩], [twoMemtables [.memtableEnd 2 2 3]]) ∧
      (1, 7) ∈ (twoMemtables []).recoverable lengthCrc byteIpc 0 false ∧
      ¬ ((∃ s ∈ [(⟨2, 2, [8]⟩ : Sst UInt8)], 7 ∈ s.contents) ∨
        ∃ file' ∈ [twoMemtables [.memtableEnd 2 2 3]],
          (1, 7) ∈ file'.recoverable lengthCrc byteIpc 2 true) := by
  refine ⟨by decide +kernel, by decide +kernel, ?_⟩
  decide +kernel

end MonoTS
