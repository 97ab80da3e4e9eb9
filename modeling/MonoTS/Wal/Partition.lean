import MonoTS.Table.Sst
import MonoTS.Wal.Walk

/-!
# What the recovery walk hands on

The walk keeps one partition open while it reads, and passes it on at markers and at the end of each
segment. Stated without the accumulators: the frames of a segment that are read, decoded and not
covered by an SST (`recoverable`), cut at the markers (`segmentPartitions`). `walk_eq_ok` says that
the walk calls back with exactly these partitions, in the order of the chain, and seals each segment
on its own; it changes a segment file only by appending to it (`walk_ok`).

Both hold for arbitrary bytes, so also for segments with a torn tail.
-/

open List

namespace MonoTS

open LittleEndian ByteStream FramedSegmentWriter SegmentHeader

variable {Schema Batch σ τ : Type*} (crc32 : Bytes → UInt32) (ipc : ArrowIpc Schema Batch)

/-! ## Frames and partitions of a segment -/

section

variable (sstMax : ℕ) (hasFiles : Bool)

/-- The batches the frame loop collects, each with its LSN. A batch that cannot be decoded ends the
loop, as the footer does. -/
def recoverable : List (FrameHeader × Bytes) → List (Write Batch)
  | [] => []
  | (frame, payload) :: frames =>
    match frame.recordType with
    | .batch =>
      if batchNeedsRecover frame.lsn sstMax hasFiles = false then recoverable frames
      else
        match ipc.decodeBatch payload with
        | .ok batch => (frame.lsn, batch) :: recoverable frames
        | .error _ => []
    | .footer => []
    | .schema | .memTableEnd | .unknown _ => recoverable frames

/-- A partition, unless it is empty. -/
def nonempty (part : List (Write Batch)) : List (List (Write Batch)) :=
  if part.isEmpty then [] else [part]

/-- Cut the collected batches at the markers, with `part` open so far: the partitions that were
closed, and the one that is open in the end. -/
def splitFrames : List (FrameHeader × Bytes) → List (Write Batch) →
    List (List (Write Batch)) × List (Write Batch)
  | [], part => ([], part)
  | (frame, payload) :: frames, part =>
    match frame.recordType with
    | .batch =>
      if batchNeedsRecover frame.lsn sstMax hasFiles = false then splitFrames frames part
      else
        match ipc.decodeBatch payload with
        | .ok batch => splitFrames frames (part ++ [(frame.lsn, batch)])
        | .error _ => ([], part)
    | .footer => ([], part)
    | .memTableEnd =>
      let r := splitFrames frames []
      (nonempty part ++ r.1, r.2)
    | .schema | .unknown _ => splitFrames frames part

/-- The partitions of a segment. -/
def segmentPartitions (frames : List (FrameHeader × Bytes)) : List (List (Write Batch)) :=
  let r := splitFrames ipc sstMax hasFiles frames []
  r.1 ++ nonempty r.2

/-- The frames a reader sees behind the segment header; none if the header cannot be read. -/
def WalFile.frames (file : WalFile) : List (FrameHeader × Bytes) :=
  match decode file.bytes with
  | .error _ => []
  | .ok (_, r) => (segmentFrames crc32 r).1.map Prod.fst

/-- The frames of a file that recovery would rebuild. -/
def WalFile.recoverable (file : WalFile) : List (Write Batch) :=
  MonoTS.recoverable ipc sstMax hasFiles (file.frames crc32)

/-- The partitions of the chain. -/
def chainPartitions (files : List WalFile) : List (List (Write Batch)) :=
  files.flatMap fun file ↦ segmentPartitions ipc sstMax hasFiles (file.frames crc32)

end

section

variable {ipc} {sstMax : ℕ} {hasFiles : Bool}

@[simp] theorem flatten_nonempty (part : List (Write Batch)) : (nonempty part).flatten = part := by
  unfold nonempty
  split_ifs with h
  · exact (List.isEmpty_iff.mp h).symm
  · exact flatten_singleton

variable (frames : List (FrameHeader × Bytes))

theorem flatten_splitFrames (part : List (Write Batch)) :
    (splitFrames ipc sstMax hasFiles frames part).1.flatten ++
        (splitFrames ipc sstMax hasFiles frames part).2 =
      part ++ recoverable ipc sstMax hasFiles frames := by
  induction frames generalizing part with
  | nil => simp [splitFrames, recoverable]
  | cons x frames ih =>
    obtain ⟨frame, payload⟩ := x
    cases htype : frame.recordType with
    | batch =>
      cases hneed : batchNeedsRecover frame.lsn sstMax hasFiles with
      | false => simp only [splitFrames, recoverable, htype, hneed, if_true, ih]
      | true =>
        cases hdec : ipc.decodeBatch payload with
        | ok =>
          simp only [splitFrames, recoverable, htype, hneed, hdec, ih, Bool.true_eq_false,
            if_false, append_assoc, singleton_append]
        | error =>
          simp only [splitFrames, recoverable, htype, hneed, hdec, Bool.true_eq_false, if_false,
            flatten_nil, nil_append, append_nil]
    | footer =>
      simp only [splitFrames, recoverable, htype, flatten_nil, nil_append, append_nil]
    | memTableEnd =>
      simp only [splitFrames, recoverable, htype, flatten_append, flatten_nonempty,
        append_assoc, ih, nil_append]
    | schema | unknown => simp only [splitFrames, recoverable, htype, ih]

/-- Nothing collected is left out of the partitions, and nothing else is in them. -/
theorem flatten_segmentPartitions : (segmentPartitions ipc sstMax hasFiles frames).flatten =
      recoverable ipc sstMax hasFiles frames := by
  rw [segmentPartitions, flatten_append, flatten_nonempty, flatten_splitFrames, nil_append]

variable {part p : List (Write Batch)}

theorem ne_nil_of_mem_nonempty (h : p ∈ nonempty part) : p ≠ [] := by
  rw [nonempty] at h
  split_ifs at h with hemp
  · cases h
  · rw [mem_singleton.mp h]
    exact fun hnil ↦ hemp (List.isEmpty_iff.mpr hnil)

theorem ne_nil_of_mem_splitFrames {frames : List (FrameHeader × Bytes)}
    (h : p ∈ (splitFrames ipc sstMax hasFiles frames part).1) : p ≠ [] := by
  induction frames generalizing part with
  | nil => cases h
  | cons x frames ih =>
    obtain ⟨frame, _⟩ := x
    cases htype : frame.recordType with
    | batch =>
      simp only [splitFrames, htype] at h
      split_ifs at h
      · exact ih h
      · split at h
        · exact ih h
        · cases h
    | footer =>
      simp only [splitFrames, htype] at h
      cases h
    | memTableEnd =>
      simp only [splitFrames, htype] at h
      rcases mem_append.mp h with h | h
      · exact ne_nil_of_mem_nonempty h
      · exact ih h
    | schema | unknown =>
      simp only [splitFrames, htype] at h
      exact ih h

theorem ne_nil_of_mem_chainPartitions {files : List WalFile}
    (h : p ∈ chainPartitions crc32 ipc sstMax hasFiles files) : p ≠ [] := by
  obtain ⟨_, -, h⟩ := mem_flatMap.mp h
  rcases mem_append.mp h with h | h
  · exact ne_nil_of_mem_splitFrames h
  · exact ne_nil_of_mem_nonempty h

end

/-! ## The walk -/

/-- Add a batch to a partition, as the walk does. -/
def WalRecoverPartition.push (p : WalRecoverPartition Batch) (w : Write Batch) :
    WalRecoverPartition Batch where
  batches := p.batches ++ [w.2]
  baseLsn := if 0 < w.1 ∧ (p.baseLsn = 0 ∨ w.1 < p.baseLsn) then w.1 else p.baseLsn
  maxLsn := max p.maxLsn w.1

variable (part : List (Write Batch))

/-- The partition of a run of frames. -/
def toPartition : WalRecoverPartition Batch :=
  part.foldl WalRecoverPartition.push ⟨[], 0, 0⟩

theorem toPartition_concat (w : Write Batch) :
    toPartition (part ++ [w]) = (toPartition part).push w := by
  rw [toPartition, foldl_append]
  rfl

theorem toPartition_batches : (toPartition part).batches = part.map Prod.snd := by
  suffices h : ∀ p : WalRecoverPartition Batch,
      (part.foldl WalRecoverPartition.push p).batches = p.batches ++ part.map Prod.snd from h _
  induction part with
  | nil => exact fun p ↦ (append_nil _).symm
  | cons w part ih =>
    intro p
    rw [foldl_cons, ih, map_cons]
    exact append_assoc _ _ _

variable (w : WalkState Batch σ)

/-- The partition that is open in a state of the walk. -/
def WalkState.openPart : WalRecoverPartition Batch :=
  ⟨w.batches, w.baseLsn, w.maxLsn⟩

variable {sstMax : ℕ} {hasFiles : Bool}
  {onPartition : σ → WalRecoverPartition Batch → Result σ}

/-- Call back with partitions one after another. -/
def callBack (onPartition : σ → WalRecoverPartition Batch → Result σ) (acc : σ)
    (parts : List (List (Write Batch))) : Result σ :=
  parts.foldlM (fun acc part ↦ onPartition acc (toPartition part)) acc

theorem callBack_append (acc : σ) (parts parts' : List (List (Write Batch))) :
    callBack onPartition acc (parts ++ parts') =
      (callBack onPartition acc parts).bind fun acc ↦ callBack onPartition acc parts' :=
  foldlM_append

/-- The state with another state of the callback. -/
def WalkState.withAcc (acc : τ) : WalkState Batch τ :=
  ⟨w.batches, w.baseLsn, w.maxLsn, acc, w.logicalActive, w.openTailHasBatches, w.openTailMaxLsn,
    w.segmentComplete⟩

variable {w : WalkState Batch σ} {part : List (Write Batch)}

theorem isEmpty_of_openPart (h : w.openPart = toPartition part) :
    w.batches.isEmpty = part.isEmpty := by
  have hb : w.batches = part.map Prod.snd := by
    rw [← toPartition_batches, ← h]
    rfl
  rw [hb]
  cases part <;> rfl

theorem emit_eq {w : WalkState Batch τ} (h : w.openPart = toPartition part) (acc : σ) :
    (w.withAcc acc).emit onPartition =
      (callBack onPartition acc (nonempty part)).map w.discardOpen.withAcc := by
  have hemp : (w.withAcc acc).batches.isEmpty = part.isEmpty := isEmpty_of_openPart h
  have hopen : (⟨(w.withAcc acc).batches, (w.withAcc acc).baseLsn, (w.withAcc acc).maxLsn⟩ :
      WalRecoverPartition Batch) = toPartition part := h
  rw [WalkState.emit, hemp, hopen, nonempty]
  split_ifs with hpart
  · have hb : w.batches = [] := List.isEmpty_iff.mp (hemp.trans hpart)
    simp only [callBack, foldlM_nil, pure, Except.pure, Except.map, WalkState.withAcc,
      WalkState.discardOpen, hb]
  · rw [callBack, foldlM_cons]
    change (match onPartition acc (toPartition part) with | .ok acc => _ | .error e => _) = _
    cases onPartition acc (toPartition part) <;> rfl

/-- The open partition of a state is that of the frames `part`, which the tail accounts for. -/
structure WalkState.Holds (w : WalkState Batch σ) (part : List (Write Batch)) : Prop where
  openPart : w.openPart = toPartition part
  tail : part ≠ [] → w.openTailHasBatches = true

theorem WalkState.Holds.push (h : w.Holds part) (lsn : ℕ) (batch : Batch) :
    ((w.noteBatch lsn).push lsn batch).Holds (part ++ [(lsn, batch)]) where
  openPart := by
    rw [toPartition_concat, ← h.openPart]
    rfl
  tail := fun _ ↦ rfl

section

variable (sstMax hasFiles)

/-- The frame loop without the callback: what it would pass on is dropped. -/
def WalkState.read : List (FrameHeader × Bytes) → WalkState Batch σ → WalkState Batch σ
  | [], w => w
  | (frame, payload) :: frames, w =>
    match frame.recordType with
    | .batch =>
      let w := w.noteBatch frame.lsn
      if batchNeedsRecover frame.lsn sstMax hasFiles = false then w.read frames
      else
        match ipc.decodeBatch payload with
        | .ok batch => (w.push frame.lsn batch).read frames
        | .error _ => w
    | .footer => { w with segmentComplete := true }
    | .memTableEnd => (w.closeTail payload).discardOpen.read frames
    | .schema | .unknown _ => w.read frames

end

/-- The frame loop calls back with the partitions that the markers close. -/
theorem walkFrames_eq {frames : List ((FrameHeader × Bytes) × Bytes)} {w : WalkState Batch τ}
    (h : w.Holds part) (acc : σ) :
    walkFrames ipc sstMax hasFiles onPartition frames (w.withAcc acc) =
      (callBack onPartition acc
        (splitFrames ipc sstMax hasFiles (frames.map Prod.fst) part).1).map
        (w.read ipc sstMax hasFiles (frames.map Prod.fst)).withAcc := by
  induction frames generalizing w part acc with
  | nil => rfl
  | cons x frames ih =>
    obtain ⟨⟨frame, payload⟩, _⟩ := x
    have hnote : (w.noteBatch frame.lsn).Holds part := ⟨h.openPart, fun _ ↦ rfl⟩
    rw [map_cons]
    cases htype : frame.recordType with
    | schema | unknown =>
      simp only [walkFrames, splitFrames, WalkState.read, htype]
      exact ih h acc
    | footer =>
      simp only [walkFrames, splitFrames, WalkState.read, htype]
      rfl
    | batch =>
      simp only [walkFrames, splitFrames, WalkState.read, htype]
      split_ifs with hneed
      · exact ih hnote acc
      · cases ipc.decodeBatch payload with
        | ok batch => exact ih (h.push frame.lsn batch) acc
        | error => rfl
    | memTableEnd =>
      -- closing the tail does not touch the open partition, which is passed on here
      have hemit : ((w.withAcc acc).closeTail payload).emit onPartition =
          (callBack onPartition acc (nonempty part)).map
            (w.closeTail payload).discardOpen.withAcc :=
        emit_eq (w := w.closeTail payload) h.openPart acc
      simp only [walkFrames, splitFrames, WalkState.read, htype, hemit, callBack_append]
      cases callBack onPartition acc (nonempty part) with
      | error => rfl
      | ok acc' => exact ih ⟨rfl, fun hne ↦ absurd rfl hne⟩ acc'

theorem holds_read {frames : List (FrameHeader × Bytes)} (h : w.Holds part) :
    (w.read ipc sstMax hasFiles frames).Holds
      (splitFrames ipc sstMax hasFiles frames part).2 := by
  induction frames generalizing w part with
  | nil => exact h
  | cons x frames ih =>
    obtain ⟨frame, payload⟩ := x
    have hnote : (w.noteBatch frame.lsn).Holds part := ⟨h.openPart, fun _ ↦ rfl⟩
    cases htype : frame.recordType with
    | schema | unknown =>
      simp only [splitFrames, WalkState.read, htype]
      exact ih h
    | footer =>
      simp only [splitFrames, WalkState.read, htype]
      exact { h with }
    | batch =>
      simp only [splitFrames, WalkState.read, htype]
      split_ifs with hneed
      · exact ih hnote
      · cases ipc.decodeBatch payload with
        | ok batch => exact ih (h.push frame.lsn batch)
        | error => exact hnote
    | memTableEnd =>
      simp only [splitFrames, WalkState.read, htype]
      exact ih ⟨rfl, fun hne ↦ absurd rfl hne⟩

/-- A file that kept every byte and may have more at the end. -/
structure WalFile.Extends (file file' : WalFile) : Prop where
  fileId : file'.fileId = file.fileId
  bytes : ∃ x, file'.bytes = file.bytes ++ x

theorem WalFile.Extends.refl (file : WalFile) : file.Extends file :=
  ⟨rfl, [], (append_nil _).symm⟩

variable {files files' : List WalFile} {file file' : WalFile}

theorem exists_extends (h : List.Forall₂ WalFile.Extends files files') (hfile : file ∈ files) :
    ∃ file' ∈ files', file.Extends file' := by
  induction h with
  | nil => cases hfile
  | cons hext _ ih =>
    rcases mem_cons.mp hfile with rfl | hfile
    · exact ⟨_, mem_cons_self, hext⟩
    · obtain ⟨file', hmem, hext'⟩ := ih hfile
      exact ⟨file', mem_cons_of_mem _ hmem, hext'⟩

theorem sealOpenWalTail_ok {endLsn closed new : ℕ}
    (h : sealOpenWalTail crc32 ipc file endLsn closed new = .ok file') : file.Extends file' := by
  unfold sealOpenWalTail at h
  split at h
  · cases h
  split_ifs at h
  · cases h
    exact .refl file
  split at h
  · cases h
  next writer hres =>
  split at h
  · cases h
  next writer' happ =>
  cases h
  refine ⟨rfl, ?_⟩
  -- The reopened writer has the file as it was, and the marker is appended to it.
  have hfile : writer.file = file.bytes := by
    unfold resumeAny resume
      resumeWithBlockMax at hres
    split at hres
    · cases hres
    split at hres
    · cases hres
    split_ifs at hres
    cases hres
    rfl
  simp only [appendMemtableEnd] at happ
  split at happ
  · cases happ
  next bytes _ =>
  cases happ
  exact ⟨bytes, congrArg (· ++ bytes) hfile⟩

section

variable (sstMax hasFiles)

/-- The state in which a segment is read. -/
def WalkState.start (memtableId : ℕ) : WalkState Batch Unit :=
  ⟨[], 0, 0, (), memtableId, false, 0, false⟩

/-- Seal the file if its tail is open and it has no footer. -/
def WalFile.sealTail (file : WalFile) (w : WalkState Batch σ) : Result WalFile :=
  if w.openTailHasBatches = true ∧ w.segmentComplete = false then
    sealOpenWalTail crc32 ipc file w.openTailMaxLsn w.logicalActive
      (saturatingAdd w.logicalActive 1)
  else .ok file

/-- The file as the walk leaves it. -/
def WalFile.afterWalk (file : WalFile) : Result WalFile :=
  match decode file.bytes with
  | .error _ => .ok file
  | .ok (header, _) =>
    file.sealTail crc32 ipc
      ((WalkState.start header.memtableId).read ipc sstMax hasFiles (file.frames crc32))

end

theorem finishSegment_eq {w : WalkState Batch τ} (h : w.Holds part) (acc : σ) :
    finishSegment crc32 ipc onPartition file (w.withAcc acc) =
      (callBack onPartition acc (nonempty part)).bind fun acc' ↦
        (file.sealTail crc32 ipc w).map fun file' ↦ (w.discardOpen.withAcc acc', file') := by
  rw [finishSegment, emit_eq h.openPart, WalFile.sealTail]
  change (if w.openTailHasBatches = true then _ else _) = _
  cases hopen : w.openTailHasBatches with
  | true =>
    cases callBack onPartition acc (nonempty part) with
    | error => rfl
    | ok =>
      simp only [Except.map, Except.bind, WalkState.withAcc, WalkState.discardOpen, if_true,
        true_and]
      cases w.segmentComplete with
      | true => rfl
      | false =>
        simp only [Bool.false_eq_true, if_false, if_true, hopen]
        split <;> rename_i hseal <;> rw [hseal]
  | false =>
    -- without an open tail nothing is open, so nothing is discarded
    have hpart : part = [] := by
      by_contra hne
      exact absurd (h.tail hne) (by simp [hopen])
    subst hpart
    rfl

/-- One segment: the walk calls back with its partitions, and seals its tail. -/
theorem exists_walkSegments_cons (h : w.openPart = toPartition []) (file : WalFile) :
    ∃ v : WalkState Batch Unit, v.openPart = toPartition [] ∧ ∀ files,
      walkSegments crc32 ipc sstMax hasFiles onPartition (file :: files) w =
        (callBack onPartition w.acc
          (segmentPartitions ipc sstMax hasFiles (file.frames crc32))).bind fun acc ↦
        (file.afterWalk crc32 ipc sstMax hasFiles).bind fun file' ↦
        (walkSegments crc32 ipc sstMax hasFiles onPartition files (v.withAcc acc)).map
          fun r ↦ (r.1, file' :: r.2) := by
  cases hdec : decode file.bytes with
  | error =>
    refine ⟨w.withAcc (), h, fun files ↦ ?_⟩
    simp only [walkSegments, WalFile.frames, WalFile.afterWalk, hdec]
    change _ = (walkSegments crc32 ipc sstMax hasFiles onPartition files w).map _
    cases walkSegments crc32 ipc sstMax hasFiles onPartition files w <;> rfl
  | ok hr =>
    obtain ⟨header, r⟩ := hr
    have hfr : file.frames crc32 = (segmentFrames crc32 r).1.map Prod.fst := by
      rw [WalFile.frames, hdec]
    -- the fields that are not reset are those of the open partition
    have hst : w.enter header.memtableId = (WalkState.start header.memtableId).withAcc w.acc := by
      obtain ⟨hbs, hbase, hmax⟩ := WalRecoverPartition.mk.inj h
      simp only [WalkState.enter, WalkState.start, WalkState.withAcc, hbs, hbase, hmax]
    have henter : (WalkState.start header.memtableId : WalkState Batch Unit).Holds [] :=
      ⟨rfl, fun hne ↦ absurd rfl hne⟩
    refine ⟨((WalkState.start header.memtableId).read ipc sstMax hasFiles
      (file.frames crc32)).discardOpen, rfl, fun files ↦ ?_⟩
    simp only [walkSegments, WalFile.afterWalk, hdec, hst, walkFrames_eq ipc henter, ← hfr,
      segmentPartitions, callBack_append]
    cases callBack onPartition w.acc
      (splitFrames ipc sstMax hasFiles (file.frames crc32) []).1 with
    | error e => rfl
    | ok acc =>
      simp only [Except.map, Except.bind, finishSegment_eq crc32 ipc (holds_read ipc henter)]
      cases callBack onPartition acc
        (nonempty (splitFrames ipc sstMax hasFiles (file.frames crc32) []).2) with
      | error e => rfl
      | ok acc' =>
        simp only
        cases file.sealTail crc32 ipc ((WalkState.start header.memtableId).read ipc sstMax
          hasFiles (file.frames crc32)) with
        | error e => rfl
        | ok file' =>
          simp only
          split <;> rename_i hwalk <;> rw [hwalk]

/-- The walk calls back with the partitions of the segments, and seals every segment on its own. -/
theorem walkSegments_eq_ok {acc : σ} (h : w.openPart = toPartition []) :
    (∃ w', walkSegments crc32 ipc sstMax hasFiles onPartition files w = .ok (w', files') ∧
        w'.acc = acc) ↔
      callBack onPartition w.acc (chainPartitions crc32 ipc sstMax hasFiles files) =
          .ok acc ∧
        List.Forall₂ (fun file file' ↦
          file.afterWalk crc32 ipc sstMax hasFiles = .ok file') files files' := by
  induction files generalizing w files' with
  | nil =>
    constructor
    · rintro ⟨w', hw', rfl⟩
      cases hw'
      exact ⟨rfl, .nil⟩
    · rintro ⟨hcall, hfs⟩
      cases hfs
      cases hcall
      exact ⟨w, rfl, rfl⟩
  | cons file files ih =>
    obtain ⟨v, hv, hcons⟩ := exists_walkSegments_cons crc32 ipc h file
    rw [hcons, chainPartitions, flatMap_cons, callBack_append]
    cases callBack onPartition w.acc
      (segmentPartitions ipc sstMax hasFiles (file.frames crc32)) with
    | error e =>
      constructor
      · rintro ⟨_, h, _⟩
        cases h
      · rintro ⟨h, _⟩
        cases h
    | ok acc₁ =>
      simp only [Except.bind]
      rw [← chainPartitions]
      cases haft : file.afterWalk crc32 ipc sstMax hasFiles with
      | error =>
        constructor
        · rintro ⟨_, h, _⟩
          cases h
        · rintro ⟨-, hfs⟩
          obtain ⟨_, -, hfile, -, rfl⟩ := forall₂_cons_left_iff.mp hfs
          cases haft.symm.trans hfile
      | ok =>
        have hrest := fun files' ↦ @ih (v.withAcc acc₁) files' hv
        constructor
        · rintro ⟨w', hw', rfl⟩
          cases hwalk : walkSegments crc32 ipc sstMax hasFiles onPartition files
              (v.withAcc acc₁) with
          | error e =>
            rw [hwalk] at hw'
            cases hw'
          | ok r =>
            rw [hwalk] at hw'
            cases hw'
            obtain ⟨hcall, hfs⟩ := (hrest r.2).mp ⟨r.1, hwalk, rfl⟩
            exact ⟨hcall, .cons haft hfs⟩
        · rintro ⟨hcall, hfs⟩
          obtain ⟨_, files'', hfile, hfs', rfl⟩ := forall₂_cons_left_iff.mp hfs
          cases haft.symm.trans hfile
          obtain ⟨w', hw', hacc⟩ := (hrest files'').mpr ⟨hcall, hfs'⟩
          exact ⟨w', by rw [hw']; rfl, hacc⟩

/-- **The walk** goes through if the callback accepts the partitions of the chain and every segment
can be sealed. -/
theorem walk_eq_ok {acc acc' : σ} :
    walkUnflushedPartitions crc32 ipc sstMax hasFiles onPartition files acc =
        .ok (acc', files') ↔
      callBack onPartition acc (chainPartitions crc32 ipc sstMax hasFiles files) =
          .ok acc' ∧
        List.Forall₂ (fun file file' ↦
          file.afterWalk crc32 ipc sstMax hasFiles = .ok file') files files' := by
  rw [← walkSegments_eq_ok crc32 ipc (w := ⟨[], 0, 0, acc, 0, false, 0, false⟩) rfl,
    walkUnflushedPartitions]
  cases walkSegments crc32 ipc sstMax hasFiles onPartition files
    ⟨[], 0, 0, acc, 0, false, 0, false⟩ with
  | error e =>
    constructor
    · intro h
      cases h
    · rintro ⟨_, h, _⟩
      cases h
  | ok r =>
    constructor
    · intro h
      cases h
      exact ⟨r.1, rfl, rfl⟩
    · rintro ⟨_, h, rfl⟩
      cases h
      rfl

theorem afterWalk_extends (h : file.afterWalk crc32 ipc sstMax hasFiles = .ok file') :
    file.Extends file' := by
  rw [WalFile.afterWalk] at h
  split at h
  · cases h
    exact .refl file
  · rw [WalFile.sealTail] at h
    split_ifs at h
    · exact sealOpenWalTail_ok crc32 ipc h
    · cases h
      exact .refl file

/-- **The walk calls back with the partitions of the chain**, and only appends to its files. -/
theorem walk_ok {acc acc' : σ}
    (h : walkUnflushedPartitions crc32 ipc sstMax hasFiles onPartition files acc =
      .ok (acc', files')) :
    callBack onPartition acc (chainPartitions crc32 ipc sstMax hasFiles files) = .ok acc' ∧
      List.Forall₂ WalFile.Extends files files' := by
  obtain ⟨hcall, hfs⟩ := (walk_eq_ok crc32 ipc).mp h
  exact ⟨hcall, hfs.imp fun _ _ ↦ afterWalk_extends crc32 ipc⟩

/-! ## What a later walk finds -/

/-- More frames behind, and a higher trim point, take nothing away that is still to be rebuilt. -/
theorem mem_recoverable_mono {frames frames' : List (FrameHeader × Bytes)} {m : ℕ} {later : Bool}
    {w : Write Batch} (hpre : frames <+: frames') (hmax : sstMax ≤ m)
    (hfs : hasFiles = true → later = true) (hlt : m < w.1)
    (hw : w ∈ recoverable ipc sstMax hasFiles frames) :
    w ∈ recoverable ipc m later frames' := by
  induction frames generalizing frames' with
  | nil => cases hw
  | cons x frames ih =>
    obtain ⟨rest, rfl⟩ := hpre
    obtain ⟨frame, _⟩ := x
    have hrest : frames <+: frames ++ rest := prefix_append _ _
    rw [cons_append]
    cases htype : frame.recordType with
    | schema | memTableEnd | unknown =>
      simp only [recoverable, htype] at hw ⊢
      exact ih hrest hw
    | footer =>
      simp only [recoverable, htype] at hw
      cases hw
    | batch =>
      simp only [recoverable, htype] at hw ⊢
      split_ifs at hw with hold
      · -- What was trimmed before is trimmed again.
        have hnew : batchNeedsRecover frame.lsn m later = false := by
          unfold batchNeedsRecover at hold ⊢
          split_ifs at hold ⊢
          · exact decide_eq_false ((of_decide_eq_false hold).imp hmax.trans_lt)
          · rw [hfs (Bool.not_eq_false' _ ▸ hold)]
            rfl
        rw [if_pos hnew]
        exact ih hrest hw
      · split at hw
        · next batch hdec =>
          rcases mem_cons.mp hw with rfl | hw
          · have hnew : batchNeedsRecover frame.lsn m later ≠ false := by
              rw [batchNeedsRecover, if_pos ((Nat.zero_le m).trans_lt hlt)]
              exact ne_of_eq_of_ne (decide_eq_true hlt) Bool.noConfusion
            rw [if_neg hnew]
            exact mem_cons_self
          · split_ifs
            · exact ih hrest hw
            · exact mem_cons_of_mem _ (ih hrest hw)
        · cases hw

theorem lt_of_mem_recoverable {frames : List (FrameHeader × Bytes)} {w : Write Batch}
    (hpos : 0 < w.1)
    (hw : w ∈ recoverable ipc sstMax hasFiles frames) : sstMax < w.1 := by
  induction frames with
  | nil => cases hw
  | cons x frames ih =>
    obtain ⟨_, _⟩ := x
    unfold recoverable at hw
    split at hw
    · split_ifs at hw with hneed
      · exact ih hw
      · split at hw
        · rcases mem_cons.mp hw with rfl | hw
          · rw [batchNeedsRecover, if_pos hpos, Bool.not_eq_false, decide_eq_true_eq] at hneed
            exact hneed
          · exact ih hw
        · cases hw
    · cases hw
    · exact ih hw
    · exact ih hw
    · exact ih hw

theorem WalFile.Extends.frames (h : file.Extends file') :
    file.frames crc32 <+: file'.frames crc32 := by
  obtain ⟨x, hx⟩ := h.bytes
  unfold WalFile.frames
  cases hdec : decode file.bytes with
  | error => exact nil_prefix
  | ok hr =>
    obtain ⟨_, r⟩ := hr
    rw [hx, decode_append hdec x]
    exact items_isPrefix (f := id) (g := (· ++ x)) (consuming_readFrame crc32)
      (consuming_readFrame crc32) (fun _ _ _ hr ↦ readFrame_append crc32 hr x) r

end MonoTS
