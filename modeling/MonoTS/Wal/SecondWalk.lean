import MonoTS.Wal.Chain

/-!
# Walking a chain again

A walk that is cut off by a crash has handed on some partitions and sealed some segments. What it
handed on is in SSTs, which move the frontier, and recovery walks the chain again. With LSNs that
increase along the chain, the logs have nothing left for the second walk but what the first one had
not handed on.

The marker that seals a segment is appended behind its last byte. If the tail is torn, the torn
bytes and the marker can be read together as something else. `exactlyOnce_iff` says that the two
walks hand on every batch once, if and only if nothing that is read behind the logs is a batch in
front of the frontier or keeps a segment from being reopened.
-/

open List

namespace MonoTS

open LittleEndian ByteStream WalFile FramedSegmentWriter LogEntry

variable {Schema Batch : Type*}

/-- A callback that notes what it is called with. -/
def record (acc : List (WalRecoverPartition Batch)) (partition : WalRecoverPartition Batch) :
    Result (List (WalRecoverPartition Batch)) :=
  .ok (acc ++ [partition])

/-- The largest LSN in the SSTs, once the partitions are in them. -/
def frontierAfter (sstMax : ℕ) (emitted : List (WalRecoverPartition Batch)) : ℕ :=
  emitted.foldl (fun lsn partition ↦ max lsn partition.maxLsn) sstMax

def hasFilesAfter (hasFiles : Bool) (emitted : List (WalRecoverPartition Batch)) : Bool :=
  hasFiles || !emitted.isEmpty

section

variable (crc32 : Bytes → UInt32) (ipc : ArrowIpc Schema Batch) (sstMax : ℕ)
  (hasFiles : Bool)

/-- A walk that is cut off: some segments are finished, and of the next one some partitions have
been handed on. Returns what was handed on, and the files on the disk. -/
def cutOffWalk (segments partitions : ℕ) (files : List WalFile) :
    Result (List (WalRecoverPartition Batch) × List WalFile) :=
  match walkUnflushedPartitions crc32 ipc sstMax hasFiles record (files.take segments) [],
      walkUnflushedPartitions crc32 ipc sstMax hasFiles record
        ((files.drop segments).take 1) [] with
  | .error e, _ => .error e
  | .ok _, .error e => .error e
  | .ok (emitted, done), .ok (next, _) =>
    .ok (emitted ++ next.take partitions, done ++ files.drop segments)

/-- The tail of the segment reads as open: batches without a marker or a footer behind them. -/
def WalFile.TailOpen (file : WalFile) : Prop :=
  ∃ header rest, SegmentHeader.decode file.bytes = .ok (header, rest) ∧
    ((WalkState.start header.memtableId).read ipc sstMax hasFiles
      (file.frames crc32)).openTailHasBatches = true ∧
    ((WalkState.start header.memtableId).read ipc sstMax hasFiles
      (file.frames crc32)).segmentComplete = false

/-- Behind the log nothing is read that a walk would hand on or stumble over. -/
structure WalFile.NothingBehind (file : WalFile) (log : List (LogEntry Schema Batch)) : Prop where
  batches : MonoTS.recoverable ipc sstMax hasFiles ((file.frames crc32).drop log.length) = []
  reopens : file.TailOpen crc32 ipc sstMax hasFiles →
    ∃ tail, scanSegmentTail crc32 ipc file.path file.bytes = .ok tail

/-- The second walk goes through, the two walks together hand on what was needed, and the second one
nothing if the first one was complete. -/
def ExactlyOnce (needed : List (Write Batch)) (complete : Prop)
    (emitted : List (WalRecoverPartition Batch)) (files : List WalFile) : Prop :=
  ∃ second files', walkUnflushedPartitions crc32 ipc (frontierAfter sstMax emitted)
      (hasFilesAfter hasFiles emitted) record files [] = .ok (second, files') ∧
    (emitted ++ second).flatMap WalRecoverPartition.batches = needed.map Prod.snd ∧
    (complete → second = [])

end

variable {crc32 : Bytes → UInt32} {ipc : ArrowIpc Schema Batch} {sstMax : ℕ}
  {hasFiles : Bool}

theorem callBack_record (acc : List (WalRecoverPartition Batch))
    (parts : List (List (Write Batch))) :
    callBack record acc parts = .ok (acc ++ parts.map toPartition) := by
  induction parts generalizing acc with
  | nil => rw [map_nil, append_nil]; rfl
  | cons part parts ih =>
    rw [callBack, foldlM_cons]
    change callBack record (acc ++ [toPartition part]) parts = _
    rw [ih, append_assoc, singleton_append, map_cons]

/-! ## The frontier -/

variable {parts parts' : List (List (Write Batch))} {log : List (LogEntry Schema Batch)}
  {file : WalFile} {files : List WalFile} {logs : List (List (LogEntry Schema Batch))}

/-- What is behind the frontier: nothing that was handed on. -/
theorem frontierAfter_lt {l : ℕ} (hpos : 0 < l) :
    frontierAfter sstMax (parts.map toPartition) < l ↔
      sstMax < l ∧ ∀ w ∈ parts.flatten, w.1 < l := by
  induction parts generalizing sstMax with
  | nil => simp [frontierAfter]
  | cons part parts ih =>
    rw [frontierAfter, map_cons, foldl_cons, ← frontierAfter, ih, max_lt_iff,
      toPartition_maxLsn_lt hpos, flatten_cons, forall_mem_append, and_assoc]

theorem batchNeedsRecover_of_pos {lsn : ℕ} (hpos : 0 < lsn) (sstMax : ℕ) (hasFiles : Bool) :
    batchNeedsRecover lsn sstMax hasFiles = true ↔ sstMax < lsn := by
  rw [batchNeedsRecover, if_pos hpos, decide_eq_true_eq]

/-- With increasing LSNs, what needs recovery behind the first partitions is what is in the others.
-/
theorem neededWrites_frontierAfter (later : Bool) (hpos : ∀ w ∈ log.filterMap write?, 0 < w.1)
    (hinc : (log.filterMap write?).Pairwise (·.1 < ·.1))
    (h : neededWrites sstMax hasFiles log = parts.flatten ++ parts'.flatten) :
    neededWrites (frontierAfter sstMax (parts.map toPartition)) later log =
      parts'.flatten := by
  have hneed {w : Write Batch} (hw : w ∈ parts.flatten ++ parts'.flatten) :
      0 < w.1 ∧ sstMax < w.1 := by
    obtain ⟨hw, hneeds⟩ := mem_filter.mp (h ▸ hw)
    exact ⟨hpos w hw, (batchNeedsRecover_of_pos (hpos w hw) _ _).mp hneeds⟩
  have hsort : (parts.flatten ++ parts'.flatten).Pairwise (·.1 < ·.1) := h ▸ hinc.filter _
  have hlt := (pairwise_append.mp hsort).2.2
  -- nothing is needed now that was not needed before
  have hagain : neededWrites (frontierAfter sstMax (parts.map toPartition)) later log =
      (neededWrites sstMax hasFiles log).filter fun w ↦
        batchNeedsRecover w.1 (frontierAfter sstMax (parts.map toPartition)) later := by
    rw [neededWrites, neededWrites, filter_filter]
    refine filter_congr fun w hw ↦ ?_
    rw [Bool.eq_iff_iff, Bool.and_eq_true, batchNeedsRecover_of_pos (hpos w hw),
      batchNeedsRecover_of_pos (hpos w hw), frontierAfter_lt (hpos w hw)]
    tauto
  rw [hagain, h, filter_append, filter_eq_nil_iff.mpr, filter_eq_self.mpr, nil_append]
  · intro w hw
    have hw' := hneed (mem_append_right _ hw)
    rw [batchNeedsRecover_of_pos hw'.1, frontierAfter_lt hw'.1]
    exact ⟨hw'.2, fun x hx ↦ hlt x hx w hw⟩
  · intro w hw
    have hw' := hneed (mem_append_left _ hw)
    rw [batchNeedsRecover_of_pos hw'.1, frontierAfter_lt hw'.1]
    exact fun hall ↦ (hall.2 w hw).false

/-! ## The files behind the first walk -/

variable (crc32 ipc) in
/-- A reader finds the log at the beginning of the file. -/
def WalFile.StartsWith (file : WalFile) (log : List (LogEntry Schema Batch)) : Prop :=
  file.frames crc32 = logFrames crc32 ipc log ++ (file.frames crc32).drop log.length

theorem WalFile.Written.startsWith {file' : WalFile} (h : Written crc32 ipc file log)
    (hext : file.Extends file') : file'.StartsWith crc32 ipc log := by
  obtain ⟨_, hfr, -⟩ := h.frames_eq
  obtain ⟨_, hmore⟩ := hext.frames crc32
  have hlen : (logFrames crc32 ipc log).length = log.length := length_map _
  rw [StartsWith, ← hmore, hfr, append_assoc, ← hlen, drop_left]

theorem exists_sealOpenWalTail_iff {header : SegmentHeader} {rest : Bytes}
    (hdec : SegmentHeader.decode file.bytes = .ok (header, rest)) (endLsn closed new : ℕ) :
    (∃ file', sealOpenWalTail crc32 ipc file endLsn closed new = .ok file') ↔
      ∃ tail, scanSegmentTail crc32 ipc file.path file.bytes = .ok tail := by
  rw [sealOpenWalTail]
  cases hscan : scanSegmentTail crc32 ipc file.path file.bytes with
  | error =>
    constructor
    · rintro ⟨_, h⟩
      cases h
    · rintro ⟨_, h⟩
      cases h
  | ok tail =>
    refine ⟨fun _ ↦ ⟨tail, rfl⟩, fun _ ↦ ?_⟩
    simp only
    split_ifs with hfoot
    · exact ⟨file, rfl⟩
    · simp only [resumeAny, hdec, resume, resumeWithBlockMax, hscan, if_neg hfoot]
      generalize hwr : FramedSegmentWriter.mk _ _ _ _ _ _ _ _ = writer
      obtain ⟨_, happ⟩ := appendMemtableEnd_ok crc32 writer (hwr ▸ rfl) endLsn closed new
      rw [happ]
      exact ⟨_, rfl⟩

theorem exists_afterWalk_iff :
    (∃ file', file.afterWalk crc32 ipc sstMax hasFiles = .ok file') ↔
      (file.TailOpen crc32 ipc sstMax hasFiles →
        ∃ tail, scanSegmentTail crc32 ipc file.path file.bytes = .ok tail) := by
  rw [afterWalk]
  cases hdec : SegmentHeader.decode file.bytes with
  | error =>
    refine ⟨fun _ hopen ↦ ?_, fun _ ↦ ⟨file, rfl⟩⟩
    obtain ⟨_, _, hok, _⟩ := hopen
    cases hdec.symm.trans hok
  | ok hr =>
    obtain ⟨header, rest⟩ := hr
    simp only [sealTail]
    split_ifs with hopen
    · rw [exists_sealOpenWalTail_iff hdec]
      exact ⟨fun h _ ↦ h, fun h ↦ h ⟨header, rest, hdec, hopen⟩⟩
    · refine ⟨fun _ htail ↦ ?_, fun _ ↦ ⟨file, rfl⟩⟩
      obtain ⟨_, _, hok, hopen'⟩ := htail
      cases hdec.symm.trans hok
      exact absurd hopen' hopen

theorem WalFile.Written.nothingBehind (h : Written crc32 ipc file log) (sstMax : ℕ)
    (hasFiles : Bool) :
    file.NothingBehind crc32 ipc sstMax hasFiles log where
  batches := by
    obtain ⟨_, hfr, hend⟩ := h.frames_eq
    have hlen : (logFrames crc32 ipc log).length = log.length := length_map _
    rw [hfr, ← hlen, drop_left]
    exact hend.recoverable_eq
  reopens := exists_afterWalk_iff.mp h.exists_afterWalk

/-! ## The two walks -/

/-- What a walk hands on: for every file what is needed of its log, and what is read behind that. -/
theorem flatten_chainPartitions (h : List.Forall₂ (StartsWith crc32 ipc) files logs) :
    (neededWrites sstMax hasFiles logs.flatten).length ≤
        (chainPartitions crc32 ipc sstMax hasFiles files).flatten.length ∧
      ((chainPartitions crc32 ipc sstMax hasFiles files).flatten.length ≤
          (neededWrites sstMax hasFiles logs.flatten).length →
        List.Forall₂ (fun file log ↦ recoverable ipc sstMax hasFiles
          ((file.frames crc32).drop log.length) = []) files logs) ∧
      (List.Forall₂ (fun file log ↦ recoverable ipc sstMax hasFiles
          ((file.frames crc32).drop log.length) = []) files logs →
        (chainPartitions crc32 ipc sstMax hasFiles files).flatten =
          neededWrites sstMax hasFiles logs.flatten) := by
  induction h with
  | nil => exact ⟨le_rfl, fun _ ↦ .nil, fun _ ↦ rfl⟩
  | @cons file log files logs hfile _ ih =>
    obtain ⟨_, hlen, hflat⟩ := ih
    have hcons : (chainPartitions crc32 ipc sstMax hasFiles (file :: files)).flatten =
        neededWrites sstMax hasFiles log ++
          (recoverable ipc sstMax hasFiles ((file.frames crc32).drop log.length) ++
            (chainPartitions crc32 ipc sstMax hasFiles files).flatten) := by
      rw [chainPartitions, flatMap_cons, flatten_append, flatten_segmentPartitions,
        show file.frames crc32 = _ from hfile, recoverable_logFrames, ← hfile, ← chainPartitions,
        append_assoc]
    rw [hcons, flatten_cons, neededWrites_append]
    simp only [length_append]
    refine ⟨by omega, fun hle' ↦ .cons ?_ (hlen (by omega)), fun hnil ↦ ?_⟩
    · exact length_eq_zero_iff.mp (by omega)
    · obtain ⟨hhead, htail⟩ := forall₂_cons.mp hnil
      rw [hhead, hflat htail, nil_append]

theorem flatMap_batches (parts : List (List (Write Batch))) :
    (parts.map toPartition).flatMap WalRecoverPartition.batches =
      parts.flatten.map Prod.snd := by
  rw [flatMap_map, map_flatten, flatMap_def]
  exact congrArg _ (map_congr_left fun part _ ↦ toPartition_batches part)

theorem exists_walk_record (h : List.Forall₂ (Written crc32 ipc) files logs) :
    ∃ files', List.Forall₂ (fun file file' ↦
        file.afterWalk crc32 ipc sstMax hasFiles = .ok file') files files' ∧
      walkUnflushedPartitions crc32 ipc sstMax hasFiles record files [] =
        .ok ((logPartitions sstMax hasFiles logs).map toPartition, files') := by
  obtain ⟨files', hfs'⟩ := exists_afterWalk h
  refine ⟨files', hfs', (walk_eq_ok crc32 ipc).mpr ⟨?_, hfs'⟩⟩
  rw [callBack_record, nil_append, chainPartitions_eq h]

theorem forall₂_right {α β γ : Type*} {R : α → β → Prop} {S : α → γ → Prop} {T : β → γ → Prop}
    {l : List α} {l₁ : List β} {l₂ : List γ} (h₁ : List.Forall₂ R l l₁) (h₂ : List.Forall₂ S l l₂)
    (hT : ∀ a b c, R a b → S a c → T b c) : List.Forall₂ T l₁ l₂ := by
  induction h₁ generalizing l₂ with
  | nil =>
    cases h₂
    exact .nil
  | cons hR _ ih =>
    cases h₂ with
    | cons hS h₂ => exact .cons (hT _ _ _ hR hS) (ih h₂)

theorem exists_forall₂_iff {α β : Type*} {R : α → β → Prop} {l : List α} :
    (∃ l', List.Forall₂ R l l') ↔ ∀ a ∈ l, ∃ b, R a b := by
  induction l with
  | nil => exact ⟨nofun, fun _ ↦ ⟨[], .nil⟩⟩
  | cons a l ih =>
    rw [forall_mem_cons, ← ih]
    constructor
    · rintro ⟨_, h⟩
      obtain ⟨b, l', hR, h, -⟩ := forall₂_cons_left_iff.mp h
      exact ⟨⟨b, hR⟩, l', h⟩
    · rintro ⟨⟨b, hR⟩, l', h⟩
      exact ⟨b :: l', .cons hR h⟩

/-- A second walk over files that still have the logs, behind some partitions of the logs. -/
theorem exactlyOnce_of_partitions {complete : Prop}
    (hfr : List.Forall₂ (StartsWith crc32 ipc) files logs)
    (hpos : ∀ w ∈ logs.flatten.filterMap write?, 0 < w.1)
    (hinc : (logs.flatten.filterMap write?).Pairwise (·.1 < ·.1))
    (hparts : neededWrites sstMax hasFiles logs.flatten = parts.flatten ++ parts'.flatten)
    (hcom : complete → parts' = []) :
    ExactlyOnce crc32 ipc sstMax hasFiles (neededWrites sstMax hasFiles logs.flatten)
        complete (parts.map toPartition) files ↔
      List.Forall₂ (NothingBehind crc32 ipc
        (frontierAfter sstMax (parts.map toPartition))
        (hasFilesAfter hasFiles (parts.map toPartition))) files logs := by
  have hneed := neededWrites_frontierAfter
    (hasFilesAfter hasFiles (parts.map toPartition)) hpos hinc hparts
  rw [ExactlyOnce, hparts]
  generalize frontierAfter sstMax (parts.map toPartition) = lsn at hneed ⊢
  generalize hasFilesAfter hasFiles (parts.map toPartition) = later at hneed ⊢
  obtain ⟨-, hsize, hflat⟩ := flatten_chainPartitions hfr
  rw [hneed] at hsize hflat
  constructor
  · rintro ⟨_, files', hwalk, honce, -⟩
    obtain ⟨hcall, hfs'⟩ := (walk_eq_ok crc32 ipc).mp hwalk
    rw [callBack_record, nil_append] at hcall
    cases hcall
    rw [flatMap_append, flatMap_batches, flatMap_batches, map_append,
      append_cancel_left_eq] at honce
    have hlen := congrArg List.length honce
    rw [length_map, length_map] at hlen
    have hnil := hsize hlen.le
    have hall := exists_forall₂_iff.mp ⟨files', hfs'⟩
    refine ((forall₂_and_left _ _).mpr ⟨hall, hnil⟩).imp fun file log hfile ↦ ?_
    exact ⟨hfile.2, exists_afterWalk_iff.mp hfile.1⟩
  · intro hbeh
    have hpair : List.Forall₂ (fun file log ↦
        (∃ file', file.afterWalk crc32 ipc lsn later = .ok file') ∧
          recoverable ipc lsn later ((file.frames crc32).drop log.length) = []) files logs :=
      hbeh.imp fun file log hfile ↦ ⟨exists_afterWalk_iff.mpr hfile.reopens, hfile.batches⟩
    obtain ⟨haft, hnil⟩ := (forall₂_and_left _ _).mp hpair
    obtain ⟨files', hfs'⟩ := exists_forall₂_iff.mpr haft
    have hch := hflat hnil
    refine ⟨_, files', (walk_eq_ok crc32 ipc).mpr ⟨callBack_record _ _, hfs'⟩, ?_, fun hdone ↦ ?_⟩
    · rw [nil_append, flatMap_append, flatMap_batches, flatMap_batches, hch, map_append]
    · rw [hcom hdone, flatten_nil] at hch
      rw [nil_append, map_eq_nil_iff, eq_nil_iff_forall_not_mem]
      intro part hpart
      exact ne_nil_of_mem_chainPartitions crc32 hpart (flatten_eq_nil_iff.mp hch part hpart)

/-- **Two walks hand on every batch once**, wherever the first one is cut off, if and only if
nothing is read behind the logs of the files it leaves that is to be handed on or keeps a segment
from being reopened. -/
theorem exactlyOnce_iff {files : List WalFile} {logs : List (List (LogEntry Schema Batch))}
    (h : List.Forall₂ (Written crc32 ipc) files logs)
    (hpos : ∀ w ∈ logs.flatten.filterMap write?, 0 < w.1)
    (hinc : (logs.flatten.filterMap write?).Pairwise (·.1 < ·.1)) (segments partitions : ℕ) :
    ∃ emitted files', cutOffWalk crc32 ipc sstMax hasFiles segments partitions files =
        .ok (emitted, files') ∧
      (ExactlyOnce crc32 ipc sstMax hasFiles
          (neededWrites sstMax hasFiles logs.flatten) (files.length ≤ segments) emitted
          files' ↔
        List.Forall₂ (NothingBehind crc32 ipc (frontierAfter sstMax emitted)
          (hasFilesAfter hasFiles emitted)) files' logs) := by
  have hfrt := forall₂_take segments h
  have hrest := forall₂_drop segments h
  obtain ⟨done, hdone, hwalk⟩ := exists_walk_record hfrt
  obtain ⟨_, -, hwalk'⟩ := exists_walk_record (forall₂_take 1 hrest)
  have hpart : neededWrites sstMax hasFiles logs.flatten =
      (logPartitions sstMax hasFiles (logs.take segments) ++
        (logPartitions sstMax hasFiles ((logs.drop segments).take 1)).take
          partitions).flatten ++
      ((logPartitions sstMax hasFiles ((logs.drop segments).take 1)).drop partitions ++
        logPartitions sstMax hasFiles ((logs.drop segments).drop 1)).flatten := by
    rw [← flatten_append, append_assoc,
      ← append_assoc _ _ (logPartitions sstMax hasFiles ((logs.drop segments).drop 1)),
      take_append_drop, ← logPartitions_append, take_append_drop,
      ← logPartitions_append, take_append_drop, flatten_logPartitions]
  have hseal : List.Forall₂ (StartsWith crc32 ipc) done (logs.take segments) :=
    forall₂_right hdone hfrt fun _ _ _ haft hfile ↦
      hfile.startsWith (afterWalk_extends crc32 ipc haft)
  have hunt : List.Forall₂ (StartsWith crc32 ipc) (files.drop segments)
      (logs.drop segments) := hrest.imp fun file _ hfile ↦ hfile.startsWith (.refl file)
  have hfr : List.Forall₂ (StartsWith crc32 ipc) (done ++ files.drop segments)
      (logs.take segments ++ logs.drop segments) := rel_append hseal hunt
  rw [take_append_drop] at hfr
  refine ⟨_, done ++ files.drop segments, ?_,
    exactlyOnce_of_partitions hfr hpos hinc hpart fun hcom ↦ ?_⟩
  · rw [cutOffWalk, hwalk, hwalk']
    simp only [map_append, map_take]
  · have hnil : logs.drop segments = [] := drop_eq_nil_of_le (h.length_eq ▸ hcom)
    rw [hnil]
    simp [logPartitions]

/-- A crash behind the first segment. The second walk has only the other one left. -/
theorem sampleChain_walked_twice : ExactlyOnce lengthCrc byteIpc 1 true
    (neededWrites 1 true (sampleClosed ++ sampleOpen)) (2 ≤ 1) [⟨[8, 9], 2, 3⟩] sampleChain := by
  have hcut : cutOffWalk lengthCrc byteIpc 1 true 1 0 sampleChain =
      .ok ([⟨[8, 9], 2, 3⟩], sampleChain) := by decide +kernel
  obtain ⟨_, _, hcut', hiff⟩ := exactlyOnce_iff sampleChain_written (by decide) (by decide) 1 0
  cases hcut.symm.trans hcut'
  exact hiff.mpr (sampleChain_written.imp fun _ _ hfile ↦ hfile.nothingBehind _ _)

def tornLog : List (LogEntry Unit UInt8) := [.schema (), .batch 1 1 7]

/-- The header of a frame for the batch `0x31`, which is also the first byte of every frame. -/
def tornHeader : Bytes :=
  (((batch 2 2 0x31 : LogEntry Unit UInt8).frame byteIpc).encode lengthCrc).take 36

/-- One segment, torn in its second batch: the payload is missing. -/
def tornChain : List WalFile :=
  [⟨1, "00000000000000000001.wal", logFile lengthCrc byteIpc tornLog tornHeader 1 0⟩]

/-- The marker stands where the payload is missing. -/
def sealedChain : List WalFile :=
  [⟨1, "00000000000000000001.wal", logFile lengthCrc byteIpc tornLog (tornHeader ++
    ((memtableEnd 2 1 1 2 : LogEntry Unit UInt8).frame byteIpc).encode lengthCrc) 1 0⟩]

theorem tornChain_written : List.Forall₂ (Written lengthCrc byteIpc) tornChain [tornLog] := by
  have hlog : ValidLog byteIpc tornLog := ⟨by decide, by decide, rfl, trivial⟩
  have hacc : (.batch 2 2 0x31 : LogEntry Unit UInt8).Accepted byteIpc := by decide
  have hsize : 36 < (.batch 2 2 0x31 : LogEntry Unit UInt8).size byteIpc := by decide
  obtain ⟨_, hstop⟩ := readFrame_torn hacc (by decide) hsize
  exact .cons (.opened hlog hstop _ _ _ _) .nil

/-- A walk that is complete hands on the only batch of the log and seals the segment. The marker
completes the torn batch, and a second walk hands that one on. -/
theorem torn_batch_completed_by_marker :
    List.Forall₂ (Written lengthCrc byteIpc) tornChain [tornLog] ∧
      cutOffWalk lengthCrc byteIpc 0 false 1 0 tornChain = .ok ([⟨[7], 1, 1⟩], sealedChain) ∧
      (walkUnflushedPartitions lengthCrc byteIpc 1 true record sealedChain []).map Prod.fst =
        .ok [⟨[0x31], 2, 2⟩] ∧
      ¬ ExactlyOnce lengthCrc byteIpc 0 false (neededWrites 0 false tornLog) (1 ≤ 1)
        [⟨[7], 1, 1⟩] sealedChain := by
  have hwalk : (walkUnflushedPartitions lengthCrc byteIpc 1 true record sealedChain []).map
      Prod.fst = .ok [⟨[0x31], 2, 2⟩] := by decide +kernel
  refine ⟨tornChain_written, by decide +kernel, hwalk, ?_⟩
  rintro ⟨_, _, hsnd, -, hcom⟩
  cases hcom le_rfl
  change walkUnflushedPartitions lengthCrc byteIpc 1 true record sealedChain [] = _ at hsnd
  rw [hsnd] at hwalk
  cases hwalk

end MonoTS
