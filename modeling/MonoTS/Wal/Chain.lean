import MonoTS.Wal.Load
import MonoTS.Wal.TornTail

/-!
# The recovery walk over the chains that the writer leaves

A segment file is a header and a log. It ends with a footer, or it is open, and then it may also end
with bytes that no reader gets past (`WalFile.Written`); that is what is left of a file if it is cut
anywhere (`written_take`).

Such a chain has its logs as a specification of the walk. The partitions are the runs of entries
between the markers of each log, without the batches that need no recovery, and without the runs
that are then empty (`logPartitions`). `walk_exact` says that the walk hands on these and goes
through, and that nothing is left out, and gives the LSN span of each.
-/

open List

namespace MonoTS

open LittleEndian ByteStream SegmentHeader LogEntry LoggedFile

variable {Schema Batch σ : Type*}

/-! ## Files as the writer leaves them -/

instance (ipc : ArrowIpc Schema Batch) (e : LogEntry Schema Batch) : Decidable (e.Accepted ipc) :=
  decidable_of_iff ((e.frame ipc).blockLen ≤ defaultWalBlockMaxBytes ∧ e.sequence + 1 < 2 ^ 64)
    ⟨fun h ↦ ⟨h.1, h.2⟩, fun h ↦ ⟨h.1, h.2⟩⟩

/-- The writer has accepted the entries, readers find them again, and they are numbered. -/
structure ValidLog (ipc : ArrowIpc Schema Batch) (log : List (LogEntry Schema Batch)) : Prop where
  accepted : ∀ e ∈ log, e.Accepted ipc
  readable : ∀ e ∈ log, e.Readable ipc
  sequenced : Sequenced 1 log

/-- The file has the given log: behind its header, and in front of a footer or of bytes that are not
a frame. If the header is torn there is no log. -/
inductive WalFile.Written (crc32 : Bytes → UInt32) (ipc : ArrowIpc Schema Batch) :
    WalFile → List (LogEntry Schema Batch) → Prop
  | headless {file : WalFile} {e : TsdbError} (h : decode file.bytes = .error e) :
    Written crc32 ipc file []
  | closed {log : List (LogEntry Schema Batch)} (hlog : ValidLog ipc log)
    (footer : UInt64 × SegmentFooter) (fileId : ℕ) (path : String) (memtableId now : ℕ) :
    Written crc32 ipc ⟨fileId, path, logFile crc32 ipc log
      ((footerFrame footer).encode crc32) memtableId now⟩ log
  | opened {log : List (LogEntry Schema Batch)} (hlog : ValidLog ipc log) {tail : Bytes}
    {stop : FrameStop} (hstop : readFrame crc32 tail = .stop stop) (fileId : ℕ) (path : String)
    (memtableId now : ℕ) :
    Written crc32 ipc ⟨fileId, path, logFile crc32 ipc log tail memtableId now⟩ log

variable {crc32 : Bytes → UInt32} {ipc : ArrowIpc Schema Batch} {log : List (LogEntry Schema Batch)}

theorem ValidLog.of_append {log' : List (LogEntry Schema Batch)} (h : ValidLog ipc (log ++ log')) :
    ValidLog ipc log where
  accepted e he := h.accepted e (mem_append_left _ he)
  readable e he := h.readable e (mem_append_left _ he)
  sequenced := (sequenced_append.mp h.sequenced).1

theorem SegmentHeader.decode_of_length_lt {r : Bytes} (h : r.length < segmentHeaderSize) :
    decode r = .error unexpectedEof := by
  rw [decode, if_pos h]

/-- **Every cut** of a file that was written as a log leaves a file that has some of the log. -/
theorem written_take {f : LoggedFile Schema Batch} (h : ValidLog ipc f.log) (n : ℕ) :
    ∃ log, log <+: f.log ∧ WalFile.Written crc32 ipc
      { f.file crc32 ipc with bytes := (f.file crc32 ipc).bytes.take n } log := by
  have hbs : (f.file crc32 ipc).bytes = (newV1 f.memtableId f.now).encode ++
      (encodeLog crc32 ipc f.log ++ (f.footer.map footerFrame).toList.flatMap
        (Frame.encode crc32)) := by
    rw [file, frames, flatMap_append, flatMap_map]
    rfl
  by_cases hn : n < segmentHeaderSize
  · refine ⟨[], nil_prefix, .headless (decode_of_length_lt ?_)⟩
    exact (length_take_le _ _).trans_lt hn
  have hhead := length_encode (newV1 f.memtableId f.now)
  rw [hbs, take_append, hhead, take_of_length_le (hhead.trans_le (by omega))]
  rcases le_total (n - segmentHeaderSize) (f.log.map (size ipc)).sum with hcut | hcut
  · -- the cut is in the log
    obtain ⟨_, stop, htake, hstop⟩ := exists_take_encodeLog h.accepted h.readable hcut
    obtain ⟨rest, hrest⟩ := completeBefore_isPrefix ipc (n - segmentHeaderSize) f.log
    rw [take_append_of_le_length (by rwa [length_encodeLog]), htake]
    exact ⟨_, ⟨rest, hrest⟩, .opened (hrest.symm ▸ h : ValidLog ipc (_ ++ rest)).of_append hstop
      f.fileId f.path f.memtableId f.now⟩
  · rw [take_append, length_encodeLog, take_of_length_le (by rwa [length_encodeLog])]
    cases f.footer with
    | none =>
      refine ⟨f.log, prefix_rfl, ?_⟩
      rw [Option.map_none, Option.toList_none, flatMap_nil, take_nil]
      exact .opened h (rfl : readFrame crc32 [] = .stop .eof) f.fileId f.path f.memtableId f.now
    | some footer =>
      refine ⟨f.log, prefix_rfl, ?_⟩
      rw [Option.map_some, Option.toList_some, flatMap_singleton]
      have hfoot := wellFormed_footerFrame footer
      rcases le_or_gt (footerFrame footer).size
        (n - segmentHeaderSize - (f.log.map (size ipc)).sum) with hall | htorn
      · rw [take_of_length_le (by rwa [Frame.length_encode])]
        exact .closed h footer f.fileId f.path f.memtableId f.now
      · obtain ⟨_, hstop⟩ := Frame.readFrame_take hfoot.1 hfoot.2 htorn
        exact .opened h hstop f.fileId f.path f.memtableId f.now

/-! ## Logs and their partitions -/

variable (sstMax : ℕ) (hasFiles : Bool)

def LogEntry.isMarker : LogEntry Schema Batch → Bool
  | .memtableEnd _ _ _ _ => true
  | .schema _ | .batch _ _ _ => false

section

variable (log : List (LogEntry Schema Batch))

/-- The batches of some entries that still need recovery. -/
def neededWrites : List (Write Batch) :=
  (log.filterMap write?).filter fun w ↦ batchNeedsRecover w.1 sstMax hasFiles

/-- The partitions of logs: what is needed of each run of entries between two markers. -/
def logPartitions (logs : List (List (LogEntry Schema Batch))) : List (List (Write Batch)) :=
  ((logs.flatMap (List.splitOnP isMarker)).map (neededWrites sstMax hasFiles)).filter
    fun part ↦ !part.isEmpty

variable (crc32 ipc) in
/-- The frames of a log as a reader finds them. -/
def logFrames : List (FrameHeader × Bytes) :=
  log.map fun e ↦ ((e.frame ipc).header crc32, (e.frame ipc).payload)

end

variable {sstMax hasFiles}

theorem neededWrites_cons_batch (sequence : ℕ) (lsn : UInt64) (b : Batch)
    (log : List (LogEntry Schema Batch)) :
    neededWrites sstMax hasFiles (.batch sequence lsn b :: log) =
      if batchNeedsRecover lsn.toNat sstMax hasFiles = false then
        neededWrites sstMax hasFiles log
      else (lsn.toNat, b) :: neededWrites sstMax hasFiles log := by
  change ((lsn.toNat, b) :: log.filterMap write?).filter _ = _
  rw [filter_cons]
  cases batchNeedsRecover lsn.toNat sstMax hasFiles <;> rfl

/-- Everything needed of a log is collected, before anything that is read behind it. -/
theorem recoverable_logFrames (log : List (LogEntry Schema Batch))
    (rest : List (FrameHeader × Bytes)) :
    recoverable ipc sstMax hasFiles (logFrames crc32 ipc log ++ rest) =
      neededWrites sstMax hasFiles log ++ recoverable ipc sstMax hasFiles rest := by
  induction log with
  | nil => rfl
  | cons e log ih =>
    cases e with
    | schema | memtableEnd => exact ih
    | batch =>
      rw [logFrames, map_cons, cons_append, ← logFrames, neededWrites_cons_batch]
      simp only [recoverable, frame, Frame.header, ipc.decodeBatch_encodeBatch, ih]
      split_ifs
      · rfl
      · rfl

/-- Nothing is read any more, or only a footer. -/
def EndsReading (rest : List (FrameHeader × Bytes)) : Prop :=
  rest = [] ∨ ∃ header payload, rest = [(header, payload)] ∧ header.recordType = .footer

variable {rest : List (FrameHeader × Bytes)} {file : WalFile}
  {logs : List (List (LogEntry Schema Batch))}

theorem EndsReading.splitFrames_eq (h : EndsReading rest) (part : List (Write Batch)) :
    splitFrames ipc sstMax hasFiles rest part = ([], part) := by
  rcases h with rfl | ⟨_, _, rfl, htype⟩
  · rfl
  · simp only [splitFrames, htype]

theorem EndsReading.recoverable_eq (h : EndsReading rest) :
    recoverable ipc sstMax hasFiles rest = [] := by
  rcases h with rfl | ⟨_, _, rfl, htype⟩
  · rfl
  · simp only [recoverable, htype]

/-- The frames of a log are cut at its markers; the open partition goes to the first run. -/
theorem splitFrames_logFrames {run : List (LogEntry Schema Batch)}
    {runs : List (List (LogEntry Schema Batch))} (hruns : log.splitOnP isMarker = run :: runs)
    (hend : EndsReading rest) (part : List (Write Batch)) :
    (splitFrames ipc sstMax hasFiles (logFrames crc32 ipc log ++ rest) part).1 ++
        nonempty (splitFrames ipc sstMax hasFiles (logFrames crc32 ipc log ++ rest) part).2 =
      nonempty (part ++ neededWrites sstMax hasFiles run) ++
        (runs.map (neededWrites sstMax hasFiles)).flatMap nonempty := by
  induction log generalizing run runs part with
  | nil =>
    cases hruns
    rw [show logFrames crc32 ipc ([] : List (LogEntry Schema Batch)) ++ rest = rest from rfl,
      hend.splitFrames_eq]
    simp [neededWrites]
  | cons e log ih =>
    obtain ⟨_, _, hruns'⟩ := exists_cons_of_ne_nil (splitOnP_ne_nil isMarker log)
    rw [splitOnP_cons_eq_if_modifyHead, hruns'] at hruns
    cases e with
    | schema =>
      cases hruns
      exact ih hruns' part
    | memtableEnd =>
      cases hruns
      have hrest := ih hruns' []
      rw [nil_append] at hrest
      rw [map_cons, flatMap_cons, ← hrest, ← append_assoc]
      simp only [logFrames, map_cons, cons_append, splitFrames, frame, Frame.header]
      rw [show neededWrites sstMax hasFiles ([] : List (LogEntry Schema Batch)) = [] from rfl,
        append_nil]
    | batch sequence lsn b =>
      cases hruns
      rw [neededWrites_cons_batch]
      simp only [logFrames, map_cons, cons_append, splitFrames, frame,
        Frame.header, ipc.decodeBatch_encodeBatch]
      split_ifs with hneed
      · exact ih hruns' part
      · have hrest := ih hruns' (part ++ [(lsn.toNat, b)])
        rw [append_assoc, singleton_append] at hrest
        exact hrest

theorem flatMap_nonempty (parts : List (List (Write Batch))) :
    parts.flatMap nonempty = parts.filter fun part ↦ !part.isEmpty := by
  induction parts with
  | nil => rfl
  | cons part parts ih =>
    rw [flatMap_cons, filter_cons, ih, nonempty]
    cases part.isEmpty <;> rfl

/-- Behind the header a reader finds the frames of the log, and those of the tail. -/
theorem frames_logFile (hlog : ValidLog ipc log) (tail : Bytes) (fileId : ℕ) (path : String)
    (memtableId now : ℕ) :
    WalFile.frames crc32 ⟨fileId, path, logFile crc32 ipc log tail memtableId now⟩ =
      logFrames crc32 ipc log ++ (segmentFrames crc32 tail).1.map Prod.fst := by
  obtain ⟨_, hfr, hits⟩ := segmentFrames_encodeLog crc32 hlog.accepted hlog.readable tail
  simp only [WalFile.frames, logFile, decode_encode_newV1]
  rw [hits, map_append, hfr, logFrames]

theorem segmentFrames_footer (footer : UInt64 × SegmentFooter) :
    (segmentFrames crc32 ((footerFrame footer).encode crc32)).1.map Prod.fst =
      [((footerFrame footer).header crc32,
        (footerFrame footer).payload)] := by
  have hfoot := wellFormed_footerFrame footer
  have hread := readFrame_encode crc32 hfoot.1 hfoot.2 []
  rw [append_nil] at hread
  rw [segmentFrames, items_of_item (consuming_readFrame crc32) hread]
  rfl

theorem WalFile.Written.frames_eq (h : WalFile.Written crc32 ipc file log) :
    ∃ rest, file.frames crc32 = logFrames crc32 ipc log ++ rest ∧ EndsReading rest := by
  cases h with
  | @headless file e h =>
    refine ⟨[], ?_, .inl rfl⟩
    rw [WalFile.frames, h]
    rfl
  | closed hlog footer fileId path memtableId now =>
    exact ⟨_, frames_logFile hlog _ fileId path memtableId now,
      .inr ⟨_, _, segmentFrames_footer footer, rfl⟩⟩
  | opened hlog hstop fileId path memtableId now =>
    refine ⟨_, frames_logFile hlog _ fileId path memtableId now, .inl ?_⟩
    rw [segmentFrames, items_of_stop hstop]
    rfl

theorem WalFile.Written.segmentPartitions_eq (h : WalFile.Written crc32 ipc file log) :
    segmentPartitions ipc sstMax hasFiles (file.frames crc32) =
      logPartitions sstMax hasFiles [log] := by
  obtain ⟨_, hfr, hend⟩ := h.frames_eq
  obtain ⟨_, _, hruns⟩ := exists_cons_of_ne_nil (splitOnP_ne_nil isMarker log)
  rw [segmentPartitions, hfr, splitFrames_logFrames hruns hend, logPartitions,
    flatMap_singleton, hruns, map_cons, ← flatMap_nonempty, flatMap_cons,
    nil_append]

theorem logPartitions_append (logs logs' : List (List (LogEntry Schema Batch))) :
    logPartitions sstMax hasFiles (logs ++ logs') =
      logPartitions sstMax hasFiles logs ++ logPartitions sstMax hasFiles logs' := by
  rw [logPartitions, flatMap_append, map_append, filter_append, logPartitions, logPartitions]

variable {files : List WalFile}

theorem chainPartitions_eq (h : List.Forall₂ (WalFile.Written crc32 ipc) files logs) :
    chainPartitions crc32 ipc sstMax hasFiles files =
      logPartitions sstMax hasFiles logs := by
  induction h with
  | nil => rfl
  | @cons file log files logs hfile _ ih =>
    rw [chainPartitions, flatMap_cons, hfile.segmentPartitions_eq, ← chainPartitions, ih,
      ← logPartitions_append, singleton_append]

theorem neededWrites_append (log log' : List (LogEntry Schema Batch)) :
    neededWrites sstMax hasFiles (log ++ log') =
      neededWrites sstMax hasFiles log ++ neededWrites sstMax hasFiles log' := by
  rw [neededWrites, filterMap_append, filter_append, neededWrites, neededWrites]

theorem flatten_map_neededWrites (runs : List (List (LogEntry Schema Batch))) :
    (runs.map (neededWrites sstMax hasFiles)).flatten =
      neededWrites sstMax hasFiles runs.flatten := by
  induction runs with
  | nil => rfl
  | cons run runs ih =>
    rw [map_cons, flatten_cons, ih, flatten_cons, neededWrites_append]

/-- The markers between the runs have no batches. -/
theorem neededWrites_splitOnP (log : List (LogEntry Schema Batch)) :
    neededWrites sstMax hasFiles (log.splitOnP isMarker).flatten =
      neededWrites sstMax hasFiles log := by
  induction log with
  | nil => rfl
  | cons e log ih =>
    obtain ⟨run, runs, hruns⟩ := exists_cons_of_ne_nil (splitOnP_ne_nil isMarker log)
    rw [hruns] at ih
    rw [splitOnP_cons_eq_if_modifyHead, hruns]
    cases e with
    | memtableEnd | schema => exact ih
    | batch sequence lsn b =>
      change neededWrites sstMax hasFiles (.batch sequence lsn b :: (run :: runs).flatten) = _
      rw [neededWrites_cons_batch, neededWrites_cons_batch, ih]

theorem flatten_logPartitions (logs : List (List (LogEntry Schema Batch))) :
    (logPartitions sstMax hasFiles logs).flatten =
      neededWrites sstMax hasFiles logs.flatten := by
  induction logs with
  | nil => rfl
  | cons log logs ih =>
    have hlog : (logPartitions sstMax hasFiles [log]).flatten =
        neededWrites sstMax hasFiles log := by
      rw [logPartitions, flatMap_cons, flatMap_nil, append_nil,
        flatten_filter_not_isEmpty, flatten_map_neededWrites, neededWrites_splitOnP]
    rw [← singleton_append, logPartitions_append, flatten_append, hlog, ih,
      singleton_append, flatten_cons, neededWrites_append]

/-! ## The LSNs of a partition -/

variable (part : List (Write Batch))

/-- The LSNs of the frames of a partition that have one. -/
def positiveLsns : List ℕ := (part.map Prod.fst).filter (0 < ·)

theorem positiveLsns_concat (w : Write Batch) :
    positiveLsns (part ++ [w]) = positiveLsns part ++ if 0 < w.1 then [w.1] else [] := by
  rw [positiveLsns, map_append, filter_append, ← positiveLsns]
  simp [filter_cons]

/-- **The span of a partition**: the smallest and the largest of its LSNs. -/
theorem toPartition_span : (toPartition part).baseLsn = (positiveLsns part).min?.getD 0 ∧
      (toPartition part).maxLsn = (positiveLsns part).max?.getD 0 := by
  induction part using List.reverseRecOn with
  | nil => exact ⟨rfl, rfl⟩
  | append_singleton part w ih =>
    obtain ⟨hbase, hmax⟩ := ih
    rw [toPartition_concat, WalRecoverPartition.push, positiveLsns_concat, hbase, hmax]
    by_cases hpos : 0 < w.1
    · rw [if_pos hpos]
      cases hlsns : positiveLsns part with
      | nil => simp [hpos]
      | cons a lsns =>
        have hmin : (a :: lsns).min? = some (lsns.foldl min a) := min?_cons'
        have hmem : lsns.foldl min a ∈ positiveLsns part := hlsns ▸ (min?_eq_some_iff.mp hmin).1
        have hne : lsns.foldl min a ≠ 0 := by
          have hlt := (mem_filter.mp hmem).2
          rw [decide_eq_true_eq] at hlt
          exact hlt.ne'
        rw [cons_append, min?_cons', max?_cons', min?_cons', max?_cons', foldl_append, foldl_append]
        simp only [Option.getD_some, foldl_cons, foldl_nil, hpos, hne, true_and,
          false_or, min_def, and_true]
        split_ifs <;> omega
    · rw [if_neg hpos, append_nil, Nat.eq_zero_of_not_pos hpos]
      simp only [Nat.lt_irrefl, false_and, if_false, Nat.max_zero, and_self]

/-! ## The walk -/

theorem read_logFrames (log : List (LogEntry Schema Batch)) (rest : List (FrameHeader × Bytes))
    (w : WalkState Batch σ) :
    w.read ipc sstMax hasFiles (logFrames crc32 ipc log ++ rest) =
      (w.read ipc sstMax hasFiles (logFrames crc32 ipc log)).read ipc sstMax hasFiles
        rest := by
  induction log generalizing w with
  | nil => rfl
  | cons e log ih =>
    cases e with
    | schema => exact ih w
    | memtableEnd sequence endLsn closed new =>
      exact ih (w.closeTail (encodeMemtableEndPayload closed.toNat new.toNat)).discardOpen
    | batch sequence lsn b =>
      simp only [logFrames, map_cons, cons_append, WalkState.read, frame,
        Frame.header, ipc.decodeBatch_encodeBatch]
      split_ifs
      · exact ih (w.noteBatch lsn.toNat)
      · exact ih ((w.noteBatch lsn.toNat).push lsn.toNat b)

theorem WalFile.Written.exists_afterWalk (h : WalFile.Written crc32 ipc file log) :
    ∃ file', file.afterWalk crc32 ipc sstMax hasFiles = .ok file' := by
  rw [WalFile.afterWalk]
  cases h with
  | headless h => exact ⟨file, by rw [h]⟩
  | closed hlog =>
    rw [frames_logFile hlog, segmentFrames_footer]
    simp only [logFile, decode_encode_newV1, read_logFrames]
    exact ⟨_, if_neg fun hopen ↦ Bool.noConfusion hopen.2⟩
  | opened hlog hstop fileId path memtableId now =>
    simp only [logFile, decode_encode_newV1]
    rw [WalFile.sealTail]
    split_ifs
    · exact exists_sealOpenWalTail_logFile path memtableId now hlog.accepted hlog.readable
        hlog.sequenced hstop fileId _ _ _
    · exact ⟨_, rfl⟩

theorem exists_afterWalk (h : List.Forall₂ (WalFile.Written crc32 ipc) files logs) :
    ∃ files', List.Forall₂ (fun file file' ↦
      file.afterWalk crc32 ipc sstMax hasFiles = .ok file') files files' := by
  induction h with
  | nil => exact ⟨[], .nil⟩
  | cons hfile _ ih =>
    obtain ⟨files', hfs'⟩ := ih
    obtain ⟨file', hfile'⟩ := hfile.exists_afterWalk
    exact ⟨file' :: files', .cons hfile' hfs'⟩

/-- **The recovery walk is exact.** If the callback accepts the partitions of the logs, the walk
goes through with what the callback makes of them. The partitions have what is needed of the logs,
in order and once, and each is part of a run of one log without markers; its bounds are the smallest
and the largest LSN in it. -/
theorem walk_exact {files : List WalFile} {logs : List (List (LogEntry Schema Batch))}
    (h : List.Forall₂ (WalFile.Written crc32 ipc) files logs)
    {onPartition : σ → WalRecoverPartition Batch → Result σ} :
    (∀ init acc, callBack onPartition init (logPartitions sstMax hasFiles logs) = .ok acc →
      ∃ files', walkUnflushedPartitions crc32 ipc sstMax hasFiles onPartition files init =
        .ok (acc, files')) ∧
    (logPartitions sstMax hasFiles logs).flatten =
      neededWrites sstMax hasFiles logs.flatten ∧
    ∀ part ∈ logPartitions sstMax hasFiles logs,
      (∃ log ∈ logs, ∃ run ∈ log.splitOnP isMarker,
        part = neededWrites sstMax hasFiles run) ∧
      (toPartition part).batches = part.map Prod.snd ∧
      (toPartition part).baseLsn = (positiveLsns part).min?.getD 0 ∧
      (toPartition part).maxLsn = (positiveLsns part).max?.getD 0 := by
  refine ⟨fun init acc hcall ↦ ?_, flatten_logPartitions logs, fun part hpart ↦
    ⟨?_, toPartition_batches part, toPartition_span part⟩⟩
  · obtain ⟨files', hfs'⟩ := exists_afterWalk h
    rw [← chainPartitions_eq h] at hcall
    exact ⟨files', (walk_eq_ok crc32 ipc).mpr ⟨hcall, hfs'⟩⟩
  · obtain ⟨run, hrun, rfl⟩ := mem_map.mp (mem_filter.mp hpart).1
    obtain ⟨log, hlog, hrun⟩ := mem_flatMap.mp hrun
    exact ⟨log, hlog, run, hrun, rfl⟩

def sampleClosed : List (LogEntry Unit UInt8) :=
  [.schema (), .batch 1 1 7, .memtableEnd 2 1 1 2, .batch 3 2 8, .batch 4 3 9]

def sampleOpen : List (LogEntry Unit UInt8) := [.schema (), .batch 1 4 10]

theorem sampleOpen_cut : ∃ log, log <+: sampleOpen ∧
    ∃ file, file.bytes.length = 60 ∧ WalFile.Written lengthCrc byteIpc file log := by
  have hlog : ValidLog byteIpc sampleOpen := ⟨by decide, by decide, rfl, trivial⟩
  obtain ⟨log, hpre, hcut⟩ := written_take (f := ⟨2, "2.wal", 1, 0, sampleOpen, none⟩) hlog 60
  exact ⟨log, hpre, _, by decide +kernel, hcut⟩

/-- A closed segment with a marker, and one that is torn in its second batch. -/
def sampleChain : List WalFile :=
  [⟨1, "00000000000000000001.wal", logFile lengthCrc byteIpc sampleClosed
      ((footerFrame (5, ⟨3, 5, 0⟩)).encode lengthCrc) 1 0⟩,
    ⟨2, "00000000000000000002.wal", logFile lengthCrc byteIpc sampleOpen
      ((((batch 2 5 11 : LogEntry Unit UInt8).frame byteIpc).encode lengthCrc).take 10)
      2 0⟩]

theorem sampleChain_written :
    List.Forall₂ (WalFile.Written lengthCrc byteIpc) sampleChain [sampleClosed, sampleOpen] := by
  have hclose : ValidLog byteIpc sampleClosed := ⟨by decide, by decide, rfl, rfl, rfl, rfl, trivial⟩
  have hopen : ValidLog byteIpc sampleOpen := ⟨by decide, by decide, rfl, trivial⟩
  have hacc : (.batch 2 5 11 : LogEntry Unit UInt8).Accepted byteIpc := by decide
  have hsize : 10 < (.batch 2 5 11 : LogEntry Unit UInt8).size byteIpc := by decide
  obtain ⟨_, hstop⟩ := readFrame_torn hacc (by decide) hsize
  exact .cons (.closed hclose _ _ _ _ _) (.cons (.opened hopen hstop _ _ _ _) .nil)

/-- With the first batch in an SST, the walk hands on the other ones of the first segment together,
and then the one of the second segment. -/
theorem sampleChain_walked : ∃ files', walkUnflushedPartitions lengthCrc byteIpc 1 true
    (fun acc partition ↦ .ok (acc ++ [partition])) sampleChain [] =
      .ok ([⟨[8, 9], 2, 3⟩, ⟨[10], 4, 4⟩], files') :=
  (walk_exact sampleChain_written).1 [] _ (by decide)

end MonoTS
