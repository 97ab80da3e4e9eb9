import MonoTS.Wal.Misframe

/-!
# Reopening a segment after a crash

A crash cuts a segment file at some byte. Reopening scans the part that can be read and continues
appending at the end of the file. `TornResume` collects everything such a history depends on, and
`outcome` runs it: create, append, cut, reopen, append, and then read the file by the recovery walk
and by the replay.

What should come out is `expected`: the batches of the frames that lie completely before the cut,
then the batches accepted after the reopening. It does come out when the cut falls between two
frames (`exact_of_clean`), or when nothing is appended afterwards (`exact_of_untouched`). When the
cut tears a frame, the torn bytes stay in the file in front of the new frames, and a reader that
reaches them is out of step from there on (`boundary_of_exact`).
-/

open List

namespace MonoTS

open LogEntry (size)

open LittleEndian ByteStream FramedSegmentWriter SegmentHeader

variable {Schema Batch : Type*} {crc32 : Bytes → UInt32} {ipc : ArrowIpc Schema Batch}

/-! ## Cutting a log -/

variable (ipc) in
/-- The entries of a log that lie completely within its first `n` bytes. -/
def completeBefore : ℕ → List (LogEntry Schema Batch) → List (LogEntry Schema Batch)
  | _, [] => []
  | n, e :: log => if e.size ipc ≤ n then e :: completeBefore (n - e.size ipc) log else []

variable (ipc) in
/-- Byte `n` of the image of a log is where an entry ends and the next one starts. -/
def OnFrameBoundary (log : List (LogEntry Schema Batch)) (n : ℕ) : Prop :=
  ∃ k, n = ((log.take k).map (size ipc)).sum

variable (ipc) in
theorem completeBefore_isPrefix (n : ℕ) (log : List (LogEntry Schema Batch)) :
    completeBefore ipc n log <+: log := by
  induction log generalizing n with
  | nil => exact prefix_rfl
  | cons e log ih =>
    rw [completeBefore]
    split_ifs
    · exact cons_prefix_cons.mpr ⟨rfl, ih _⟩
    · exact nil_prefix

variable {n : ℕ} {log : List (LogEntry Schema Batch)}

theorem completeBefore_eq_self (h : (log.map (size ipc)).sum ≤ n) :
    completeBefore ipc n log = log := by
  induction log generalizing n with
  | nil => rfl
  | cons e log ih =>
    rw [map_cons, sum_cons] at h
    rw [completeBefore, if_pos (by omega), ih (by omega)]

theorem take_encodeLog_of_boundary (h : OnFrameBoundary ipc log n) :
    (encodeLog crc32 ipc log).take n = encodeLog crc32 ipc (completeBefore ipc n log) := by
  obtain ⟨k, hk⟩ := h
  induction log generalizing n k with
  | nil => simp [completeBefore]
  | cons e log ih =>
    rw [encodeLog_cons, completeBefore]
    cases k with
    | zero =>
      have hpos := LogEntry.size_pos ipc e
      rw [take_zero, map_nil, sum_nil] at hk
      subst hk
      rw [if_neg (by omega), take_zero, encodeLog_nil]
    | succ k =>
      rw [take_succ_cons, map_cons, sum_cons] at hk
      rw [if_pos (by omega), encodeLog_cons, ← ih (n := n - e.size ipc) k (by omega),
        take_append, Frame.length_encode, ← size,
        take_of_length_le (by rw [Frame.length_encode, ← size]; omega)]

theorem take_encodeLog_of_torn (hn : n ≤ (log.map (size ipc)).sum)
    (h : ¬ OnFrameBoundary ipc log n) :
    ∃ e ∈ log, ∃ j, 0 < j ∧ j < e.size ipc ∧ ∀ crc32, (encodeLog crc32 ipc log).take n
      = encodeLog crc32 ipc (completeBefore ipc n log) ++ ((e.frame ipc).encode crc32).take j := by
  induction log generalizing n with
  | nil => exact absurd ⟨0, by simpa using hn⟩ h
  | cons e log ih =>
    rw [map_cons, sum_cons] at hn
    rw [completeBefore]
    split_ifs with hsize
    · have hrest : ¬ OnFrameBoundary ipc log (n - e.size ipc) := by
        rintro ⟨k, _⟩
        refine h ⟨k + 1, ?_⟩
        rw [take_succ_cons, map_cons, sum_cons]
        omega
      obtain ⟨e', he', j, hj0, hj, htake⟩ := ih (by omega) hrest
      refine ⟨e', mem_cons_of_mem _ he', j, hj0, hj, fun crc32 ↦ ?_⟩
      rw [encodeLog_cons, encodeLog_cons, append_assoc, ← htake crc32, take_append,
        Frame.length_encode, ← size,
        take_of_length_le (by rw [Frame.length_encode, ← size]; omega)]
    · have hpos : 0 < n := by
        by_contra hzero
        exact h ⟨0, by simpa using Nat.eq_zero_of_not_pos hzero⟩
      refine ⟨e, mem_cons_self, n, hpos, by omega, fun crc32 ↦ ?_⟩
      rw [encodeLog_cons, encodeLog_nil, nil_append, take_append_of_le_length]
      rw [Frame.length_encode, ← size]
      omega

theorem length_encodeLog (log : List (LogEntry Schema Batch)) :
    (encodeLog crc32 ipc log).length = (log.map (size ipc)).sum := by
  induction log with
  | nil => rfl
  | cons e log ih => rw [encodeLog_cons, length_append, Frame.length_encode, ih]; rfl

/-- A cut leaves the complete entries and bytes that end the reading. -/
theorem exists_take_encodeLog (hacc : ∀ e ∈ log, e.Accepted ipc) (hread : ∀ e ∈ log, e.Readable ipc)
    (hn : n ≤ (log.map (size ipc)).sum) :
    ∃ torn stop, (encodeLog crc32 ipc log).take n =
        encodeLog crc32 ipc (completeBefore ipc n log) ++ torn ∧
      readFrame crc32 torn = .stop stop := by
  by_cases hb : OnFrameBoundary ipc log n
  · exact ⟨[], .eof, (take_encodeLog_of_boundary hb).trans (append_nil _).symm, rfl⟩
  · obtain ⟨e, he, _, -, hj, htake⟩ := take_encodeLog_of_torn hn hb
    obtain ⟨stop, hstop⟩ := readFrame_torn (hacc e he) (hread e he) hj
    exact ⟨_, stop, htake _, hstop⟩

/-! ## The batches a sequence of calls adds -/

variable (ipc) in
/-- The batches whose append was not refused. -/
def acceptedBatches (blockMaxBytes : ℕ) : List (AppendOp Batch) → List Batch
  | [] => []
  | .batch b _ :: ops =>
    if frameHeaderSize + (ipc.encodeBatch b).length % 2 ^ 32 ≤ blockMaxBytes then
      b :: acceptedBatches blockMaxBytes ops
    else acceptedBatches blockMaxBytes ops
  | .memtableEnd .. :: ops => acceptedBatches blockMaxBytes ops

variable (blockMaxBytes next : ℕ)

theorem logBatches_appendedLog (ops : List (AppendOp Batch)) :
    logBatches (appendedLog ipc blockMaxBytes next ops) =
      acceptedBatches ipc blockMaxBytes ops := by
  induction ops generalizing next with
  | nil => rfl
  | cons op ops ih =>
    rw [appendedLog]
    cases op with
    | batch b lsn =>
      have hblk : (((AppendOp.batch b lsn).entry next : LogEntry Schema Batch).frame ipc).blockLen
          = frameHeaderSize + (ipc.encodeBatch b).length % 2 ^ 32 := rfl
      rw [hblk, acceptedBatches]
      split_ifs
      · rw [← ih (next + 1)]
        rfl
      · exact ih next
    | memtableEnd =>
      split_ifs
      · exact ih (next + 1)
      · exact ih next

variable {ops : List (AppendOp Batch)}

theorem ne_schema_of_mem_appendedLog {blockMaxBytes next : ℕ} :
    ∀ e ∈ appendedLog ipc blockMaxBytes next ops, ∀ s, e ≠ .schema s := by
  induction ops generalizing next with
  | nil => simp [appendedLog]
  | cons op ops ih =>
    rw [appendedLog]
    split_ifs
    · refine forall_mem_cons.mpr ⟨fun s ↦ ?_, ih⟩
      cases op <;> simp [AppendOp.entry]
    · exact ih

variable {e : LogEntry Schema Batch}

theorem readable_iff_of_ne_schema (he : ∀ s, e ≠ .schema s) :
    e.Readable ipc ↔ ∀ b ∈ e.batch?, (ipc.encodeBatch b).length < 2 ^ 32 := by
  cases e with
  | schema s => exact absurd rfl (he s)
  | batch => simp [LogEntry.Readable, LogEntry.frame, LogEntry.batch?]
  | memtableEnd =>
    simp [LogEntry.Readable, LogEntry.frame, LogEntry.batch?]

theorem readable_iff_batches
    (hsch : ∀ s, .schema s ∈ log → (LogEntry.schema s : LogEntry Schema Batch).Readable ipc) :
    (∀ e ∈ log, e.Readable ipc) ↔ ∀ b ∈ logBatches log, (ipc.encodeBatch b).length < 2 ^ 32 := by
  constructor
  · intro h b hb
    obtain ⟨e, he, hb⟩ := mem_filterMap.mp hb
    refine (readable_iff_of_ne_schema ?_).mp (h e he) b hb
    rintro s rfl
    cases hb
  · intro h e he
    by_cases hs : ∃ s, e = .schema s
    · obtain ⟨s, rfl⟩ := hs
      exact hsch s he
    · exact (readable_iff_of_ne_schema (not_exists.mp hs)).mpr fun b hb ↦
        h b (mem_filterMap.mpr ⟨e, he, hb⟩)

theorem appendedLog_readable_iff (ops : List (AppendOp Batch)) :
    (∀ e ∈ appendedLog ipc blockMaxBytes next ops, e.Readable ipc) ↔
      ∀ b ∈ acceptedBatches ipc blockMaxBytes ops, (ipc.encodeBatch b).length < 2 ^ 32 := by
  rw [← logBatches_appendedLog blockMaxBytes next ops]
  exact readable_iff_batches fun s hs ↦ absurd rfl (ne_schema_of_mem_appendedLog _ hs s)

/-! ## A crash and what follows -/

/-- A segment is created and appended to, the file is cut, reopened and appended to again. -/
structure TornResume (Schema Batch : Type*) where
  path : String
  fileId : ℕ
  memtableId : ℕ
  now : ℕ
  schema : Schema
  blockMaxBytes : ℕ
  ops : List (AppendOp Batch)
  /-- The length the crash leaves. -/
  cut : ℕ
  resumeBlockMaxBytes : ℕ
  after : List (AppendOp Batch)

namespace TornResume

variable (crc32 ipc) (t : TornResume Schema Batch)

/-- The entries in the file before the crash. -/
def written : List (LogEntry Schema Batch) :=
  .schema t.schema :: appendedLog ipc (clampBlockMax t.blockMaxBytes) 1 t.ops

/-- The entries that lie completely before the cut. -/
def before : List (LogEntry Schema Batch) :=
  completeBefore ipc (t.cut - segmentHeaderSize) (t.written ipc)

/-- The batches that have to come back. -/
def expected : List Batch :=
  logBatches (t.before ipc) ++
    acceptedBatches ipc (clampBlockMax t.resumeBlockMaxBytes) t.after

/-- Run the history, then read the file by the recovery walk and by the replay. -/
def outcome : Result (List Batch × List Batch) :=
  match createWithBlockMax crc32 ipc t.path none t.memtableId t.now t.schema t.blockMaxBytes with
  | .error e => .error e
  | .ok w =>
    match resumeAny crc32 ipc t.path ((w.applyAll crc32 ipc t.ops).file.take t.cut) with
    | .error e => .error e
    | .ok w' =>
      let file := ((w'.setBlockMaxBytes t.resumeBlockMaxBytes).applyAll crc32 ipc t.after).file
      match walkUnflushedPartitions crc32 ipc 0 false collect [⟨t.fileId, t.path, file⟩] [],
          readSegmentBatches crc32 ipc t.path (some file) true with
      | .error e, _ => .error e
      | .ok _, .error e => .error e
      | .ok (walked, _), .ok read => .ok (walked, read)

/-- Both readers return exactly the expected batches. -/
def Exact : Prop := t.outcome crc32 ipc = .ok (t.expected ipc, t.expected ipc)

/-- The writer could be created, the cut falls into the file behind the segment header, and the
sequence counter stays below its end. -/
structure Valid : Prop where
  schema_fits : ((LogEntry.schema t.schema : LogEntry Schema Batch).frame ipc).blockLen
    ≤ clampBlockMax t.blockMaxBytes
  le_cut : segmentHeaderSize ≤ t.cut
  cut_le : t.cut ≤ segmentHeaderSize + ((t.written ipc).map (size ipc)).sum
  counter_lt : t.ops.length + t.after.length + 2 < 2 ^ 64

/-- The cut tears no frame, and no payload is too long for its length field. -/
structure Clean : Prop where
  boundary : OnFrameBoundary ipc (t.written ipc) (t.cut - segmentHeaderSize)
  before_readable : ∀ e ∈ t.before ipc, e.Readable ipc
  after_readable : ∀ b ∈ acceptedBatches ipc (clampBlockMax t.resumeBlockMaxBytes) t.after,
    (ipc.encodeBatch b).length < 2 ^ 32

/-- Every call after the reopening is refused, and no payload is too long for its length field. -/
structure Untouched : Prop where
  refused : ∀ op ∈ t.after, ∀ next, clampBlockMax t.resumeBlockMaxBytes <
    ((op.entry next : LogEntry Schema Batch).frame ipc).blockLen
  written_readable : ∀ e ∈ t.written ipc, e.Readable ipc

/-- The file the crash leaves. -/
def tornFile : Bytes :=
  (newV1 t.memtableId t.now).encode ++
    (encodeLog crc32 ipc (t.written ipc)).take (t.cut - segmentHeaderSize)

/-- The entries appended after reopening, numbered from `next`. -/
def appended (next : ℕ) : List (LogEntry Schema Batch) :=
  appendedLog ipc (clampBlockMax t.resumeBlockMaxBytes) next t.after

variable {crc32 ipc} {t}

variable (crc32) in
theorem Valid.create (ht : t.Valid ipc) :
    ∃ w, createWithBlockMax crc32 ipc t.path none t.memtableId t.now t.schema t.blockMaxBytes =
        .ok w ∧
      (w.applyAll crc32 ipc t.ops).file.take t.cut = t.tornFile crc32 ipc := by
  have hwr := (writeFrame_eq crc32 _ (clampBlockMax_le t.blockMaxBytes)).1 ht.schema_fits
  have hcre : createWithBlockMax crc32 ipc t.path none t.memtableId t.now t.schema
      t.blockMaxBytes
      = .ok ⟨t.path, t.memtableId, (newV1 t.memtableId t.now).encode ++
          ((LogEntry.schema t.schema : LogEntry Schema Batch).frame ipc).encode crc32, 0, 1, 0, 1,
          clampBlockMax t.blockMaxBytes⟩ := by
    simp only [LogEntry.frame] at hwr
    simp only [createWithBlockMax, hwr, LogEntry.frame]
    rfl
  refine ⟨_, hcre, ?_⟩
  rw [applyAll_file _ (clampBlockMax_le _), append_assoc, ← encodeLog_cons, take_append,
    length_encode, take_of_length_le]
  · rfl
  · rw [length_encode]
    exact ht.le_cut

theorem Valid.written_accepted (ht : t.Valid ipc) : ∀ e ∈ t.written ipc, e.Accepted ipc := by
  have hctr := ht.counter_lt
  refine forall_mem_cons.mpr ⟨⟨ht.schema_fits.trans (clampBlockMax_le _), ?_⟩, ?_⟩
  · exact (by decide : schemaFrameSequence + 1 < 2 ^ 64)
  · exact appendedLog_accepted (clampBlockMax_le _) (by omega)

theorem Valid.before_accepted (ht : t.Valid ipc) : ∀ e ∈ t.before ipc, e.Accepted ipc :=
  fun e he ↦ ht.written_accepted e ((completeBefore_isPrefix ipc _ _).subset he)

theorem before_sequenced : Sequenced 1 (t.before ipc) := by
  obtain ⟨_, hrest⟩ := completeBefore_isPrefix ipc (t.cut - segmentHeaderSize) (t.written ipc)
  have hwr : Sequenced 1 (t.written ipc) := appendedLog_sequenced _ 1 t.ops
  rw [← hrest, sequenced_append] at hwr
  exact hwr.1

theorem Valid.next_add_lt (ht : t.Valid ipc) :
    nextSequence 1 (t.before ipc) + t.after.length < 2 ^ 64 := by
  have hctr := ht.counter_lt
  have hlen := (completeBefore_isPrefix ipc (t.cut - segmentHeaderSize) (t.written ipc)).length_le
  have hwr : (t.written ipc).length ≤ t.ops.length + 1 :=
    Nat.succ_le_succ (length_appendedLog_le _ 1 t.ops)
  have hnext := nextSequence_le 1 (t.before ipc)
  unfold before at hnext ⊢
  omega

theorem Valid.appended_accepted (ht : t.Valid ipc) :
    ∀ e ∈ t.appended ipc (nextSequence 1 (t.before ipc)), e.Accepted ipc :=
  appendedLog_accepted (clampBlockMax_le _) ht.next_add_lt

/-- Reopening keeps the file; the first new frame gets the number the scan found. -/
theorem resumed_file {file : Bytes} {w : FramedSegmentWriter}
    (hres : resumeAny crc32 ipc t.path file = .ok w) :
    ((w.setBlockMaxBytes t.resumeBlockMaxBytes).applyAll crc32 ipc t.after).file
      = file ++ encodeLog crc32 ipc (t.appended ipc w.nextBatchSequence) := by
  have hfile : w.file = file := by
    unfold resumeAny resume resumeWithBlockMax at hres
    split at hres
    · cases hres
    · split at hres
      · cases hres
      · split_ifs at hres
        cases hres
        rfl
  rw [applyAll_file _ (clampBlockMax_le _), ← hfile]
  rfl

/-! ## Nothing is appended behind torn bytes -/

/-- If the complete entries are followed by bytes that end a reading, and so are the entries of a
log once the calls after the reopening are done, then both readers return the log's batches. -/
theorem exact_of_logFile (ht : t.Valid ipc) (log : List (LogEntry Schema Batch))
    {torn tail : Bytes} {stop stop' : FrameStop}
    (htorn : t.tornFile crc32 ipc = logFile crc32 ipc (t.before ipc) torn t.memtableId t.now)
    (hread : ∀ e ∈ t.before ipc, e.Readable ipc) (hstop : readFrame crc32 torn = .stop stop)
    (hfile : t.tornFile crc32 ipc ++
        encodeLog crc32 ipc (t.appended ipc (nextSequence 1 (t.before ipc))) =
      logFile crc32 ipc log tail t.memtableId t.now)
    (hlog : (∀ e ∈ log, e.Accepted ipc) ∧ (∀ e ∈ log, e.Readable ipc) ∧ Sequenced 1 log)
    (hstop' : readFrame crc32 tail = .stop stop') (hbs : logBatches log = t.expected ipc) :
    t.Exact crc32 ipc := by
  obtain ⟨_, hcre, hcut⟩ := ht.create crc32
  obtain ⟨w', hres, -, hnext, -⟩ := resumeAny_logFile t.path t.memtableId t.now
    ht.before_accepted hread before_sequenced hstop
  rw [← htorn] at hres
  have hall : ((w'.setBlockMaxBytes t.resumeBlockMaxBytes).applyAll crc32 ipc t.after).file
      = logFile crc32 ipc log tail t.memtableId t.now := by
    rw [resumed_file hres, hnext, hfile]
  obtain ⟨hacc, hrdbl, hseq⟩ := hlog
  obtain ⟨_, hwalk⟩ := walkUnflushedPartitions_logFile t.path t.memtableId t.now hacc hrdbl
    hseq hstop' t.fileId
  have hrep := readSegmentBatches_logFile t.path t.memtableId t.now hacc hrdbl hseq hstop'
  simp only [Exact, outcome, hcre, hcut, hres, hall, hwalk, hrep, hbs]

/-- **Nothing is lost when the cut tears no frame.** -/
theorem exact_of_clean (ht : t.Valid ipc) (hcl : t.Clean ipc) (crc32 : Bytes → UInt32) :
    t.Exact crc32 ipc := by
  have heof : readFrame crc32 [] = .stop .eof := rfl
  have htorn : t.tornFile crc32 ipc = logFile crc32 ipc (t.before ipc) [] t.memtableId t.now := by
    rw [tornFile, logFile, take_encodeLog_of_boundary hcl.boundary, append_nil]
    rfl
  refine exact_of_logFile ht (t.before ipc ++ t.appended ipc (nextSequence 1 (t.before ipc))) htorn
    hcl.before_readable heof ?_ ⟨?_, ?_, ?_⟩ heof ?_
  · rw [htorn, logFile, logFile, encodeLog_append]
    simp only [append_nil, append_assoc]
  · exact forall_mem_append.mpr ⟨ht.before_accepted, ht.appended_accepted⟩
  · exact forall_mem_append.mpr
      ⟨hcl.before_readable, (appendedLog_readable_iff _ _ _).mpr hcl.after_readable⟩
  · exact sequenced_append.mpr ⟨before_sequenced, appendedLog_sequenced _ _ _⟩
  · rw [logBatches_append, appended, logBatches_appendedLog, expected]

theorem appendedLog_of_refused {blockMaxBytes : ℕ}
    (h : ∀ op ∈ ops, ∀ next,
      blockMaxBytes < ((op.entry next : LogEntry Schema Batch).frame ipc).blockLen) (next : ℕ) :
    appendedLog ipc blockMaxBytes next ops = [] := by
  induction ops with
  | nil => rfl
  | cons op ops ih =>
    obtain ⟨hop, hops⟩ := forall_mem_cons.mp h
    rw [appendedLog, if_neg (hop next).not_ge]
    exact ih hops

/-- **A torn tail on its own is harmless**: the readers stop at it. -/
theorem exact_of_untouched (ht : t.Valid ipc) (h : t.Untouched ipc) (crc32 : Bytes → UInt32) :
    t.Exact crc32 ipc := by
  have hread : ∀ e ∈ t.before ipc, e.Readable ipc := fun e he ↦
    h.written_readable e ((completeBefore_isPrefix ipc _ _).subset he)
  have hnone (next : ℕ) : t.appended ipc next = [] := appendedLog_of_refused h.refused next
  have hacc : acceptedBatches ipc (clampBlockMax t.resumeBlockMaxBytes) t.after = [] := by
    rw [← logBatches_appendedLog _ 0, ← appended, hnone]
    rfl
  have hcut := ht.cut_le
  obtain ⟨torn, _, htake, hstop⟩ := exists_take_encodeLog ht.written_accepted
    h.written_readable (n := t.cut - segmentHeaderSize) (by omega)
  have htorn : t.tornFile crc32 ipc = logFile crc32 ipc (t.before ipc) torn t.memtableId t.now := by
    rw [tornFile, logFile, htake, before]
  refine exact_of_logFile ht (t.before ipc) htorn hread hstop ?_
    ⟨ht.before_accepted, hread, before_sequenced⟩ hstop ?_
  · rw [hnone, encodeLog_nil, append_nil, htorn]
  · rw [expected, hacc, append_nil]

/-! ## A torn frame -/

variable (ipc t) in
/-- The first call after the reopening appends a batch, and a later one appends another. -/
def AppendsTwoBatches : Prop :=
  ∃ b lsn rest, t.after = .batch b lsn :: rest ∧
    frameHeaderSize + (ipc.encodeBatch b).length % 2 ^ 32 ≤ clampBlockMax t.resumeBlockMaxBytes ∧
    acceptedBatches ipc (clampBlockMax t.resumeBlockMaxBytes) rest ≠ []

theorem AppendsTwoBatches.appended_eq (h : t.AppendsTwoBatches ipc) :
    ∃ b lsn, ∀ next, ∃ rest,
      t.appended ipc next = .batch next lsn b :: rest ∧ logBatches rest ≠ [] := by
  obtain ⟨b, lsn, rest, haft, hfits, _⟩ := h
  refine ⟨b, lsn, fun next ↦ ⟨appendedLog ipc (clampBlockMax t.resumeBlockMaxBytes) (next + 1) rest,
    ?_, by rwa [logBatches_appendedLog]⟩⟩
  rw [appended, haft, appendedLog]
  exact if_pos hfits

theorem Exact.replay (ht : t.Valid ipc) (h : t.Exact crc32 ipc) :
    ∃ w, resumeAny crc32 ipc t.path (t.tornFile crc32 ipc) = .ok w ∧ ∀ body,
      body = (encodeLog crc32 ipc (t.written ipc)).take (t.cut - segmentHeaderSize) ++
        encodeLog crc32 ipc (t.appended ipc w.nextBatchSequence) →
      ∃ footer, replayFrames ipc t.path true (segmentFrames crc32 body).2
        (segmentFrames crc32 body).1 1 [] = .ok (t.expected ipc, footer) := by
  obtain ⟨_, hcre, htorn⟩ := ht.create crc32
  simp only [Exact, outcome, hcre, htorn] at h
  split at h
  · cases h
  · next w' hres =>
    refine ⟨w', hres, fun body hbody ↦ ?_⟩
    rw [resumed_file hres, tornFile, append_assoc, ← hbody] at h
    split at h
    · cases h
    · cases h
    · next read _ hread =>
      cases h
      simp only [readSegmentBatches, decode_encode_newV1] at hread
      split at hread
      · cases hread
      · next batches footer hrep =>
        rw [if_neg (by simp)] at hread
        cases hread
        exact ⟨footer, hrep⟩

variable (ipc t) in
theorem length_expected (next : ℕ) :
    (t.expected ipc).length
      = (logBatches (t.before ipc)).length + (logBatches (t.appended ipc next)).length := by
  rw [expected, length_append, appended, logBatches_appendedLog]

/-- Every entry before the cut is readable: otherwise the reading can end there. -/
theorem before_readable_of_exact (ht : t.Valid ipc) (htwo : t.AppendsTwoBatches ipc)
    (h : ∀ crc32, t.Exact crc32 ipc) : ∀ e ∈ t.before ipc, e.Readable ipc := by
  by_contra hread
  obtain ⟨_, e, _, hbef, hpre, he⟩ := exists_first_not hread
  obtain ⟨w, -, hrep⟩ := (h (markCrc [])).replay ht
  obtain ⟨_, _, happ⟩ := htwo.appended_eq
  obtain ⟨rest, hrest, -⟩ := happ w.nextBatchSequence
  have hacc := ht.before_accepted
  have htake : ∃ torn, (encodeLog (markCrc []) ipc (t.written ipc)).take (t.cut - segmentHeaderSize)
      = encodeLog (markCrc []) ipc (t.before ipc) ++ torn := by
    by_cases hb : OnFrameBoundary ipc (t.written ipc) (t.cut - segmentHeaderSize)
    · exact ⟨[], by rw [append_nil]; exact take_encodeLog_of_boundary hb⟩
    · have hcut := ht.cut_le
      obtain ⟨_, -, _, -, -, htake⟩ := take_encodeLog_of_torn (by omega) hb
      exact ⟨_, htake _⟩
  obtain ⟨torn, htake⟩ := htake
  rw [htake, hbef] at hrep
  rw [hbef] at hacc
  obtain ⟨_, hrep⟩ := hrep _ (append_assoc ..).symm
  have hfr := segmentFrames_unreadable [] hacc hpre he
    (torn ++ encodeLog (markCrc []) ipc (t.appended ipc w.nextBatchSequence))
  have hbd := (replayFrames_bound hrep).2
  rw [batchFrames_of_framesOf hfr, length_expected ipc t w.nextBatchSequence, hrest, hbef,
    logBatches_append, length_append, logBatches_cons_of_some rfl rest, length_cons,
    length_nil] at hbd
  omega

/-- With the entries before the cut out of the way, the replay starts at the torn bytes. -/
theorem Exact.replay_tail (ht : t.Valid ipc) (h : t.Exact crc32 ipc)
    (hread : ∀ e ∈ t.before ipc, e.Readable ipc) {torn : Bytes}
    (htake : (encodeLog crc32 ipc (t.written ipc)).take (t.cut - segmentHeaderSize)
      = encodeLog crc32 ipc (t.before ipc) ++ torn) :
    ∃ next, ((∃ stop, readFrame crc32 torn = .stop stop) → next = nextSequence 1 (t.before ipc)) ∧
      ∀ tail, tail = torn ++ encodeLog crc32 ipc (t.appended ipc next) →
        ∃ footer, replayFrames ipc t.path true (segmentFrames crc32 tail).2
          (segmentFrames crc32 tail).1 (nextSequence 1 (t.before ipc)) (logBatches (t.before ipc))
            = .ok (t.expected ipc, footer) := by
  obtain ⟨w, hres, hrep⟩ := h.replay ht
  refine ⟨w.nextBatchSequence, ?_, ?_⟩
  · rintro ⟨_, hstop⟩
    obtain ⟨_, hres', -, hnext, -⟩ := resumeAny_logFile t.path t.memtableId t.now
      ht.before_accepted hread before_sequenced hstop
    rw [tornFile, htake] at hres
    rw [logFile, hres] at hres'
    cases hres'
    exact hnext
  · rintro tail rfl
    obtain ⟨_, hfr, hits⟩ := segmentFrames_encodeLog crc32
      ht.before_accepted hread (torn ++ encodeLog crc32 ipc (t.appended ipc w.nextBatchSequence))
    obtain ⟨footer, hfoot⟩ := hrep _ (by rw [htake, append_assoc])
    rw [hits, replayFrames_log t.path true _ _ _ hfr ht.before_accepted before_sequenced,
      nil_append] at hfoot
    exact ⟨footer, hfoot⟩

theorem after_readable_of_exact (ht : t.Valid ipc) (h : ∀ crc32, t.Exact crc32 ipc)
    (hread : ∀ e ∈ t.before ipc, e.Readable ipc)
    (hb : OnFrameBoundary ipc (t.written ipc) (t.cut - segmentHeaderSize)) :
    ∀ b ∈ acceptedBatches ipc (clampBlockMax t.resumeBlockMaxBytes) t.after,
      (ipc.encodeBatch b).length < 2 ^ 32 := by
  rw [← appendedLog_readable_iff _ (nextSequence 1 (t.before ipc))]
  by_contra haft
  obtain ⟨_, e, _, happ, hpre, he⟩ := exists_first_not haft
  obtain ⟨_, hnext, hrep⟩ := (h (markCrc [])).replay_tail ht hread
    ((take_encodeLog_of_boundary hb).trans (append_nil _).symm)
  obtain rfl := hnext ⟨.eof, rfl⟩
  have hacc := ht.appended_accepted
  rw [appended, happ] at hacc
  obtain ⟨_, hfoot⟩ := hrep _ rfl
  have hbd := (replayFrames_bound hfoot).2
  have hfr := segmentFrames_unreadable [] hacc hpre he []
  rw [append_nil] at hfr
  rw [nil_append, appended, happ, batchFrames_of_framesOf hfr,
    length_expected ipc t (nextSequence 1 (t.before ipc)), appended, happ, logBatches_append,
    length_append] at hbd
  have hmem : e ∈ appendedLog ipc (clampBlockMax t.resumeBlockMaxBytes)
      (nextSequence 1 (t.before ipc)) t.after := by
    rw [happ]
    exact mem_append_right _ mem_cons_self
  have hsome : e.batch? ≠ none := by
    intro hnone
    have hsch := ne_schema_of_mem_appendedLog e hmem
    exact he ((readable_iff_of_ne_schema hsch).mpr (by simp [hnone]))
  obtain ⟨_, hb⟩ := Option.ne_none_iff_exists'.mp hsome
  rw [logBatches_cons_of_some hb, length_cons] at hbd
  omega

/-- A reader of the torn bytes has to find at least two frames. -/
theorem two_frames_of_replay (htwo : t.AppendsTwoBatches ipc) {path : String} {footer : Bool}
    {tail : Bytes}
    (h : replayFrames ipc path true (segmentFrames crc32 tail).2 (segmentFrames crc32 tail).1
      (nextSequence 1 (t.before ipc)) (logBatches (t.before ipc)) = .ok (t.expected ipc, footer)) :
    ∃ frame body rest frame' rest', readFrame crc32 tail = .item (frame, body) rest ∧
      readFrame crc32 rest = .item frame' rest' := by
  obtain ⟨_, _, happ⟩ := htwo.appended_eq
  obtain ⟨rest, hrest, hne⟩ := happ 0
  have hpos : 0 < (logBatches rest).length := length_pos_iff.mpr hne
  have hbd := (replayFrames_bound h).2
  have hcnt : batchFrames (segmentFrames crc32 tail).1 ≤ (segmentFrames crc32 tail).1.length :=
    countP_le_length
  rw [length_expected ipc t 0, hrest, logBatches_cons_of_some rfl, length_cons] at hbd
  cases hfst : readFrame crc32 tail with
  | stop =>
    rw [segmentFrames, items_of_stop hfst, length_nil] at hcnt
    rw [segmentFrames, items_of_stop hfst] at hbd
    omega
  | item a behind =>
    obtain ⟨frame, body⟩ := a
    cases hsnd : readFrame crc32 behind with
    | stop =>
      rw [segmentFrames, items_of_item (consuming_readFrame crc32) hfst, items_of_stop hsnd]
        at hcnt hbd
      rw [length_singleton] at hcnt
      omega
    | item a' behind' => exact ⟨frame, body, behind, a', behind', rfl, hsnd⟩

theorem drop_encodeLog (log : List (LogEntry Schema Batch)) (k : ℕ) :
    (encodeLog crc32 ipc log).drop ((log.take k).map (size ipc)).sum
      = encodeLog crc32 ipc (log.drop k) := by
  conv_lhs => rw [← take_append_drop k log, encodeLog_append, take_append_drop]
  exact drop_left' (length_encodeLog _)

section

variable (ht : t.Valid ipc) (htwo : t.AppendsTwoBatches ipc) (h : ∀ crc32, t.Exact crc32 ipc)
  (hread : ∀ e ∈ t.before ipc, e.Readable ipc)

include ht htwo h hread

/-- The torn entry of an exact history keeps sixteen bytes, and under two constant CRCs the reader
finds a second frame where the torn one would have ended: the torn frame swallows whole entries. -/
theorem swallows_entries (he : e.Accepted ipc)
    (hrdbl : e.Readable ipc) {j : ℕ} (hj8 : 8 ≤ j) (hj : j < e.size ipc)
    (htake : ∀ crc32, (encodeLog crc32 ipc (t.written ipc)).take (t.cut - segmentHeaderSize)
      = encodeLog crc32 ipc (t.before ipc) ++ ((e.frame ipc).encode crc32).take j) :
    ∃ k, e.size ipc - j = (((t.appended ipc (nextSequence 1 (t.before ipc))).take (k + 1)).map
      (size ipc)).sum := by
  have hconst (c : UInt32) : ∃ a rest, readFrame (constCrc c) ((encodeLog (constCrc c) ipc
      (t.appended ipc (nextSequence 1 (t.before ipc)))).drop (e.size ipc - j)) = .item a rest := by
    obtain ⟨_, hnext, hrep⟩ := (h (constCrc c)).replay_tail ht hread (htake _)
    obtain rfl := hnext (readFrame_torn he hrdbl hj)
    obtain ⟨_, hfoot⟩ := hrep _ rfl
    obtain ⟨_, _, _, a, rest', hfst, hsnd⟩ := two_frames_of_replay htwo hfoot
    rw [readFrame_torn_append he hrdbl hj8 hj hfst] at hsnd
    exact ⟨a, rest', hsnd⟩
  obtain ⟨_, _, h0⟩ := hconst 0
  obtain ⟨_, _, h1⟩ := hconst 0x01010101
  obtain ⟨k, hk⟩ := boundary_of_readFrame h0 h1
  cases k with
  | zero =>
    rw [take_zero, map_nil, sum_nil] at hk
    omega
  | succ k => exact ⟨k, hk⟩

/-- **The cut tears no frame**: a reader that runs from a torn frame into the frames behind it does
not return exactly what was written for every CRC. -/
theorem boundary_of_exact : OnFrameBoundary ipc (t.written ipc) (t.cut - segmentHeaderSize) := by
  by_contra hb
  have hcut := ht.cut_le
  obtain ⟨e, he, j, hj0, hj, htake⟩ := take_encodeLog_of_torn (by omega) hb
  have hacc : e.Accepted ipc := ht.written_accepted e he
  obtain ⟨_, _, happ⟩ := htwo.appended_eq
  -- With the torn payload marked, the torn frame is accepted only if it is completed exactly.
  obtain ⟨next, hnext, hrep⟩ := (h (markCrc (e.frame ipc).payload)).replay_tail ht hread (htake _)
  obtain ⟨_, hfoot⟩ := hrep _ rfl
  obtain ⟨frame, _, _, -, -, hfst, -⟩ := two_frames_of_replay htwo hfoot
  have hj16 : 16 ≤ j := by
    obtain ⟨after, haft, -⟩ := happ next
    have hfits := appendedLog_blockLen_le _ (haft ▸ mem_cons_self : _ ∈ t.appended ipc next)
    rw [haft, encodeLog_cons] at hfst
    exact sixteen_le_of_readFrame (hfits.trans (clampBlockMax_le _)) hj hj0 hfst
  obtain ⟨hrdbl, rfl, htype⟩ := readFrame_markCrc hacc hj16 hj hfst
  obtain rfl := hnext (readFrame_torn hacc hrdbl hj)
  have hrest := readFrame_torn_append hacc hrdbl (by omega) hj hfst
  obtain ⟨k, hk⟩ := swallows_entries ht htwo h hread hacc hrdbl (by omega) hj htake
  obtain ⟨after, haft, -⟩ := happ (nextSequence 1 (t.before ipc))
  have hlen := length_expected ipc t (nextSequence 1 (t.before ipc))
  rw [haft, logBatches_cons_of_some rfl, length_cons] at hlen
  rw [segmentFrames, items_of_item (consuming_readFrame _) hfst] at hfoot
  -- Either the torn batch stands for the first new one, and then it is shorter than what it
  -- swallows, or there is one batch less than expected.
  by_cases hbat : frame.recordType = .batch
  · obtain ⟨_, _, b', rfl⟩ := e.eq_batch_of_recordType (htype hbat)
    rcases replayFrames_cons_batch hbat (ipc.decodeBatch_encodeBatch b') hfoot with hout | hout
    · rw [hout] at hlen
      omega
    · rw [expected, ← logBatches_appendedLog _ (nextSequence 1 (t.before ipc)), ← appended, haft,
        logBatches_cons_of_some rfl, prefix_append_right_inj, cons_prefix_cons] at hout
      obtain ⟨rfl, -⟩ := hout
      rw [haft, take_succ_cons, map_cons, sum_cons] at hk
      simp only [size, LogEntry.frame, Frame.size] at hk hj
      omega
  · have hbd := (replayFrames_bound hfoot).2
    have hle := batchFrames_encodeLog_le (e.frame ipc).payload
      (fun e he ↦ ht.appended_accepted e (mem_of_mem_drop (i := k + 1) he))
    rw [batchFrames, countP_cons_of_neg (by simpa using hbat), ← batchFrames, hrest, hk,
      drop_encodeLog, haft, drop_succ_cons] at hbd
    rw [haft, drop_succ_cons, segmentFrames] at hle
    have hdrop : (logBatches (after.drop k)).length ≤ (logBatches after).length :=
      ((drop_sublist k after).filterMap _).length_le
    omega

end

/-- **Reopening a cut segment loses nothing if the cut is clean or nothing is appended**, and where
two batches are appended afterwards only if it is clean. -/
theorem resume_exact_iff_clean (ht : t.Valid ipc) :
    (t.Clean ipc ∨ t.Untouched ipc → ∀ crc32, t.Exact crc32 ipc) ∧
      (t.AppendsTwoBatches ipc → ((∀ crc32, t.Exact crc32 ipc) ↔ t.Clean ipc)) := by
  refine ⟨fun h ↦ h.elim (exact_of_clean ht) (exact_of_untouched ht),
    fun htwo ↦ ⟨fun h ↦ ?_, exact_of_clean ht⟩⟩
  have hread := before_readable_of_exact ht htwo h
  have hboun := boundary_of_exact ht htwo h hread
  exact ⟨hboun, hread, after_readable_of_exact ht h hread hboun⟩

/-- Two batches are written, the file is cut at `cut`, and two more batches are appended. -/
def cutSample (cut : ℕ) : TornResume Unit UInt8 where
  path := "00000000000000000001.wal"
  fileId := 1
  memtableId := 1
  now := 0
  schema := ()
  blockMaxBytes := defaultWalBlockMaxBytes
  ops := [.batch 7 1, .batch 8 2]
  cut := cut
  resumeBlockMaxBytes := defaultWalBlockMaxBytes
  after := [.batch 9 3, .batch 10 4]

/-- A cut behind the first batch is clean, and everything comes back. -/
theorem resume_exact_behind_first_batch :
    (cutSample 114).Valid byteIpc ∧ (cutSample 114).Clean byteIpc ∧
      ∀ crc32, (cutSample 114).Exact crc32 byteIpc := by
  have hval : (cutSample 114).Valid byteIpc := ⟨by decide, by decide, by decide, by decide⟩
  have hcl : (cutSample 114).Clean byteIpc := ⟨⟨2, by decide⟩, by decide, by decide +kernel⟩
  exact ⟨hval, hcl, (resume_exact_iff_clean hval).1 (.inl hcl)⟩

/-- A cut ten bytes into the second batch: the two batches appended behind the torn frame are not
read back. -/
theorem resume_loses_appended_batches :
    (cutSample 124).Valid byteIpc ∧ (cutSample 124).expected byteIpc = [7, 9, 10] ∧
      (cutSample 124).outcome (fun payload ↦ payload.length.toUInt32) byteIpc = .ok ([7], [7]) ∧
      ¬ (cutSample 124).Exact (fun payload ↦ payload.length.toUInt32) byteIpc := by
  have houtc : (cutSample 124).outcome (fun payload ↦ payload.length.toUInt32) byteIpc
      = .ok ([7], [7]) := by decide +kernel
  have hexp : (cutSample 124).expected byteIpc = [7, 9, 10] := by decide
  refine ⟨⟨by decide, by decide, by decide, by decide⟩, hexp, houtc, ?_⟩
  rw [Exact, houtc, hexp]
  decide

end TornResume

end MonoTS
