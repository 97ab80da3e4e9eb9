import MonoTS.Stream.Dispatcher

/-!
# Hybrid capture into a directory of Parquet files

A stream in hybrid mode captures logged rows, a watermark when a memtable ends, and later the file
the memtable is flushed to. A sink that collects Parquet files in a directory has no use for logged
rows and skips them: it relies on the file. But the dispatcher counts a row as sent once it has sent
its insert, and a watermark as the end of what was sent. A file that arrives when the cursor stands
at its last LSN is degraded: it is acknowledged and its link removed, and no sink writes it.

The machine has the capture side (which LSNs are in which memtable), the pipeline and the staging
area of the sink, whose answers are what the worker sees. `acked_rows_in_directory` says that what
is acknowledged is in the directory, in runs in which the cursor never reaches the end of a memtable
before its file is taken.
-/

open Transition List Option

namespace MonoTS

open CaptureBuffer CheckpointBarrier

/-! ## The sink -/

/-- The staging area of a directory sink. A file is named by the path it was copied from, and has
the row count of its event. -/
structure ParquetDirStaging where
  inTransaction : Bool
  /-- The `.tmp` files of the open transaction. -/
  pendingTmps : List (String × ℕ)
  /-- The files renamed to their final names. -/
  committed : List (String × ℕ)

namespace ParquetDirStaging

def new : ParquetDirStaging := ⟨false, [], []⟩

variable (st : ParquetDirStaging)

def beginTxn : SinkResult × ParquetDirStaging :=
  if st.inTransaction then
    (.error (.fatal "begin_txn while a staging transaction is already open"), st)
  else (.ok (), { st with inTransaction := true, pendingTmps := [] })

def write (st : ParquetDirStaging) (event : DataEvent) : SinkResult × ParquetDirStaging :=
  if st.inTransaction = false then (.error (.fatal "staging write outside of active txn"), st)
  else
    match event with
    | .flushFile _ filePath rows =>
      (.ok (), { st with pendingTmps := st.pendingTmps ++ [(filePath, rows)] })
    | .insert _ _ => (.ok (), st)
    | .watermark _ => (.error (.fatal "Watermark must not reach sink write"), st)

def commitTxnWithPaths : SinkResult × ParquetDirStaging :=
  if st.inTransaction = false then (.error (.fatal "staging commit without active txn"), st)
  else (.ok (), ⟨false, [], st.committed ++ st.pendingTmps⟩)

def abortTxn : ParquetDirStaging :=
  if st.inTransaction = false then st else { st with inTransaction := false, pendingTmps := [] }

/-- The call that the worker waits for. -/
def answer : WorkerPc → SinkResult × ParquetDirStaging
  | .opening => st.beginTxn
  | .writing event | .replaying event _ _ => st.write event
  | .committing _ => st.commitTxnWithPaths
  | .recovering _ => st.abortTxn.beginTxn
  | .sinking | .paused | .stopped _ => (.ok (), st)

end ParquetDirStaging

/-! ## The machine -/

/-- The LSNs of a memtable as its file's range: the first to the last. -/
def memEnd (rows : List ℕ) : ℕ := rows.getLastD 0

/-- A flushed memtable: the path of its file and the LSNs it holds. -/
abbrev FlushedMem := String × List ℕ

def FlushedMem.event (f : FlushedMem) : DataEvent :=
  .flushFile (.new (f.2.headD 0) (memEnd f.2)) f.1 f.2.length

/-- The file as the directory has it. -/
def FlushedMem.label (f : FlushedMem) : String × ℕ := (f.1, f.2.length)

/-- A hybrid stream with its memtables and its directory. -/
structure Hybrid where
  lastLsn : ℕ
  /-- The LSNs in the mutable memtable. -/
  current : List ℕ
  /-- The memtables that have ended and whose files are not captured yet, oldest first. -/
  ended : List (List ℕ)
  /-- The captured files, in the order of their capture. -/
  files : List FlushedMem
  pipeline : StreamPipeline
  staging : ParquetDirStaging

/-- A step of the capture or of the pipeline. -/
inductive HybridAction where
  /-- A row is captured from the log. -/
  | insert (lsn : ℕ) (arrow : InsertArrow)
  | memtableEnd
  /-- The file of one of the ended memtables is captured. -/
  | flush (index : ℕ) (filePath : String)
  | pop
  | receive
  /-- The call of the sink returns. -/
  | returns
  | control (ctrl : SinkControl)
  | ping
  | cancel

namespace Hybrid

variable (s : Hybrid)

/-- The capture goes into the buffer. -/
def capture (f : CaptureBuffer → CaptureBuffer) : StreamPipeline :=
  { s.pipeline with buffer := f s.pipeline.buffer }

/-- The worker has made a step; when it ends it gives up its transaction. -/
def settle (st : ParquetDirStaging) (p : StreamPipeline) : Hybrid :=
  { s with
    pipeline := p
    staging := if p.worker.pc.isStopped then st.abortTxn else st }

def step : HybridAction → Option Hybrid
  | .insert lsn arrow =>
    if s.lastLsn < lsn then
      some
        { s with
          lastLsn := lsn
          current := s.current ++ [lsn]
          pipeline := s.capture fun b ↦ b.pushInsert (.insert (.single lsn) arrow) }
    else none
  | .memtableEnd =>
    if s.current = [] then none
    else
      some
        { s with
          current := []
          ended := s.ended ++ [s.current]
          pipeline := s.capture fun b ↦ b.pushWatermark (.watermark (memEnd s.current)) }
  | .flush index filePath =>
    match s.ended[index]? with
    | none => none
    | some rows =>
      if filePath ∈ s.files.map Prod.fst then none
      else
        let f : FlushedMem := (filePath, rows)
        some
          { s with
            ended := s.ended.eraseIdx index
            files := s.files ++ [f]
            pipeline := s.capture fun b ↦ (b.pushFlush f.event).1 }
  | .pop =>
    if s.pipeline.worker.pc.isStopped then none
    else s.pipeline.pop.map fun p ↦ { s with pipeline := p }
  | .receive => s.pipeline.receive.map fun p ↦ { s with pipeline := p }
  | .returns =>
    let r := s.staging.answer s.pipeline.worker.pc
    (s.pipeline.stepWorker (.returns r.1)).map (s.settle r.2)
  | .control ctrl => (s.pipeline.stepWorker (.control ctrl)).map (s.settle s.staging)
  | .ping => (s.pipeline.stepWorker (.ping (.ok ()))).map (s.settle s.staging)
  | .cancel => (s.pipeline.stepWorker .cancel).map (s.settle s.staging)

def initial (stream table : String) : Hybrid where
  lastLsn := 0
  current := []
  ended := []
  files := []
  pipeline := .new stream table 0 {}
  staging := .new

/-- The memtables that have ended, oldest first. -/
def mems : List (List ℕ) := s.files.map Prod.snd ++ s.ended

/-- The captured rows, by their LSNs. -/
def captured : List ℕ := s.mems.flatten ++ s.current

/-- Files are captured in the order of their memtables, a memtable does not end where the cursor
stands, and no logged row or watermark is taken that reaches the end of a memtable whose file is yet
to be taken. -/
def FilesFirst : HybridAction → Prop
  | .flush index _ => index = 0
  | .memtableEnd => s.pipeline.dispatcher.cursor < memEnd s.current
  | .pop =>
    match s.pipeline.buffer.findBestHead with
    | some .insert => ∀ e ∈ s.pipeline.buffer.insertQ.head?,
        (∀ rows ∈ s.ended, e.maxLsn < memEnd rows) ∧
          ∀ f ∈ s.pipeline.buffer.flushQ, e.maxLsn < f.maxLsn
    | _ => True
  | _ => True

instance (a : HybridAction) : Decidable (s.FilesFirst a) := by
  unfold FilesFirst
  split
  · infer_instance
  · infer_instance
  · split <;> infer_instance
  · infer_instance

end Hybrid

/-! ## Memtables in order -/

section

variable {rows : List ℕ} {n : ℕ}

theorem memEnd_mem (h : rows ≠ []) : memEnd rows ∈ rows := by
  rw [memEnd, getLastD_eq_getLast?, getLast?_eq_some_getLast h]
  exact getLast_mem h

theorem headD_mem (h : rows ≠ []) : rows.headD 0 ∈ rows := by
  cases rows with
  | nil => exact absurd rfl h
  | cons => exact mem_cons_self

theorem headD_le (h : rows.Pairwise (· < ·)) (hn : n ∈ rows) : rows.headD 0 ≤ n := by
  cases rows with
  | nil => cases hn
  | cons =>
    rcases mem_cons.mp hn with rfl | hn
    · exact le_rfl
    · exact ((pairwise_cons.mp h).1 n hn).le

theorem FlushedMem.lsn_event {f : FlushedMem} (hne : f.2 ≠ []) (h : f.2.Pairwise (· < ·)) :
    f.event.lsn.baseLsn = f.2.headD 0 ∧ f.event.lsn.maxLsn = memEnd f.2 := by
  have hle : f.2.headD 0 ≤ memEnd f.2 := headD_le h (memEnd_mem hne)
  rw [FlushedMem.event, DataEvent.lsn, LsnRange.new, dif_pos hle]
  exact ⟨rfl, rfl⟩

end

namespace Hybrid

variable {s s' : Hybrid}

/-- The LSNs increase, and no memtable that has ended is without rows. -/
structure Captured (s : Hybrid) : Prop where
  increasing : s.captured.Pairwise (· < ·)
  bounded : ∀ n ∈ s.captured, 0 < n ∧ n ≤ s.lastLsn
  nonempty : ∀ rows ∈ s.mems, rows ≠ []

namespace Captured

variable (h : s.Captured)

include h

theorem mem_increasing {rows : List ℕ} (hrows : rows ∈ s.mems) : rows.Pairwise (· < ·) :=
  (pairwise_flatten.mp (pairwise_append.mp h.increasing).1).1 rows hrows

theorem mems_increasing : s.mems.Pairwise fun rows rows' ↦ ∀ n ∈ rows, ∀ m ∈ rows', n < m :=
  (pairwise_flatten.mp (pairwise_append.mp h.increasing).1).2

theorem memEnd_lt {before behind : List (List ℕ)} {rows rows' : List ℕ}
    (hmems : s.mems = before ++ rows :: behind) (hrows' : rows' ∈ behind) :
    memEnd rows < memEnd rows' := by
  have hinc := h.mems_increasing
  rw [hmems, pairwise_append, pairwise_cons] at hinc
  have hne : ∀ x ∈ rows :: behind, x ≠ [] := fun x hx ↦
    h.nonempty x (hmems ▸ mem_append_right _ hx)
  exact hinc.2.1.1 rows' hrows' _ (memEnd_mem (hne rows mem_cons_self)) _
    (memEnd_mem (hne rows' (mem_cons_of_mem _ hrows')))

theorem lsn_event {f : FlushedMem} (hf : f ∈ s.files) :
    f.event.lsn.baseLsn = f.2.headD 0 ∧ f.event.lsn.maxLsn = memEnd f.2 := by
  have hmem : f.2 ∈ s.mems := mem_append_left _ (List.mem_map_of_mem hf)
  exact FlushedMem.lsn_event (h.nonempty _ hmem) (h.mem_increasing hmem)

end Captured

/-- The file that an event brings, if it does. -/
def fileOf : DataEvent → Option DataEvent
  | .flushFile lsn filePath rows => some (.flushFile lsn filePath rows)
  | _ => none

/-- The file that the dispatcher sends with an event. -/
def sentFile : PipelineEvent → Option DataEvent
  | .data event => fileOf event
  | _ => none

/-- The event neither acknowledges by itself nor brings a watermark. -/
def Clean : PipelineEvent → Prop
  | .data event => event.isWatermark = false
  | .barrier b => b.watermarkLsn = 0
  | .stale _ _ => True
  | .degrade _ _ => False

/-- Where the files of the open transaction are: staged, and being written. -/
def AtPc (st : ParquetDirStaging) (ps ws : List FlushedMem) : WorkerPc → Prop
  | .opening => st.inTransaction = false ∧ ps = [] ∧ ws = []
  | .sinking | .paused => st.inTransaction = true ∧ ws = []
  | .committing b => st.inTransaction = true ∧ ws = [] ∧ b.watermarkLsn = 0
  | .writing event => st.inTransaction = true ∧ event.isWatermark = false ∧
      ws.map FlushedMem.event = (fileOf event).toList
  | _ => False

/-- The captured files on their way: staged (`ps`), being written (`ws`), in the channel (`hs`) and
in the buffer (`qs`). -/
structure Flowing (s : Hybrid) (ps ws hs qs : List FlushedMem) : Prop where
  pending : s.staging.pendingTmps = ps.map FlushedMem.label
  atPc : AtPc s.staging ps ws s.pipeline.worker.pc
  channel : s.pipeline.channel.filterMap sentFile = hs.map FlushedMem.event
  clean : ∀ e ∈ s.pipeline.channel, Clean e
  queue : s.pipeline.buffer.flushQ = qs.map FlushedMem.event
  compact : s.pipeline.buffer.compactQ = []
  log : ∀ e ∈ s.pipeline.buffer.insertQ,
    (∃ lsn arrow, e = .insert lsn arrow) ∨ ∃ rows ∈ s.ended, e = .watermark (memEnd rows)
  replay : ∀ e ∈ s.pipeline.worker.buffer.flushFiles, e ∈ ps.map FlushedMem.event
  cursor : ∀ rows ∈ qs.map Prod.snd ++ s.ended, s.pipeline.dispatcher.cursor < memEnd rows
  barrier : s.pipeline.dispatcher.barrier.watermarkLsn = 0

/-- The committed files (`cs`) are the first ones captured, and the acknowledged LSN is the end of
one of them. While the worker runs, the others are on their way in the order of their capture. -/
structure Delivered (s : Hybrid) (cs rest : List FlushedMem) : Prop where
  files : s.files = cs ++ rest
  committed : s.staging.committed = cs.map FlushedMem.label
  acked : s.pipeline.worker.ackedLsn = 0 ∨ ∃ c ∈ cs, s.pipeline.worker.ackedLsn = memEnd c.2
  flowing : s.pipeline.worker.pc.isStopped = false →
    ∃ ps ws hs qs, rest = ps ++ ws ++ hs ++ qs ∧ s.Flowing ps ws hs qs

/-- What every step keeps. -/
structure Inv (s : Hybrid) : Prop where
  lsns : s.Captured
  delivered : ∃ cs rest, s.Delivered cs rest
  progress : ∀ c ∈ s.pipeline.worker.progress, c.lsn ≤ s.pipeline.worker.ackedLsn

/-! ## Capturing -/

theorem Inv.insert {lsn : ℕ} {arrow : InsertArrow} (h : s.Inv) (hlt : s.lastLsn < lsn) :
    Inv
      { s with
        lastLsn := lsn
        current := s.current ++ [lsn]
        pipeline := s.capture fun b ↦ b.pushInsert (.insert (.single lsn) arrow) } where
  lsns := by
    have hold := h.lsns
    have hcap : captured { s with current := s.current ++ [lsn] } = s.captured ++ [lsn] :=
      (append_assoc _ _ _).symm
    refine ⟨?_, ?_, hold.nonempty⟩
    · show (captured { s with current := s.current ++ [lsn] }).Pairwise (· < ·)
      rw [hcap]
      refine pairwise_append.mpr ⟨hold.increasing, pairwise_singleton _ _, ?_⟩
      intro n hn m hm
      rw [mem_singleton.mp hm]
      exact (hold.bounded n hn).2.trans_lt hlt
    · show ∀ n ∈ captured { s with current := s.current ++ [lsn] }, 0 < n ∧ n ≤ lsn
      rw [hcap]
      refine forall_mem_append.mpr ⟨fun n hn ↦ ?_, ?_⟩
      · exact ⟨(hold.bounded n hn).1, (hold.bounded n hn).2.trans hlt.le⟩
      · exact forall_mem_singleton.mpr ⟨(Nat.zero_le _).trans_lt hlt, le_rfl⟩
  delivered := by
    obtain ⟨cs, rest, hd⟩ := h.delivered
    refine ⟨cs, rest, hd.files, hd.committed, hd.acked, fun hrun ↦ ?_⟩
    obtain ⟨ps, ws, hs, qs, hrest, hf⟩ := hd.flowing hrun
    refine ⟨ps, ws, hs, qs, hrest, { hf with log := ?_ }⟩
    show ∀ e ∈ insertOrMerge _ (.insert (.single lsn) arrow), _
    exact forall_insertOrMerge (fun lsn arrow ↦ .inl ⟨lsn, arrow, rfl⟩) hf.log
  progress := h.progress

theorem Inv.memtableEnd (h : s.Inv) (hne : s.current ≠ [])
    (hsafe : s.pipeline.dispatcher.cursor < memEnd s.current) :
    Inv
      { s with
        current := []
        ended := s.ended ++ [s.current]
        pipeline := s.capture fun b ↦ b.pushWatermark (.watermark (memEnd s.current)) } where
  lsns := by
    have hold := h.lsns
    have hmems : mems { s with ended := s.ended ++ [s.current] } = s.mems ++ [s.current] :=
      (append_assoc _ _ _).symm
    have hcap : captured { s with current := [], ended := s.ended ++ [s.current] } =
        s.captured := by
      show (mems { s with ended := s.ended ++ [s.current] }).flatten ++ [] = _
      rw [hmems, flatten_append, flatten_singleton, append_nil]
      rfl
    refine ⟨hcap.symm ▸ hold.increasing, hcap.symm ▸ hold.bounded, ?_⟩
    show ∀ rows ∈ mems { s with ended := s.ended ++ [s.current] }, rows ≠ []
    rw [hmems]
    exact forall_mem_append.mpr ⟨hold.nonempty, forall_mem_singleton.mpr hne⟩
  delivered := by
    obtain ⟨cs, rest, hd⟩ := h.delivered
    refine ⟨cs, rest, hd.files, hd.committed, hd.acked, fun hrun ↦ ?_⟩
    obtain ⟨ps, ws, hs, qs, hrest, hf⟩ := hd.flowing hrun
    refine ⟨ps, ws, hs, qs, hrest, { hf with log := ?_, cursor := ?_ }⟩
    · refine forall_insertSorted (fun e he ↦ ?_) (.inr ⟨s.current, ?_, rfl⟩)
      · exact (hf.log e he).imp_right fun ⟨rows, hrows, heq⟩ ↦ ⟨rows, mem_append_left _ hrows, heq⟩
      · exact mem_append_right _ mem_cons_self
    · show ∀ rows ∈ qs.map Prod.snd ++ (s.ended ++ [s.current]), _
      rw [← append_assoc]
      exact forall_mem_append.mpr ⟨hf.cursor, forall_mem_singleton.mpr hsafe⟩
  progress := h.progress

theorem Inv.flush {rows : List ℕ} {ended : List (List ℕ)} {filePath : String} (h : s.Inv)
    (hended : s.ended = rows :: ended) :
    Inv
      { s with
        ended := ended
        files := s.files ++ [(filePath, rows)]
        pipeline := s.capture fun b ↦ (b.pushFlush (FlushedMem.event (filePath, rows))).1 } := by
  have hmems : mems { s with ended := ended, files := s.files ++ [(filePath, rows)] } = s.mems := by
    simp only [mems, hended, map_append, map_singleton, append_assoc, singleton_append]
  have hcapt : captured { s with ended := ended, files := s.files ++ [(filePath, rows)] } =
      s.captured := by
    rw [captured, hmems]
    rfl
  have hcap : Captured { s with ended := ended, files := s.files ++ [(filePath, rows)] } :=
    ⟨hcapt.symm ▸ h.lsns.increasing, hcapt.symm ▸ h.lsns.bounded, hmems.symm ▸ h.lsns.nonempty⟩
  obtain ⟨cs, rest, hd⟩ := h.delivered
  refine ⟨{ hcap with }, ⟨cs, rest ++ [(filePath, rows)], ?_, hd.committed, hd.acked, ?_⟩,
    h.progress⟩
  · show s.files ++ [(filePath, rows)] = _
    rw [hd.files, append_assoc]
  intro hrun
  obtain ⟨ps, ws, hs, qs, hrest, hf⟩ := hd.flowing hrun
  have hrows : rows ∈ s.mems := mem_append_right _ (hended ▸ mem_cons_self)
  have hne := h.lsns.nonempty _ hrows
  have hinc := h.lsns.mem_increasing hrows
  have hev := FlushedMem.lsn_event (f := (filePath, rows)) hne hinc
  refine ⟨ps, ws, hs, qs ++ [(filePath, rows)], by rw [hrest, append_assoc],
    { hf with queue := ?_, log := ?_, cursor := ?_ }⟩
  · -- The new file starts behind those that wait.
    show insertSorted s.pipeline.buffer.flushQ _ = _
    rw [hf.queue, map_append, map_singleton]
    refine insertSorted_append (List.forall_mem_map.mpr fun g hg ↦ ?_)
    have hgf : g ∈ s.files := by
      rw [hd.files, hrest]
      exact mem_append_right _ (mem_append_right _ hg)
    have hgmem : g.2 ∈ s.files.map Prod.snd := List.mem_map_of_mem hgf
    have hlt := (pairwise_append.mp h.lsns.mems_increasing).2.2 g.2 hgmem rows
      (hended ▸ mem_cons_self)
    rw [(h.lsns.lsn_event hgf).1, hev.1]
    exact (hlt _ (headD_mem (h.lsns.nonempty _ (mem_append_left _ hgmem))) _ (headD_mem hne)).le
  · -- The watermark of this memtable is dropped, the others are those of later memtables.
    intro e he
    obtain ⟨he, hkept⟩ := mem_filter.mp he
    refine (hf.log e he).imp_right fun ⟨rows', hrows', heq⟩ ↦ ?_
    rw [hended] at hrows'
    rcases mem_cons.mp hrows' with rfl | hrows'
    · have hcov : isFullyCovered e.lsn (FlushedMem.event (filePath, rows')).lsn = true := by
        rw [isFullyCovered, hev.1, hev.2, heq, Bool.and_eq_true]
        exact ⟨decide_eq_true (headD_le hinc (memEnd_mem hne)), decide_eq_true le_rfl⟩
      rw [hcov] at hkept
      cases hkept
    · exact ⟨rows', hrows', heq⟩
  · have hsame : (qs ++ [(filePath, rows)]).map Prod.snd ++ ended = qs.map Prod.snd ++ s.ended := by
      rw [hended, map_append, append_assoc]
      rfl
    exact hsame.symm ▸ hf.cursor

/-! ## Taking -/

/-- The pipeline after the dispatcher has taken an event. -/
def taken (s : Hybrid) (buffer : CaptureBuffer) (event : DataEvent) : Hybrid :=
  { s with
    pipeline :=
      { s.pipeline with
        buffer := buffer
        dispatcher := (s.pipeline.dispatcher.dispatch event).1
        channel := s.pipeline.channel ++ (s.pipeline.dispatcher.dispatch event).2 } }

variable {ps : List FlushedMem} {b : CheckpointBarrier} {ws hs qs : List FlushedMem}

/-- A file is taken: it is past the cursor, and so it is sent as data. -/
theorem Flowing.popFile {f : FlushedMem}
    (hf : s.Flowing ps ws hs (f :: qs)) (hend : f.event.lsn.maxLsn = memEnd f.2)
    (hlater : ∀ rows ∈ qs.map Prod.snd ++ s.ended, memEnd f.2 < memEnd rows) :
    (s.taken { s.pipeline.buffer with flushQ := qs.map FlushedMem.event } f.event).Flowing
      ps ws (hs ++ [f]) qs := by
  have hfresh : s.pipeline.dispatcher.cursor < f.event.lsn.maxLsn :=
    hend.symm ▸ hf.cursor f.2 mem_cons_self
  have hsent : s.pipeline.dispatcher.dispatch f.event =
      ({ s.pipeline.dispatcher with
          cursor := f.event.lsn.maxLsn
          barrier := .new s.pipeline.dispatcher.table },
        [.data f.event, .barrier (s.pipeline.dispatcher.barrier.recordEvent
          s.pipeline.dispatcher.table f.event)]) :=
    s.pipeline.dispatcher.dispatch_file_fresh hfresh
  unfold taken
  rw [hsent]
  refine
    { hf with
      channel := ?_
      clean := ?_
      queue := rfl
      cursor := fun rows hrows ↦ hend.symm ▸ hlater rows hrows
      barrier := rfl }
  · show (s.pipeline.channel ++ [_, _]).filterMap sentFile = _
    rw [filterMap_append, hf.channel, map_append]
    rfl
  · refine forall_mem_append.mpr ⟨hf.clean, forall_mem_cons.mpr ⟨rfl, ?_⟩⟩
    refine forall_mem_singleton.mpr ?_
    show watermarkLsn _ = 0
    rw [watermarkLsn_recordEvent _ _ _ rfl, hf.barrier]

/-- A logged row is taken that does not reach the end of a memtable whose file is to come. -/
theorem Flowing.popInsert {lsn : LsnRange} {arrow : InsertArrow} {insertQ : List DataEvent}
    (hf : s.Flowing ps ws hs qs) (hqu : s.pipeline.buffer.insertQ = .insert lsn arrow :: insertQ)
    (hlt : ∀ rows ∈ qs.map Prod.snd ++ s.ended, lsn.maxLsn < memEnd rows) :
    (s.taken { s.pipeline.buffer with insertQ := insertQ } (.insert lsn arrow)).Flowing
      ps ws hs qs := by
  have hlog := hf.log
  rw [hqu, forall_mem_cons] at hlog
  unfold taken
  by_cases hfresh : s.pipeline.dispatcher.cursor < lsn.maxLsn
  · rw [s.pipeline.dispatcher.dispatch_insert_fresh hfresh]
    refine
      { hf with
        channel := ?_
        clean := ?_
        log := hlog.2
        cursor := hlt
        barrier := ?_ }
    · show (s.pipeline.channel ++ [_]).filterMap sentFile = _
      rw [filterMap_append, hf.channel]
      exact append_nil _
    · exact forall_mem_append.mpr ⟨hf.clean, forall_mem_singleton.mpr rfl⟩
    · exact (watermarkLsn_recordEvent _ _ _ rfl).trans hf.barrier
  · have hdrop : s.pipeline.dispatcher.dispatch (.insert lsn arrow) =
        (s.pipeline.dispatcher, []) := if_pos (not_lt.mp hfresh)
    rw [hdrop]
    refine
      { hf with
        channel := ?_
        clean := ?_
        log := hlog.2 }
    · rw [append_nil]
      exact hf.channel
    · rw [append_nil]
      exact hf.clean

variable {p : StreamPipeline}

theorem Inv.pop (h : s.Inv) (hsafe : s.FilesFirst .pop)
    (hrun : s.pipeline.worker.pc.isStopped = false) (hpop : s.pipeline.pop = some p) :
    Inv { s with pipeline := p } := by
  obtain ⟨⟨e, _⟩, hnext, rfl⟩ := map_eq_some_iff.mp hpop
  obtain ⟨cs, rest, hd⟩ := h.delivered
  obtain ⟨ps, ws, hs, qs, hrest, hf⟩ := hd.flowing hrun
  refine ⟨{ h.lsns with }, ⟨cs, rest, hd.files, hd.committed, hd.acked, fun _ ↦ ?_⟩, h.progress⟩
  rcases popNext_cases hnext with ⟨_, hq, -⟩ | ⟨_, hq, rfl⟩ | ⟨hbest, _, hq, rfl⟩
  · cases hf.compact.symm.trans hq
  · -- The oldest file that is not taken yet.
    rw [hf.queue] at hq
    obtain ⟨f, qs', rfl, rfl, rfl⟩ := map_eq_cons_iff.mp hq
    have hfile : f ∈ s.files := by
      rw [hd.files, hrest]
      exact mem_append_right _ (mem_append_right _ mem_cons_self)
    have hmems : s.mems = (cs ++ (ps ++ ws ++ hs)).map Prod.snd ++
        f.2 :: (qs'.map Prod.snd ++ s.ended) := by
      rw [mems, hd.files, hrest]
      simp
    refine ⟨ps, ws, hs ++ [f], qs', by rw [hrest]; simp, hf.popFile (h.lsns.lsn_event hfile).2 ?_⟩
    exact fun rows hrows ↦ h.lsns.memEnd_lt hmems hrows
  · rw [FilesFirst, hbest, hq, head?_cons] at hsafe
    obtain ⟨hended, hqu⟩ := hsafe e rfl
    rcases hf.log e (hq ▸ mem_cons_self) with ⟨_, _, rfl⟩ | ⟨rows, hrows, rfl⟩
    · refine ⟨ps, ws, hs, qs, hrest, hf.popInsert hq (forall_mem_append.mpr ⟨?_, hended⟩)⟩
      refine List.forall_mem_map.mpr fun f hfq ↦ ?_
      have hfile : f ∈ s.files := by
        rw [hd.files, hrest]
        exact mem_append_right _ (mem_append_right _ hfq)
      rw [← (h.lsns.lsn_event hfile).2]
      exact hqu _ (hf.queue ▸ List.mem_map_of_mem hfq)
    · -- A watermark that waits is the end of a memtable whose file is not captured.
      exact absurd (hended rows hrows) (lt_irrefl _)

/-! ## The worker -/

theorem Inv.flowingAt (h : s.Inv) {pc : WorkerPc} (hpc : s.pipeline.worker.pc = pc)
    (hrun : pc.isStopped = false) :
    ∃ cs ps ws hs qs, s.Delivered cs (ps ++ ws ++ hs ++ qs) ∧ s.Flowing ps ws hs qs ∧
      AtPc s.staging ps ws pc := by
  obtain ⟨cs, _, hd⟩ := h.delivered
  obtain ⟨ps, ws, hs, qs, rfl, hf⟩ := hd.flowing (hpc ▸ hrun)
  exact ⟨cs, ps, ws, hs, qs, hd, hf, hpc ▸ hf.atPc⟩

theorem Inv.receive (h : s.Inv) (hrecv : s.pipeline.receive = some p) :
    Inv { s with pipeline := p } := by
  unfold StreamPipeline.receive at hrecv
  split at hrecv
  · cases hrecv
  next event channel hchn =>
  obtain ⟨_, hstep, rfl⟩ := map_eq_some_iff.mp hrecv
  simp only [SinkWorker.step] at hstep
  split_ifs at hstep with hpc
  cases hstep
  obtain ⟨cs, ps, ws, hs, qs, hd, hf, htxn, rfl⟩ := h.flowingAt hpc rfl
  have hfs := hf.channel
  rw [hchn] at hfs
  obtain ⟨hev, hcl⟩ := forall_mem_cons.mp (hchn ▸ hf.clean)
  cases event with
  | data e =>
    have hsplit : hs.map FlushedMem.event = (fileOf e).toList ++ channel.filterMap sentFile := by
      rw [← hfs, filterMap_cons, sentFile]
      cases fileOf e <;> rfl
    obtain ⟨ws, hs', rfl, hws, hhs⟩ := map_eq_append_iff.mp hsplit
    refine ⟨{ h.lsns with }, ⟨cs, _, hd.files, hd.committed, hd.acked, fun _ ↦ ?_⟩, h.progress⟩
    refine ⟨ps, ws, hs', qs, by simp, ?_⟩
    exact
      { hf with
        atPc := ⟨htxn, hev, hws⟩
        channel := hhs.symm
        clean := hcl }
  | barrier =>
    refine ⟨{ h.lsns with }, ⟨cs, _, hd.files, hd.committed, hd.acked, fun _ ↦ ?_⟩, h.progress⟩
    exact ⟨ps, [], hs, qs, rfl, { hf with
        atPc := ⟨htxn, rfl, hev⟩
        channel := hfs
        clean := hcl }⟩
  | stale =>
    refine ⟨{ h.lsns with }, ⟨cs, _, hd.files, hd.committed, hd.acked, fun _ ↦ ?_⟩, h.progress⟩
    exact ⟨ps, [], hs, qs, rfl, { hf with channel := hfs, clean := hcl }⟩
  | degrade => exact hev.elim

/-- A call of the sink returns: the worker goes on with the answer. -/
theorem step_returns {res : SinkResult} {st : ParquetDirStaging} {w : SinkWorker}
    (hans : s.staging.answer s.pipeline.worker.pc = (res, st))
    (hret : s.pipeline.worker.onReturn res = some w) (hstep : s.step .returns = some s') :
    s' = s.settle st { s.pipeline with worker := w } := by
  have hs : s.step .returns = some (s.settle st { s.pipeline with worker := w }) := by
    rw [step, hans, StreamPipeline.stepWorker, SinkWorker.step, hret]
    · rfl
    · rintro _ ⟨⟩
  exact (some.inj (hs.symm.trans hstep)).symm

theorem Inv.opened (h : s.Inv) (hpc : s.pipeline.worker.pc = .opening)
    (hstep : s.step .returns = some s') : s'.Inv := by
  obtain ⟨cs, _, _, hs, qs, hd, hf, htxn, rfl, rfl⟩ := h.flowingAt hpc rfl
  have hans : s.staging.answer s.pipeline.worker.pc =
      (.ok (), { s.staging with inTransaction := true, pendingTmps := [] }) := by
    rw [hpc]
    exact if_neg (by rw [htxn]; exact Bool.noConfusion)
  obtain rfl := step_returns hans (SinkWorker.onReturn_opening hpc) hstep
  refine ⟨{ h.lsns with }, ⟨cs, _, hd.files, hd.committed, hd.acked, fun _ ↦ ?_⟩, h.progress⟩
  exact ⟨[], [], hs, qs, rfl, { hf with pending := rfl, atPc := ⟨rfl, rfl⟩ }⟩

theorem Inv.written {event : DataEvent} (h : s.Inv) (hpc : s.pipeline.worker.pc = .writing event)
    (hstep : s.step .returns = some s') : s'.Inv := by
  obtain ⟨cs, ps, _, hs, qs, hd, hf, htxn, hev, hws⟩ := h.flowingAt hpc rfl
  have hopen : ¬ s.staging.inTransaction = false := by
    rw [htxn]
    exact Bool.noConfusion
  cases event with
  | watermark => cases hev
  | insert =>
    obtain rfl := map_eq_nil_iff.mp hws
    have hans : s.staging.answer s.pipeline.worker.pc = (.ok (), s.staging) := by
      rw [hpc]
      exact if_neg hopen
    obtain rfl := step_returns hans (SinkWorker.onReturn_writing hpc) hstep
    refine ⟨{ h.lsns with }, ⟨cs, _, hd.files, hd.committed, hd.acked, fun _ ↦ ?_⟩, h.progress⟩
    exact ⟨ps, [], hs, qs, rfl, { hf with atPc := ⟨htxn, rfl⟩ }⟩
  | flushFile lsn filePath rows =>
    obtain ⟨f, _, rfl, hfev, hnil⟩ := map_eq_cons_iff.mp hws
    obtain rfl := map_eq_nil_iff.mp hnil
    have hans : s.staging.answer s.pipeline.worker.pc = (.ok (),
        { s.staging with pendingTmps := s.staging.pendingTmps ++ [(filePath, rows)] }) := by
      rw [hpc]
      exact if_neg hopen
    obtain rfl := step_returns hans (SinkWorker.onReturn_writing hpc) hstep
    refine ⟨{ h.lsns with }, ⟨cs, _, hd.files, hd.committed, hd.acked, fun _ ↦ ?_⟩, h.progress⟩
    refine ⟨ps ++ [f], [], hs, qs, by simp, ?_⟩
    refine { hf with pending := ?_, atPc := ⟨htxn, rfl⟩, replay := ?_ }
    · obtain ⟨-, rfl, rfl⟩ := DataEvent.flushFile.inj hfev
      show s.staging.pendingTmps ++ _ = _
      rw [hf.pending, map_append]
      rfl
    · -- The replay buffer keeps the file, unless it is acknowledged already.
      rw [map_append, map_singleton, hfev]
      have hold : ∀ e ∈ s.pipeline.worker.buffer.flushFiles,
          e ∈ ps.map FlushedMem.event ++ [.flushFile lsn filePath rows] :=
        fun e he ↦ mem_append_left _ (hf.replay e he)
      show ∀ e ∈ (if s.pipeline.worker.ackedLsn < lsn.maxLsn then
        s.pipeline.worker.buffer.flushFiles ++ [.flushFile lsn filePath rows]
        else s.pipeline.worker.buffer.flushFiles), _
      split_ifs
      · exact forall_mem_append.mpr ⟨hold,
          forall_mem_singleton.mpr (mem_append_right _ mem_cons_self)⟩
      · exact hold

/-- What a commit acknowledges is the end of a file of its transaction, if it acknowledges. -/
theorem acked_afterCommit {w : SinkWorker} (hb : b.watermarkLsn = 0)
    (hps : ∀ e ∈ w.buffer.flushFiles, e ∈ ps.map FlushedMem.event)
    (hend : ∀ f ∈ ps, f.event.maxLsn = memEnd f.2) :
    (w.afterCommit b).ackedLsn = w.ackedLsn ∨
      ∃ c ∈ ps, (w.afterCommit b).ackedLsn = memEnd c.2 := by
  rw [SinkWorker.ackedLsn_afterCommit]
  rcases w.progressAfterCommit_cases b with hp | ⟨_, hp, -, ⟨hmark, hpos⟩ | ⟨e, he, rfl⟩⟩
  · exact .inl (by rw [hp]; rfl)
  · exact absurd (hmark.trans hb) hpos.ne'
  · obtain ⟨f, hf, rfl⟩ := List.mem_map.mp (hps e he)
    exact .inr ⟨f, hf, by rw [hp]; exact hend f hf⟩

theorem Inv.committed (h : s.Inv) (hpc : s.pipeline.worker.pc = .committing b)
    (hstep : s.step .returns = some s') : s'.Inv := by
  obtain ⟨cs, ps, _, hs, qs, hd, hf, htxn, rfl, hb⟩ := h.flowingAt hpc rfl
  have hans : s.staging.answer s.pipeline.worker.pc =
      (.ok (), ⟨false, [], s.staging.committed ++ s.staging.pendingTmps⟩) := by
    rw [hpc]
    exact if_neg (by rw [htxn]; exact Bool.noConfusion)
  obtain rfl := step_returns hans (SinkWorker.onReturn_committing hpc) hstep
  have hfs : s.files = (cs ++ ps) ++ (hs ++ qs) := by rw [hd.files]; simp
  have hend : ∀ f ∈ ps, f.event.maxLsn = memEnd f.2 := fun f hfp ↦ by
    refine (h.lsns.lsn_event ?_).2
    rw [hfs]
    exact mem_append_left _ (mem_append_right _ hfp)
  refine ⟨{ h.lsns with }, ⟨cs ++ ps, hs ++ qs, hfs, ?_, ?_, fun _ ↦ ?_⟩, fun c hc ↦ ?_⟩
  · show s.staging.committed ++ s.staging.pendingTmps = _
    rw [hd.committed, hf.pending, map_append]
  · rcases acked_afterCommit hb hf.replay hend with hack | ⟨c, hc, hack⟩
    · refine hd.acked.imp hack.trans fun ⟨c, hc, heq⟩ ↦ ?_
      exact ⟨c, mem_append_left _ hc, hack.trans heq⟩
    · exact .inr ⟨c, mem_append_right _ hc, hack⟩
  · refine ⟨[], [], hs, qs, rfl, { hf with pending := rfl, atPc := ⟨rfl, rfl, rfl⟩, replay := ?_ }⟩
    exact forall_mem_nil _
  · rcases SinkWorker.mem_progress_afterCommit _ _ hc with hc | hc
    · exact (h.progress c hc).trans (SinkWorker.ackedLsn_le_afterCommit _ _)
    · exact hc.le

theorem Inv.stopped {result : Result Unit} (h : s.Inv) :
    (s.settle s.staging { s.pipeline with
      worker := s.pipeline.worker.gracefulTeardown result }).Inv := by
  obtain ⟨cs, rest, hd⟩ := h.delivered
  have hcomm : s.staging.abortTxn.committed = s.staging.committed := by
    unfold ParquetDirStaging.abortTxn
    split_ifs <;> rfl
  refine ⟨{ h.lsns with }, ⟨cs, rest, hd.files, hcomm.trans hd.committed, hd.acked, ?_⟩, h.progress⟩
  exact fun hrun ↦ Bool.noConfusion hrun

theorem Inv.setPc {pc : WorkerPc} (h : s.Inv) (hrun : s.pipeline.worker.pc.isStopped = false)
    (hpc : pc.isStopped = false)
    (hat : ∀ ps ws, AtPc s.staging ps ws s.pipeline.worker.pc → AtPc s.staging ps ws pc) :
    (s.settle s.staging { s.pipeline with worker := { s.pipeline.worker with pc := pc } }).Inv := by
  obtain ⟨cs, rest, hd⟩ := h.delivered
  obtain ⟨ps, ws, hs, qs, hrest, hf⟩ := hd.flowing hrun
  have hset : s.settle s.staging
      { s.pipeline with worker := { s.pipeline.worker with pc := pc } } =
      { s with pipeline := { s.pipeline with worker := { s.pipeline.worker with pc := pc } } } := by
    rw [settle, if_neg (by rw [hpc]; exact Bool.noConfusion)]
  rw [hset]
  refine ⟨{ h.lsns with }, ⟨cs, rest, hd.files, hd.committed, hd.acked, fun _ ↦ ?_⟩, h.progress⟩
  exact ⟨ps, ws, hs, qs, hrest, { hf with atPc := hat ps ws hf.atPc }⟩

/-- **One step keeps the invariant**, if files come first. -/
theorem Inv.step {a : HybridAction} (h : s.Inv) (hsafe : s.FilesFirst a)
    (hstep : s.step a = some s') : s'.Inv := by
  cases a with
  | insert =>
    simp only [Hybrid.step] at hstep
    split_ifs at hstep with hlt
    cases hstep
    exact h.insert hlt
  | memtableEnd =>
    simp only [Hybrid.step] at hstep
    split_ifs at hstep with hne
    cases hstep
    exact h.memtableEnd hne hsafe
  | flush index =>
    obtain rfl : index = 0 := hsafe
    cases hended : s.ended with
    | nil => simp only [Hybrid.step, hended, getElem?_nil, reduceCtorEq] at hstep
    | cons =>
      simp only [Hybrid.step, hended, getElem?_cons_zero, eraseIdx_cons_zero] at hstep
      split_ifs at hstep
      cases hstep
      exact h.flush hended
  | pop =>
    simp only [Hybrid.step] at hstep
    split_ifs at hstep with hrun
    obtain ⟨p, hp, rfl⟩ := map_eq_some_iff.mp hstep
    exact h.pop hsafe (Bool.not_eq_true _ ▸ hrun) hp
  | receive =>
    obtain ⟨p, hp, rfl⟩ := map_eq_some_iff.mp hstep
    exact h.receive hp
  | returns =>
    cases hpc : s.pipeline.worker.pc with
    | opening => exact h.opened hpc hstep
    | writing => exact h.written hpc hstep
    | committing => exact h.committed hpc hstep
    | sinking | paused | stopped =>
      simp only [Hybrid.step, StreamPipeline.stepWorker, SinkWorker.step, SinkWorker.onReturn, hpc,
        map_none, reduceCtorEq] at hstep
    | recovering | replaying =>
      -- Without failures there is nothing to recover from.
      obtain ⟨_, _, _, _, _, -, -, hat⟩ := h.flowingAt hpc rfl
      exact hat.elim
  | control | ping | cancel =>
    obtain ⟨_, hp, rfl⟩ := map_eq_some_iff.mp hstep
    obtain ⟨_, hw, rfl⟩ := map_eq_some_iff.mp hp
    cases SinkWorker.moves_of_step hw with
    | stay hrun => exact h.setPc hrun hrun fun _ _ hat ↦ hat
    | turn hpc hpc' =>
      rcases hpc with hpc | hpc <;> rcases hpc' with rfl | rfl <;>
        exact h.setPc (by rw [hpc]; rfl) rfl fun _ _ hat ↦ by rwa [hpc] at hat
    | finish => exact h.stopped
    | fail _ _ ha => rcases ha with ha | ⟨ha, -⟩ <;> cases ha

theorem inv_initial (stream table : String) : (initial stream table).Inv where
  lsns := ⟨List.Pairwise.nil, forall_mem_nil _, forall_mem_nil _⟩
  delivered := by
    refine ⟨[], [], rfl, rfl, .inl rfl, fun _ ↦ ⟨[], [], [], [], rfl, ?_⟩⟩
    constructor
    · rfl
    · exact ⟨rfl, rfl, rfl⟩
    · rfl
    · exact forall_mem_nil _
    · rfl
    · rfl
    · exact forall_mem_nil _
    · exact forall_mem_nil _
    · exact forall_mem_nil _
    · rfl
  progress := forall_mem_nil _

/-- **What is acknowledged is in the directory.** In every run in which files are captured in the
order of their memtables and the cursor reaches the end of no memtable before its file is taken,
every captured row up to the last acknowledged LSN is in a file committed to the directory. -/
theorem acked_rows_in_directory (stream table : String)
    (h : Reaches (guarded FilesFirst Hybrid.step) (initial stream table) s) :
    ∀ c ∈ s.pipeline.worker.progress.getLast?, ∀ n ∈ s.captured, n ≤ c.lsn →
      ∃ f ∈ s.files, f.label ∈ s.staging.committed ∧ n ∈ f.2 := by
  have hinv : s.Inv :=
    h.invariant_guarded (I := Inv) (inv_initial stream table) fun _ _ _ hs ↦ hs.step
  intro c hc n hn hle
  obtain ⟨cs, rest, hd⟩ := hinv.delivered
  have hack := hle.trans (hinv.progress c (mem_of_mem_getLast? hc))
  have hpos := (hinv.lsns.bounded n hn).1
  rcases hd.acked with hzero | ⟨last, hlast, heq⟩
  · exact absurd (hzero ▸ hack) hpos.not_ge
  -- The rows behind the committed files are behind the acknowledged LSN.
  have hsplit : s.captured = (cs.map Prod.snd).flatten ++
      ((rest.map Prod.snd ++ s.ended).flatten ++ s.current) := by
    rw [captured, mems, hd.files]
    simp
  have hlastMem : last.2 ∈ s.mems := by
    rw [mems, hd.files, map_append]
    exact mem_append_left _ (mem_append_left _ (List.mem_map_of_mem hlast))
  rw [hsplit] at hn
  rcases mem_append.mp hn with hn | hn
  · obtain ⟨_, hrows, hnrows⟩ := mem_flatten.mp hn
    obtain ⟨f, hf, rfl⟩ := List.mem_map.mp hrows
    refine ⟨f, ?_, ?_, hnrows⟩
    · rw [hd.files]
      exact mem_append_left _ hf
    · rw [hd.committed]
      exact List.mem_map_of_mem hf
  · have hinc := hinv.lsns.increasing
    rw [hsplit] at hinc
    have hend : memEnd last.2 ∈ (cs.map Prod.snd).flatten :=
      mem_flatten.mpr ⟨last.2, List.mem_map_of_mem hlast,
        memEnd_mem (hinv.lsns.nonempty _ hlastMem)⟩
    have hlt := (pairwise_append.mp hinc).2.2 _ hend n hn
    exact absurd (heq ▸ hack) hlt.not_ge

/-- The first row is taken from the log, the second one is captured, and the memtable's file comes:
both rows are in the directory. -/
theorem acked_rows_in_directory_of_file :
    ∃ s, Reaches (guarded FilesFirst Hybrid.step) (initial "s" "t") s ∧
      s.captured = [1, 2] ∧ s.pipeline.worker.progress = [⟨"s", "t", 2, 1⟩] ∧
      ∀ n ∈ s.captured, ∃ f ∈ s.files, f.label ∈ s.staging.committed ∧ n ∈ f.2 := by
  refine exists_reaches_of [.returns, .insert 1 .resident, .pop, .receive, .returns,
    .insert 2 .resident, .memtableEnd, .flush 0 "f", .pop, .receive, .returns, .receive, .returns]
    (p := fun s ↦ s.captured = [1, 2] ∧ s.pipeline.worker.progress = [⟨"s", "t", 2, 1⟩])
    (by decide +kernel) fun s hrch ⟨hcap, hprog⟩ ↦ ?_
  refine ⟨hcap, hprog, fun n hn ↦ ?_⟩
  refine acked_rows_in_directory "s" "t" hrch ⟨"s", "t", 2, 1⟩ ?_ n hn ?_
  · rw [hprog]
    rfl
  · rw [hcap] at hn
    rcases mem_pair.mp hn with rfl | rfl <;> decide

/-- The row and the watermark are taken before the file comes: LSN 1 is acknowledged, the file is
degraded, and with nothing left to take the directory is empty. -/
theorem acked_row_not_in_directory :
    ∃ s, Reaches Hybrid.step (initial "s" "t") s ∧
      s.pipeline.worker.progress = [⟨"s", "t", 1, 0⟩] ∧ s.captured = [1] ∧
      s.staging.committed = [] ∧ s.pipeline.buffer.popNext = none ∧ s.pipeline.channel = [] := by
  exact exists_reaches [.returns, .insert 1 .resident, .memtableEnd, .pop, .pop, .receive, .returns,
    .receive, .returns, .returns, .flush 0 "f", .pop, .receive, .receive, .returns]
    (by decide +kernel)

end Hybrid

end MonoTS
