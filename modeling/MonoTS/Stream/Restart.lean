import MonoTS.Stream.Dispatcher

/-!
# A pipeline that is started again

When an attempt of a pipeline ends with an error, the supervisor starts the next one on the same
capture buffer, with the acknowledged LSN as its cursor. What the attempt had taken from the buffer
and not committed is gone: it was in the channel, in the open transaction or in the replay buffer of
the worker, and nothing is put back. The rows come back only if a file that covers them is captured
later.

`lost` are the events that ended attempts had taken and not committed, and that no commit has
delivered since. In runs in which no event past a lost one is taken, except a file that covers it,
nothing past a lost event is acknowledged. The argument follows what the next commits can
acknowledge: the `trail` of LSNs in the replay buffer, the call that is waited for and the channel.
For a lost event either the whole trail stays at or below it, or the part before a file that covers
it does, or that file is in the transaction already.
-/

open Transition List Option

namespace MonoTS

open CheckpointBarrier StreamPipeline

/-! ## Events that stand for others -/

def DataEvent.isFile : DataEvent → Bool
  | .flushFile _ _ _ => true
  | _ => false

/-- A file that holds the range of the other event. -/
def DataEvent.covers (f e : DataEvent) : Bool :=
  f.isFile && CaptureBuffer.isFullyCovered e.lsn f.lsn

open DataEvent

/-- The commit of this transaction at this barrier delivers the event: as itself, or by a file. A
watermark is delivered as the barrier it made. -/
def delivers (b : CheckpointBarrier) (txn : List DataEvent) (e : DataEvent) : Bool :=
  e = .watermark b.watermarkLsn || txn.any fun x ↦ x = e || x.covers e

def WorkerPc.writesFile : WorkerPc → Bool
  | .writing event => event.isFile
  | _ => false

def PipelineEvent.isBarrier : PipelineEvent → Bool
  | .barrier _ => true
  | _ => false

/-! ## The supervisor -/

/-- A pipeline under its supervisor. -/
structure Supervised where
  /-- The pipeline of the present attempt. -/
  pipeline : StreamPipeline
  /-- What the present attempt has taken from the buffer, for each barrier that is not committed. -/
  batches : List (List DataEvent)
  /-- What it has taken since the last barrier. -/
  unsealed : List DataEvent
  /-- What ended attempts had taken and not committed, as long as it is not delivered. -/
  lost : List DataEvent

/-- A step of the pipeline, or a restart. -/
inductive SupervisorAction where
  | insert (lsn : LsnRange) (arrow : InsertArrow)
  | watermark (endLsn : ℕ)
  | flush (lsn : LsnRange) (filePath : String) (rows : ℕ)
  | compact (lsn : LsnRange) (filePath : String) (rows : ℕ)
  | pop
  | receive
  | worker (a : WorkerAction)
  /-- The supervisor starts the next attempt. -/
  | restart

namespace Supervised

def initial (stream table : String) (ackedLsn : ℕ) (buffer : CaptureBuffer) : Supervised where
  pipeline := .new stream table ackedLsn buffer
  batches := []
  unsealed := []
  lost := []

variable (s : Supervised)

def capture (f : CaptureBuffer → CaptureBuffer) : Supervised :=
  { s with pipeline := { s.pipeline with buffer := f s.pipeline.buffer } }

/-- The event belongs to the next barrier, which may be the one that it closes. -/
def taken (e : DataEvent) (p : StreamPipeline) : Supervised :=
  if (s.pipeline.dispatcher.dispatch e).2.any PipelineEvent.isBarrier then
    { s with
      pipeline := p
      batches := s.batches ++ [s.unsealed ++ [e]]
      unsealed := [] }
  else { s with pipeline := p, unsealed := s.unsealed ++ [e] }

/-- A commit settles what belongs to its barrier, and delivers what is in the transaction. -/
def settled (a : WorkerAction) (p : StreamPipeline) : Supervised :=
  match s.pipeline.worker.pc, a with
  | .committing b, .returns (.ok ()) =>
    { s with
      pipeline := p
      batches := s.batches.tail
      lost := s.lost.filter fun e ↦
        !delivers b (s.pipeline.worker.connector.openTxn.getD []) e }
  | _, _ => { s with pipeline := p }

/-- The next attempt has the same buffer, and the acknowledged LSN as its cursor. -/
def restarted : Supervised where
  pipeline := .new s.pipeline.worker.stream s.pipeline.worker.table s.pipeline.worker.ackedLsn
    s.pipeline.buffer
  batches := []
  unsealed := []
  lost := s.lost ++ s.batches.flatten ++ s.unsealed

def step : SupervisorAction → Option Supervised
  | .insert lsn arrow => some (s.capture fun b ↦ b.pushInsert (.insert lsn arrow))
  | .watermark endLsn => some (s.capture fun b ↦ b.pushWatermark (.watermark endLsn))
  | .flush lsn filePath rows =>
    some (s.capture fun b ↦ (b.pushFlush (.flushFile lsn filePath rows)).1)
  | .compact lsn filePath rows =>
    some (s.capture fun b ↦ (b.pushCompact (.flushFile lsn filePath rows)).1)
  | .pop => s.pipeline.buffer.popNext.bind fun next ↦ s.pipeline.pop.map (s.taken next.1)
  | .receive => s.pipeline.receive.map fun p ↦ { s with pipeline := p }
  | .worker a => (s.pipeline.stepWorker a).map (s.settled a)
  | .restart => match s.pipeline.worker.pc with
    | .stopped (.error _) => some s.restarted
    | _ => none

/-- The event is taken without a risk for a lost one: it is not past it, or it is a file that holds
it and that the dispatcher will send. -/
def SafeFor (cursor : ℕ) (next e : DataEvent) : Prop :=
  next.maxLsn ≤ e.maxLsn ∨ next.covers e ∧ cursor < next.maxLsn

instance (cursor : ℕ) (next e : DataEvent) : Decidable (SafeFor cursor next e) :=
  inferInstanceAs (Decidable (_ ∨ _))

/-- Nothing past a lost event is taken, except a file that holds it, and no write of a file fails
transiently. -/
def LostFirst : SupervisorAction → Prop
  | .pop => ∀ next ∈ s.pipeline.buffer.popNext,
    ∀ e ∈ s.lost, SafeFor s.pipeline.dispatcher.cursor next.1 e
  | .worker (.returns (.error (.transient _))) => s.pipeline.worker.pc.writesFile = false
  | _ => True

instance (a : SupervisorAction) : Decidable (s.LostFirst a) := by
  unfold LostFirst
  split <;> infer_instance

end Supervised

/-! ## The trail -/

/-- What a commit to come can acknowledge: the LSN of a file that is yet to be written, or one that
the next commit counts. -/
inductive Mark where
  | file (f : DataEvent)
  | count (lsn : ℕ)

def Mark.lsn : Mark → ℕ
  | .file f => f.maxLsn
  | .count lsn => lsn

def DataEvent.marks (e : DataEvent) : List Mark := if e.isFile then [.file e] else []

def PipelineEvent.marks : PipelineEvent → List Mark
  | .data e => e.marks
  | .barrier b => [.count b.watermarkLsn]
  | .stale _ _ => []
  | .degrade _ e => if e.isFile then [.count e.maxLsn] else []

def Continuation.marks : Continuation → List Mark
  | .commit b => [.count b.watermarkLsn]
  | _ => []

def WorkerPc.marks : WorkerPc → List Mark
  | .writing e => e.marks
  | .committing b => [.count b.watermarkLsn]
  | .recovering k | .replaying _ _ k => k.marks
  | _ => []

def TxnReplayBuffer.marks (b : TxnReplayBuffer) : List Mark :=
  (b.flushFiles.map maxLsn).map .count

def StreamPipeline.trail (p : StreamPipeline) : List Mark :=
  p.worker.buffer.marks ++ p.worker.pc.marks ++ p.channel.flatMap PipelineEvent.marks

/-- The next acknowledgements do not go past the event, at least until a file that holds it is
written. That file is not acknowledged before, so that the replay buffer will keep it. -/
def Ahead (acked : ℕ) (e : DataEvent) (trail : List Mark) : Prop :=
  (∀ m ∈ trail, m.lsn ≤ e.maxLsn) ∨
    ∃ pre f post, trail = pre ++ .file f :: post ∧ f.covers e ∧ acked < f.maxLsn ∧
      ∀ m ∈ pre, m.lsn ≤ e.maxLsn ∧ m.lsn < f.maxLsn

namespace Ahead

variable {acked : ℕ} {e f : DataEvent} {trail marks : List Mark}

theorem nil : Ahead acked e [] := .inl fun _ hm ↦ absurd hm not_mem_nil

theorem append (h : Ahead acked e trail) (hmark : ∀ m ∈ marks, m.lsn ≤ e.maxLsn) :
    Ahead acked e (trail ++ marks) := by
  rcases h with hall | ⟨pre, f, post, rfl, hrest⟩
  · refine .inl fun m hm ↦ ?_
    exact (mem_append.mp hm).elim (hall m) (hmark m)
  · exact .inr ⟨pre, f, post ++ marks, append_assoc _ _ _, hrest⟩

theorem append_file (h : Ahead acked e trail) (hcov : f.covers e) (hack : acked < f.maxLsn)
    (hlt : ∀ m ∈ trail, m.lsn < f.maxLsn) : Ahead acked e (trail ++ .file f :: marks) := by
  rcases h with hall | ⟨pre, f', post, rfl, hrest⟩
  · exact .inr ⟨trail, f, marks, rfl, hcov, hack, fun m hm ↦ ⟨hall m hm, hlt m hm⟩⟩
  · exact .inr ⟨pre, f', post ++ .file f :: marks, append_assoc _ _ _, hrest⟩

variable {counts : List ℕ}

/-- The first file of a trail that starts with counts is behind them. -/
theorem split_counts {pre post : List Mark}
    (h : counts.map .count ++ trail = pre ++ .file f :: post) :
    ∃ pre', pre = counts.map .count ++ pre' ∧ trail = pre' ++ .file f :: post := by
  induction counts generalizing pre with
  | nil => exact ⟨pre, rfl, h⟩
  | cons n counts ih =>
    cases pre with
    | nil => cases (List.cons.inj h).1
    | cons =>
      obtain ⟨rfl, htail⟩ := List.cons.inj h
      obtain ⟨pre', rfl, htrail⟩ := ih htail
      exact ⟨pre', rfl, htrail⟩

/-- The counts in front are not past the event, and can be acknowledged. -/
theorem behind_counts (h : Ahead acked e (counts.map .count ++ trail)) :
    (∀ n ∈ counts, n ≤ e.maxLsn) ∧
      ∀ acked', (acked' = acked ∨ acked' ∈ counts) → Ahead acked' e trail := by
  have hmem : ∀ {n rest}, n ∈ counts → Mark.count n ∈ counts.map Mark.count ++ rest :=
    fun hn ↦ mem_append_left _ (List.mem_map_of_mem hn)
  rcases h with hall | ⟨_, f, post, heq, hcov, hack, hpre⟩
  · exact ⟨fun n hn ↦ hall (.count n) (hmem hn),
      fun _ _ ↦ .inl fun m hm ↦ hall m (mem_append_right _ hm)⟩
  · obtain ⟨pre', rfl, rfl⟩ := split_counts heq
    refine ⟨fun n hn ↦ (hpre (.count n) (hmem hn)).1, fun acked' hack' ↦ ?_⟩
    refine .inr ⟨pre', f, post, rfl, hcov, ?_, fun m hm ↦ hpre m (mem_append_right _ hm)⟩
    rcases hack' with rfl | hn
    · exact hack
    · exact (hpre (.count acked') (hmem hn)).2

theorem forall_kept {q : ℕ → Prop} {before kept after : List Mark}
    (hkept : ∀ m ∈ kept, m.lsn = f.maxLsn) (h : ∀ m ∈ before ++ .file f :: after, q m.lsn) :
    ∀ m ∈ before ++ (kept ++ after), q m.lsn := by
  intro m hm
  rcases mem_append.mp hm with hm | hm
  · exact h m (mem_append_left _ hm)
  rcases mem_append.mp hm with hm | hm
  · rw [hkept m hm]
    exact h (.file f) (mem_append_right _ mem_cons_self)
  · exact h m (mem_append_right _ (mem_cons_of_mem _ hm))

/-- The first file of the trail is written, and leaves its LSN to count, or nothing. -/
theorem written {kept : List Mark} (h : Ahead acked e (counts.map .count ++ .file f :: trail))
    (hkept : ∀ m ∈ kept, m.lsn = f.maxLsn) :
    (f.covers e ∧ acked < f.maxLsn) ∨ Ahead acked e (counts.map .count ++ (kept ++ trail)) := by
  rcases h with hall | ⟨_, f', post, heq, hcov, hack, hpre⟩
  · exact .inr (.inl (forall_kept (q := (· ≤ e.maxLsn)) hkept hall))
  · obtain ⟨pre', rfl, htrail⟩ := split_counts heq
    cases pre' with
    | nil =>
      -- this is the file that holds the event
      obtain ⟨hf, -⟩ := List.cons.inj htrail
      obtain rfl := Mark.file.inj hf
      exact .inl ⟨hcov, hack⟩
    | cons m pre' =>
      obtain ⟨rfl, rfl⟩ := List.cons.inj htrail
      refine .inr (.inr ⟨counts.map .count ++ (kept ++ pre'), f', post, ?_, hcov, hack, ?_⟩)
      · rw [append_assoc, append_assoc]
        rfl
      · exact forall_kept (q := fun lsn ↦ lsn ≤ e.maxLsn ∧ lsn < f'.maxLsn) hkept hpre

end Ahead

/-! ## Steps of the worker -/

/-- An event that is recorded after a recovery is not a file. -/
def Continuation.plain : Continuation → Bool
  | .record e => !e.isFile
  | _ => true

def WorkerPc.plain : WorkerPc → Bool
  | .recovering k | .replaying _ _ k => k.plain
  | _ => true

/-- The worker is here between the beginning and the end of a transaction. -/
def WorkerPc.inTxn : WorkerPc → Bool
  | .sinking | .paused | .writing _ | .committing _ | .replaying _ _ _ => true
  | .opening | .recovering _ | .stopped _ => false

/-- A file that is recorded is kept if it is not acknowledged. -/
theorem TxnReplayBuffer.record_file (b : TxnReplayBuffer) (acked : ℕ) {f : DataEvent}
    (hf : f.isFile) : ∃ kept : List DataEvent, (∀ x ∈ kept, x = f) ∧
      (acked < f.maxLsn → f ∈ kept) ∧ (b.record f acked).flushFiles = b.flushFiles ++ kept := by
  cases f with
  | insert | watermark => cases hf
  | flushFile lsn =>
    by_cases hlt : acked < lsn.maxLsn
    · exact ⟨[_], fun _ hx ↦ mem_singleton.mp hx, fun _ ↦ mem_cons_self, if_pos hlt⟩
    · exact ⟨[], fun _ hx ↦ absurd hx not_mem_nil, fun h ↦ absurd h hlt,
        (if_neg hlt).trans (append_nil _).symm⟩

namespace SinkWorker

/-- A commit acknowledges the watermark of its barrier or a file of the replay buffer. -/
theorem mem_of_progressAfterCommit {w : SinkWorker} {b : CheckpointBarrier} {lsn : ℕ}
    (h : w.progressAfterCommit b = some lsn) :
    lsn ∈ w.buffer.flushFiles.map maxLsn ++ [b.watermarkLsn] := by
  rcases w.progressAfterCommit_cases b with hnone | ⟨_, hsome, -, hmark⟩
  · cases hnone.symm.trans h
  · obtain rfl := some.inj (hsome.symm.trans h)
    rcases hmark with ⟨hmark, -⟩ | ⟨_, hf, rfl⟩
    · exact mem_append_right _ (mem_singleton.mpr hmark)
    · exact mem_append_left _ (List.mem_map_of_mem hf)

def Opened (w : SinkWorker) : Prop := w.pc.inTxn → w.connector.openTxn.isSome

/-- The file is in the open transaction, or will be after the recovery. -/
def Holds (w : SinkWorker) (f : DataEvent) : Prop :=
  match w.pc with
  | .sinking | .paused | .writing _ | .committing _ =>
    ∃ txn, w.connector.openTxn = some txn ∧ f ∈ txn
  | .recovering _ => True
  | .replaying event rest _ => ∃ txn, w.connector.openTxn = some txn ∧ f ∈ txn ++ event :: rest
  | .opening | .stopped _ => False

/-- What the step leaves alone when it neither writes a file nor commits. -/
structure Keeps (w w' : SinkWorker) : Prop where
  acked : w'.ackedLsn = w.ackedLsn
  progress : w'.progress = w.progress
  files : w'.buffer.flushFiles = w.buffer.flushFiles
  marks : w'.pc.marks = w.pc.marks
  plain : w'.pc.plain
  opened : w.Opened → w'.Opened
  holds : ∀ f ∈ w.buffer.flushFiles, w.Holds f → w'.Holds f

/-- The worker has ended, and has said nothing more. -/
def Ended (w w' : SinkWorker) : Prop := w'.pc.isStopped ∧ w'.progress = w.progress

variable {w w' : SinkWorker} {a : WorkerAction} {k : Continuation} {c : SinkConnector}

theorem keeps_recovering (hmark : k.marks = w.pc.marks) (hpl : k.plain) :
    w.Keeps { w with connector := c, pc := .recovering k } :=
  ⟨rfl, rfl, rfl, hmark, hpl, fun _ ↦ nofun, fun _ _ _ ↦ trivial⟩

/-- A call fails: the worker ends or recovers. -/
theorem recoverOrFail_cases {failure : String} {err : SinkError}
    (h : ∀ msg, err = .transient msg → k.marks = w.pc.marks ∧ k.plain) :
    w.Ended ({ w with connector := c }.recoverOrFail failure k err) ∨
      w.Keeps ({ w with connector := c }.recoverOrFail failure k err) := by
  cases err with
  | fatal => exact .inl ⟨rfl, rfl⟩
  | transient msg => exact .inr (keeps_recovering (h msg rfl).1 (h msg rfl).2)

theorem flushFiles_record {b : TxnReplayBuffer} {e : DataEvent} {acked : ℕ}
    (h : e.isFile = false) : (b.record e acked).flushFiles = b.flushFiles := by
  cases e with
  | insert | watermark => rfl
  | flushFile => cases h

/-- A replay that has come to `rest` writes what is left, and then goes on. -/
theorem keeps_replayInto {rest : List DataEvent} {w₀ : SinkWorker}
    (hw : Keeps w₀ { w with pc := .recovering k }) (hopen : w₀.Opened → w.connector.openTxn.isSome)
    (hfs : ∀ f ∈ w₀.buffer.flushFiles, w₀.Holds f →
      ∃ txn, w.connector.openTxn = some txn ∧ f ∈ txn ++ rest) :
    Keeps w₀ (w.replayInto k rest) := by
  cases rest with
  | cons => exact { hw with opened := fun h _ ↦ hopen h, holds := hfs }
  | nil =>
    simp only [append_nil] at hfs
    cases k with
    | sink | commit => exact { hw with opened := fun h _ ↦ hopen h, holds := hfs }
    | record e =>
      have he : e.isFile = false := Bool.not_eq_true' _ ▸ hw.plain
      exact
        { hw with
          files := (flushFiles_record he).trans hw.files
          plain := rfl
          opened := fun h _ ↦ hopen h
          holds := hfs }

/-- Between the loop and the pause nothing but the place changes. -/
theorem keeps_turn {pc : WorkerPc} (hpc : w.pc = .sinking ∨ w.pc = .paused)
    (hpc' : pc = .sinking ∨ pc = .paused) : w.Keeps { w with pc := pc } := by
  have hmark : pc.marks = w.pc.marks := by
    rcases hpc with hpc | hpc <;> rcases hpc' with rfl | rfl <;> rw [hpc] <;> rfl
  refine ⟨rfl, rfl, rfl, hmark, ?_, fun h _ ↦ h ?_, fun f _ hf ↦ ?_⟩
  · rcases hpc' with rfl | rfl <;> rfl
  · rcases hpc with hpc | hpc <;> rw [hpc] <;> rfl
  · rcases hpc with hpc | hpc <;> rcases hpc' with rfl | rfl <;> rwa [Holds, hpc] at hf

theorem isSome_write (e : DataEvent) (h : c.openTxn.isSome) : (c.write e).openTxn.isSome :=
  isSome_map.trans h

theorem keeps_write {e : DataEvent} (hpc : w.pc = .writing e) (he : e.isFile = false) :
    w.Keeps ({ w with connector := w.connector.write e }.record e) := by
  refine ⟨rfl, rfl, flushFiles_record he, ?_, rfl, fun h _ ↦ ?_, ?_⟩
  · rw [hpc, WorkerPc.marks, marks, he]
    rfl
  · exact isSome_write e (h (by rw [hpc]; rfl))
  · intro f _ hf
    rw [Holds, hpc] at hf
    obtain ⟨txn, htxn, hmem⟩ := hf
    exact ⟨txn ++ [e], congrArg (Option.map _) htxn, mem_append_left _ hmem⟩

theorem continuation_cases {pc : WorkerPc} (hpl : pc.plain) (hwr : pc.writesFile = false) :
    pc.continuation.marks = pc.marks ∧ pc.continuation.plain := by
  cases pc with
  | writing e =>
    have he : e.isFile = false := hwr
    rw [WorkerPc.marks, marks, WorkerPc.continuation, Continuation.plain, he]
    exact ⟨rfl, rfl⟩
  | recovering | replaying => exact ⟨rfl, hpl⟩
  | _ => exact ⟨rfl, rfl⟩

theorem running_of_step (h : w.step a = some w') : w.pc.isStopped = false := by
  cases moves_of_step h with
  | stay hrun | finish hrun | fail hrun => exact hrun
  | turn hpc => rcases hpc with hpc | hpc <;> rw [hpc] <;> rfl
  | receive hpc | begin hpc | write hpc | commit hpc | reset hpc | replay hpc => rw [hpc]; rfl

/-- A step that receives nothing and does not commit ends the worker, keeps what it holds, or
writes a file. -/
theorem step_cases (h : w.step a = some w') (hpl : w.pc.plain)
    (hwr : ∀ msg, a = .returns (.error (.transient msg)) → w.pc.writesFile = false)
    (hrecv : ∀ event, a ≠ .receive event)
    (hcom : ∀ b, w.pc = .committing b → a ≠ .returns (.ok ())) :
    (w.Ended w' ∨ w.Keeps w') ∨ ∃ f, f.isFile ∧ w.pc = .writing f ∧
      w' = { w with connector := w.connector.write f }.record f := by
  cases moves_of_step h with
  | stay => exact .inl (.inr ⟨rfl, rfl, rfl, rfl, hpl, id, fun f _ hf ↦ hf⟩)
  | turn hpc hpc' => exact .inl (.inr (keeps_turn hpc hpc'))
  | finish => exact .inl (.inl ⟨rfl, rfl⟩)
  | receive => exact absurd rfl (hrecv _)
  | commit hpc => exact absurd rfl (hcom _ hpc)
  | begin hpc =>
    refine .inl (.inr ⟨rfl, rfl, rfl, by rw [hpc]; rfl, rfl, fun _ _ ↦ rfl, fun f _ hf ↦ ?_⟩)
    rw [Holds, hpc] at hf
    exact hf.elim
  | write hpc =>
    rename_i e
    by_cases he : e.isFile
    · exact .inr ⟨e, he, hpc, rfl⟩
    · exact .inl (.inr (keeps_write hpc (Bool.not_eq_true _ ▸ he)))
  | reset hpc =>
    rw [hpc] at hpl
    refine .inl (.inr (keeps_replayInto (keeps_recovering (by rw [hpc]; rfl) hpl) (fun _ ↦ rfl) ?_))
    intro f hf _
    exact ⟨[], rfl, mem_append_right [] (mem_append_left _ hf)⟩
  | replay hpc =>
    rename_i e _ _
    rw [hpc] at hpl
    refine .inl (.inr (keeps_replayInto (keeps_recovering (by rw [hpc]; rfl) hpl) ?_ ?_))
    · exact fun h ↦ isSome_write e (h (by rw [hpc]; rfl))
    intro f _ hf
    rw [Holds, hpc] at hf
    obtain ⟨txn, htxn, _⟩ := hf
    refine ⟨txn ++ [e], congrArg (Option.map _) htxn, ?_⟩
    rwa [append_assoc]
  | fail _ hk ha =>
    subst hk
    refine .inl (recoverOrFail_cases fun msg hmsg ↦ continuation_cases hpl ?_)
    rcases ha with rfl | ⟨-, hpc⟩
    · exact hwr msg (by rw [hmsg])
    · rw [hpc]
      rfl

end SinkWorker

open SinkWorker

/-! ## What is held for a lost event -/

/-- A file that holds the event is in the open transaction. -/
def Carried (w : SinkWorker) (e : DataEvent) : Prop :=
  ∃ f ∈ w.buffer.flushFiles, f.covers e ∧ w.Holds f

/-- What holds while the worker runs. -/
structure Live (p : StreamPipeline) (lost : List DataEvent) : Prop where
  acked_le : p.worker.ackedLsn ≤ p.dispatcher.cursor
  trail_le : ∀ m ∈ p.trail, m.lsn ≤ p.dispatcher.cursor
  unmarked : p.dispatcher.barrier.watermarkLsn = 0
  plain : p.worker.pc.plain
  opened : p.worker.Opened
  held : ∀ e ∈ lost, Carried p.worker e ∨ Ahead p.worker.ackedLsn e p.trail

/-! ## Steps of the pipeline -/

theorem CheckpointBarrier.isEmpty_recordUnlink (b : CheckpointBarrier) (table filePath : String) :
    (b.recordUnlink table filePath).isEmpty = false := by
  simp [isEmpty, recordUnlink]

namespace StreamDispatcher

variable {d : StreamDispatcher} {event : DataEvent}

theorem flushBarrier_of_not_isEmpty (h : d.barrier.isEmpty = false) :
    d.flushBarrier = ({ d with barrier := .new d.table }, [.barrier d.barrier]) := by
  rw [flushBarrier, h]
  rfl

/-- What the dispatcher sends for an event can be acknowledged up to the LSN of the event and to the
cursor, and a file past the cursor is what it sends first. -/
structure Sends (d : StreamDispatcher) (event : DataEvent)
    (r : StreamDispatcher × List PipelineEvent) : Prop where
  cursor_le : d.cursor ≤ r.1.cursor
  unmarked : r.1.barrier.watermarkLsn = 0
  marks_le : ∀ m ∈ r.2.flatMap PipelineEvent.marks, m.lsn ≤ event.maxLsn ∧ m.lsn ≤ r.1.cursor
  file : event.isFile → d.cursor < event.maxLsn →
    ∃ marks, r.2.flatMap PipelineEvent.marks = .file event :: marks

theorem sends_retire {filePath : String} {sent : PipelineEvent} (hbar : d.barrier.watermarkLsn = 0)
    (hle : event.maxLsn ≤ d.cursor) (hsent : ∀ m ∈ sent.marks, m.lsn = event.maxLsn) :
    d.Sends event (d.retire filePath sent) := by
  rw [retire, flushBarrier_of_not_isEmpty (isEmpty_recordUnlink _ _ _)]
  refine ⟨le_rfl, rfl, fun m hm ↦ ?_, fun _ hlt ↦ absurd hlt hle.not_gt⟩
  rcases mem_append.mp hm with hm | hm
  · rw [hsent m hm]
    exact ⟨le_rfl, hle⟩
  · have hzero : m.lsn = 0 := by
      rw [mem_singleton.mp hm, Mark.lsn, recordUnlink, watermarkLsn_named, hbar]
    rw [hzero]
    exact ⟨Nat.zero_le _, Nat.zero_le _⟩

variable (hbar : d.barrier.watermarkLsn = 0)

include hbar

variable (event : DataEvent)

theorem sends_forward : d.Sends event (d.forward event) := by
  have hflu : ({ d with
      cursor := max d.cursor event.maxLsn
      barrier := d.barrier.recordEvent d.table event } : StreamDispatcher).flushBarrier =
      ({ d with cursor := max d.cursor event.maxLsn, barrier := .new d.table },
        [.barrier (d.barrier.recordEvent d.table event)]) :=
    flushBarrier_of_not_isEmpty (isEmpty_recordEvent _ _ _)
  have hunm : event.isWatermark = false →
      (d.barrier.recordEvent d.table event).watermarkLsn = 0 := fun h ↦
    (watermarkLsn_recordEvent _ _ _ h).trans hbar
  cases event with
  | insert =>
    exact ⟨le_max_left _ _, hunm rfl, fun _ hm ↦ absurd hm not_mem_nil, by rintro ⟨⟩⟩
  | watermark endLsn =>
    rw [forward, hflu]
    refine ⟨le_max_left _ _, rfl, fun m hm ↦ ?_, by rintro ⟨⟩⟩
    have hm' : m.lsn = endLsn := by
      rw [mem_singleton.mp hm, Mark.lsn, recordEvent]
      dsimp only
      rw [watermarkLsn_named, hbar, Nat.zero_max]
    rw [hm']
    exact ⟨le_rfl, le_max_right _ _⟩
  | flushFile =>
    rw [forward, hflu]
    refine ⟨le_max_left _ _, rfl, fun m hm ↦ ?_, fun _ _ ↦ ⟨_, rfl⟩⟩
    rcases mem_cons.mp hm with rfl | hm
    · exact ⟨le_rfl, le_max_right _ _⟩
    · rw [mem_singleton.mp hm, Mark.lsn, hunm rfl]
      exact ⟨Nat.zero_le _, Nat.zero_le _⟩

theorem sends_dispatch : d.Sends event (d.dispatch event) := by
  cases event with
  | watermark => exact sends_forward hbar _
  | insert =>
    rw [dispatch]
    split_ifs with hle
    · exact ⟨le_rfl, hbar, fun _ hm ↦ absurd hm not_mem_nil, by rintro ⟨⟩⟩
    · exact sends_forward hbar _
  | flushFile =>
    rw [dispatch]
    split_ifs with hlt heq
    · exact sends_retire hbar hlt.le fun _ hm ↦ absurd hm not_mem_nil
    · refine sends_retire hbar heq.le fun m hm ↦ ?_
      rw [mem_singleton.mp hm]
      rfl
    · exact sends_forward hbar _

end StreamDispatcher

variable {a : WorkerAction}

theorem StreamPipeline.stepWorker_eq_some {p p' : StreamPipeline}
    (h : p.stepWorker a = some p') : (∀ event, a ≠ .receive event) ∧
      ∃ w, p.worker.step a = some w ∧ { p with worker := w } = p' := by
  unfold stepWorker at h
  split at h
  · cases h
  · next hne => exact ⟨hne, map_eq_some_iff.mp h⟩

theorem Supervised.settled_of_not_commit {s : Supervised} {p : StreamPipeline}
    (h : ∀ b, s.pipeline.worker.pc = .committing b → a ≠ .returns (.ok ())) :
    s.settled a p = { s with pipeline := p } := by
  unfold settled
  split
  · next b hpc => exact absurd rfl (h b hpc)
  · rfl

namespace Live

variable {p p' : StreamPipeline} {lost : List DataEvent}

section

variable (h : Live p lost)

include h

theorem congr (hdisp : p'.dispatcher = p.dispatcher)
    (hack : p'.worker.ackedLsn = p.worker.ackedLsn) (htrail : p'.trail = p.trail)
    (hpl : p'.worker.pc.plain) (hop : p'.worker.Opened)
    (hcar : ∀ e ∈ lost, Carried p.worker e → Carried p'.worker e) : Live p' lost where
  acked_le := by
    rw [hack, hdisp]
    exact h.acked_le
  trail_le := by
    rw [htrail, hdisp]
    exact h.trail_le
  unmarked := by
    rw [hdisp]
    exact h.unmarked
  plain := hpl
  opened := hop
  held := by
    intro e he
    rw [hack, htrail]
    exact (h.held e he).imp_left (hcar e he)

theorem keeps {w : SinkWorker} (hw : p.worker.Keeps w) : Live { p with worker := w } lost := by
  refine h.congr rfl hw.acked ?_ hw.plain (hw.opened h.opened) ?_
  · simp only [trail, TxnReplayBuffer.marks, hw.files, hw.marks]
  · rintro e - ⟨f, hf, hcov, hh⟩
    exact ⟨f, hw.files ▸ hf, hcov, hw.holds f hf hh⟩

/-- The dispatcher takes an event that is safe for the lost ones. -/
theorem pop {next : DataEvent} (buffer : CaptureBuffer)
    (hsafe : ∀ e ∈ lost, Supervised.SafeFor p.dispatcher.cursor next e) :
    Live
      { p with
        buffer := buffer
        dispatcher := (p.dispatcher.dispatch next).1
        channel := p.channel ++ (p.dispatcher.dispatch next).2 } lost := by
  have hsend := StreamDispatcher.sends_dispatch h.unmarked next
  set r := p.dispatcher.dispatch next
  have htrail : trail
      { p with buffer := buffer, dispatcher := r.1, channel := p.channel ++ r.2 } =
      p.trail ++ r.2.flatMap PipelineEvent.marks := by
    rw [trail, flatMap_append, ← append_assoc]
    rfl
  refine ⟨h.acked_le.trans hsend.cursor_le, ?_, hsend.unmarked, h.plain, h.opened, ?_⟩
  · rw [htrail]
    intro m hm
    rcases mem_append.mp hm with hm | hm
    · exact (h.trail_le m hm).trans hsend.cursor_le
    · exact (hsend.marks_le m hm).2
  · rw [htrail]
    intro e he
    refine (h.held e he).imp_right fun hahead ↦ ?_
    rcases hsafe e he with hle | ⟨hcov, hlt⟩
    · exact hahead.append fun m hm ↦ (hsend.marks_le m hm).1.trans hle
    · -- the file is behind everything that was sent before, which is below the cursor
      obtain ⟨_, hmark⟩ := hsend.file (Bool.and_eq_true_iff.mp hcov).1 hlt
      rw [hmark]
      refine hahead.append_file hcov (h.acked_le.trans_lt hlt) fun m hm ↦ ?_
      exact (h.trail_le m hm).trans_lt hlt

/-- The worker receives the next event of the channel, which only moves within the trail. -/
theorem receive {event : PipelineEvent} {rest : List PipelineEvent}
    (hchn : p.channel = event :: rest) (hpc : p.worker.pc = .sinking) :
    Live { p with channel := rest, worker := p.worker.handleEvent event } lost := by
  have htrail : p.trail =
      p.worker.buffer.marks ++ (event.marks ++ rest.flatMap PipelineEvent.marks) := by
    rw [trail, hpc, hchn, flatMap_cons]
    simp [WorkerPc.marks]
  have hcar : ∀ e ∈ lost, Carried p.worker e → ∃ f ∈ p.worker.buffer.flushFiles,
      f.covers e ∧ ∃ txn, p.worker.connector.openTxn = some txn ∧ f ∈ txn := by
    rintro e - ⟨f, hf, hcov, hhold⟩
    rw [Holds, hpc] at hhold
    exact ⟨f, hf, hcov, hhold⟩
  have hop : p.worker.connector.openTxn.isSome := h.opened (by rw [hpc]; rfl)
  cases event with
  | data e | barrier b =>
    refine h.congr rfl rfl ?_ rfl (fun _ ↦ hop) hcar
    rw [htrail, trail, append_assoc]
    rfl
  | stale =>
    refine h.congr rfl rfl ?_ h.plain h.opened fun _ _ hc ↦ hc
    rw [htrail, trail, append_assoc]
    simp [handleEvent, hpc, WorkerPc.marks, PipelineEvent.marks]
  | degrade table e =>
    have hfs : (p.worker.buffer.recordDegrade e).marks =
        p.worker.buffer.marks ++ (PipelineEvent.degrade table e).marks := by
      cases e with
      | flushFile =>
        simp [TxnReplayBuffer.marks, TxnReplayBuffer.recordDegrade, PipelineEvent.marks, isFile]
      | insert | watermark => exact (append_nil _).symm
    refine h.congr rfl rfl ?_ h.plain h.opened ?_
    · rw [htrail, trail]
      simp [handleEvent, hpc, WorkerPc.marks, hfs]
    · rintro e' - ⟨f, hf, hcov, hh⟩
      refine ⟨f, ?_, hcov, hh⟩
      cases e with
      | flushFile => exact mem_append_left _ hf
      | insert | watermark => exact hf

/-- A file is written. If it is the one that a lost event waits for, the transaction has it now. -/
theorem write {f : DataEvent} (hf : f.isFile) (hpc : p.worker.pc = .writing f) :
    Live
      { p with worker := { p.worker with connector := p.worker.connector.write f }.record f }
      lost := by
  obtain ⟨txn, htxn⟩ := isSome_iff_exists.mp (h.opened (by rw [hpc]; rfl))
  have htxn' : (p.worker.connector.write f).openTxn = some (txn ++ [f]) :=
    congrArg (Option.map _) htxn
  obtain ⟨kept, hkept, hfresh, hrec⟩ :=
    TxnReplayBuffer.record_file p.worker.buffer p.worker.ackedLsn hf
  have htrail : p.trail = (p.worker.buffer.flushFiles.map maxLsn).map .count ++
      .file f :: p.channel.flatMap PipelineEvent.marks := by
    rw [trail, hpc, WorkerPc.marks, marks, if_pos hf, append_assoc]
    rfl
  set p' : StreamPipeline :=
    { p with worker := { p.worker with connector := p.worker.connector.write f }.record f }
  have htrai' : p'.trail = (p.worker.buffer.flushFiles.map maxLsn).map .count ++
      ((kept.map maxLsn).map .count ++ p.channel.flatMap PipelineEvent.marks) := by
    rw [← append_assoc, ← map_append, ← map_append, ← hrec]
    exact congrArg (· ++ _) (append_nil _)
  have hmark : ∀ m ∈ (kept.map maxLsn).map Mark.count, m.lsn = f.maxLsn := by
    simp only [List.map_map, List.mem_map]
    rintro m ⟨x, hx, rfl⟩
    rw [hkept x hx]
    rfl
  refine ⟨h.acked_le, ?_, h.unmarked, rfl, fun _ ↦ isSome_iff_exists.mpr ⟨_, htxn'⟩, ?_⟩
  · rw [htrai']
    exact Ahead.forall_kept (q := (· ≤ p.dispatcher.cursor)) hmark (htrail ▸ h.trail_le)
  · intro e he
    rw [htrai']
    rcases h.held e he with ⟨f', hf', hcov, hhold⟩ | hahead
    · rw [Holds, hpc] at hhold
      obtain ⟨_, htxn'', hmem⟩ := hhold
      obtain rfl := some.inj (htxn.symm.trans htxn'')
      exact .inl ⟨f', hrec ▸ mem_append_left _ hf', hcov, _, htxn', mem_append_left _ hmem⟩
    · rw [htrail] at hahead
      refine (hahead.written hmark).imp_left fun ⟨hcov, hlt⟩ ↦ ?_
      exact ⟨f, hrec ▸ mem_append_right _ (hfresh hlt), hcov, _, htxn',
        mem_append_right _ mem_cons_self⟩

/-- A commit: what it does not deliver is not past what it acknowledges. -/
theorem commit {b : CheckpointBarrier} (hpc : p.worker.pc = .committing b) :
    (∀ e ∈ lost, delivers b (p.worker.connector.openTxn.getD []) e = false →
        ∀ lsn ∈ p.worker.progressAfterCommit b, lsn ≤ e.maxLsn) ∧
      Live
        { p with
          worker := { p.worker with connector := p.worker.connector.commitTxn }.afterCommit b }
        (lost.filter fun e ↦ !delivers b (p.worker.connector.openTxn.getD []) e) := by
  set counts := p.worker.buffer.flushFiles.map maxLsn ++ [b.watermarkLsn] with hcnts
  have htrail : p.trail = counts.map .count ++ p.channel.flatMap PipelineEvent.marks := by
    rw [trail, hpc, hcnts, map_append]
    rfl
  -- what is not delivered is not carried either
  have hahead : ∀ e ∈ lost, delivers b (p.worker.connector.openTxn.getD []) e = false →
      Ahead p.worker.ackedLsn e (counts.map .count ++ p.channel.flatMap PipelineEvent.marks) := by
    intro e he hdel
    rw [← htrail]
    refine (h.held e he).resolve_left ?_
    rintro ⟨f, -, hcov, hhold⟩
    rw [Holds, hpc] at hhold
    obtain ⟨_, htxn, hmem⟩ := hhold
    rw [htxn, delivers, getD_some, Bool.or_eq_false_iff] at hdel
    refine absurd (List.any_eq_true.mpr ⟨f, hmem, ?_⟩) (Bool.eq_false_iff.mp hdel.2)
    rw [hcov, Bool.or_true]
  have hprog : ∀ lsn ∈ p.worker.progressAfterCommit b, lsn ∈ counts := fun lsn hlsn ↦
    mem_of_progressAfterCommit hlsn
  have hack : (p.worker.progressAfterCommit b).getD p.worker.ackedLsn = p.worker.ackedLsn ∨
      (p.worker.progressAfterCommit b).getD p.worker.ackedLsn ∈ counts := by
    cases hp : p.worker.progressAfterCommit b with
    | none => exact .inl rfl
    | some lsn => exact .inr (hprog lsn hp)
  have hle := h.trail_le
  rw [htrail] at hle
  refine ⟨fun e he hdel lsn hlsn ↦ ?_, ⟨?_, fun m hm ↦ ?_, h.unmarked, rfl, nofun, ?_⟩⟩
  · exact (hahead e he hdel).behind_counts.1 lsn (hprog lsn hlsn)
  · rcases hack with hack | hack
    · exact hack.trans_le h.acked_le
    · exact hle (.count _) (mem_append_left _ (List.mem_map_of_mem hack))
  · exact hle m (mem_append_right _ hm)
  · intro e he
    obtain ⟨he, hdel⟩ := mem_filter.mp he
    rw [Bool.not_eq_true'] at hdel
    exact .inr ((hahead e he hdel).behind_counts.2 _ hack)

theorem capture (buffer : CaptureBuffer) : Live { p with buffer := buffer } lost :=
  h.congr rfl rfl rfl h.plain h.opened fun _ _ hc ↦ hc

end

theorem new (stream table : String) (acked : ℕ) (buffer : CaptureBuffer) :
    Live (.new stream table acked buffer) lost :=
  ⟨le_rfl, fun _ hm ↦ absurd hm not_mem_nil, rfl, rfl, nofun, fun _ _ ↦ .inr .nil⟩

end Live

/-! ## Runs of the supervisor -/

/-- The acknowledgements of the present attempt, as long as it runs the ones to come too, are not
past a lost event. -/
structure Held (s : Supervised) : Prop where
  acked : ∀ e ∈ s.lost, ∀ c ∈ s.pipeline.worker.progress, c.lsn ≤ e.maxLsn
  live : s.pipeline.worker.pc.isStopped = false → Live s.pipeline s.lost

namespace Held

variable {s s' : Supervised}

section

variable (h : Held s)

include h

theorem capture (f : CaptureBuffer → CaptureBuffer) : Held (s.capture f) :=
  ⟨h.acked, fun hrun ↦ (h.live hrun).capture _⟩

theorem pop (hsafe : s.LostFirst .pop) (hstep : s.step .pop = some s') : Held s' := by
  obtain ⟨⟨_, buffer⟩, hnext, hpop⟩ := bind_eq_some_iff.mp hstep
  rw [StreamPipeline.pop, hnext] at hpop
  cases hpop
  have hlive := fun hrun ↦ (h.live hrun).pop buffer (hsafe _ hnext)
  rw [Supervised.taken]
  split_ifs
  · exact ⟨h.acked, hlive⟩
  · exact ⟨h.acked, hlive⟩

theorem receive (hstep : s.step .receive = some s') : Held s' := by
  obtain ⟨_, hp, rfl⟩ := map_eq_some_iff.mp hstep
  unfold receive at hp
  split at hp
  · cases hp
  · next event rest hchn =>
    obtain ⟨_, hw, rfl⟩ := map_eq_some_iff.mp hp
    obtain ⟨hpc, rfl⟩ := ite_some_none_eq_some.mp hw
    refine ⟨?_, fun _ ↦ (h.live (by rw [hpc]; rfl)).receive hchn hpc⟩
    cases event <;> exact h.acked

theorem commit {b : CheckpointBarrier} (hpc : s.pipeline.worker.pc = .committing b) : Held
      { s with
        pipeline := { s.pipeline with
          worker := { s.pipeline.worker with
            connector := s.pipeline.worker.connector.commitTxn }.afterCommit b }
        batches := s.batches.tail
        lost := s.lost.filter fun e ↦
          !delivers b (s.pipeline.worker.connector.openTxn.getD []) e } := by
  obtain ⟨hle, hlive⟩ := (h.live (by rw [hpc]; rfl)).commit hpc
  refine ⟨fun e he c hc ↦ ?_, fun _ ↦ hlive⟩
  obtain ⟨he, hdel⟩ := mem_filter.mp he
  rw [Bool.not_eq_true'] at hdel
  rcases mem_append.mp hc with hc | hc
  · exact h.acked e he c hc
  · obtain ⟨lsn, hlsn, rfl⟩ := List.mem_map.mp hc
    exact hle e he hdel lsn (mem_toList.mp hlsn)

theorem worker (hok : s.LostFirst (.worker a))
    (hstep : s.step (.worker a) = some s') : Held s' := by
  obtain ⟨_, hp, rfl⟩ := map_eq_some_iff.mp hstep
  obtain ⟨hrecv, _, hw, rfl⟩ := stepWorker_eq_some hp
  have hlive := h.live (running_of_step hw)
  by_cases hcom : ∃ b, s.pipeline.worker.pc = .committing b ∧ a = .returns (.ok ())
  · obtain ⟨b, hpc, rfl⟩ := hcom
    obtain rfl := some.inj ((onReturn_committing hpc).symm.trans hw)
    simp only [Supervised.settled, hpc]
    exact h.commit hpc
  · have hcom : ∀ b, s.pipeline.worker.pc = .committing b → a ≠ .returns (.ok ()) :=
      fun b hb ha ↦ hcom ⟨b, hb, ha⟩
    rw [Supervised.settled_of_not_commit hcom]
    have hwr : ∀ msg, a = .returns (.error (.transient msg)) →
        s.pipeline.worker.pc.writesFile = false := by
      rintro msg rfl
      exact hok
    rcases step_cases hw hlive.plain hwr hrecv hcom with
      (hended | hkeep) | ⟨f, hf, hpc, rfl⟩
    · refine ⟨?_, fun hrun ↦ absurd hended.1 (Bool.eq_false_iff.mp hrun)⟩
      rw [hended.2]
      exact h.acked
    · refine ⟨?_, fun _ ↦ hlive.keeps hkeep⟩
      rw [hkeep.progress]
      exact h.acked
    · exact ⟨h.acked, fun _ ↦ hlive.write hf hpc⟩

end

theorem restart (hstep : s.step .restart = some s') : Held s' := by
  simp only [Supervised.step] at hstep
  split at hstep <;> cases hstep
  exact ⟨fun _ _ _ hc ↦ absurd hc not_mem_nil, fun _ ↦ .new _ _ _ _⟩

theorem step (h : Held s) {a : SupervisorAction} (hok : s.LostFirst a)
    (hstep : s.step a = some s') : Held s' := by
  cases a with
  | insert | watermark | flush | compact =>
    cases hstep
    exact h.capture _
  | pop => exact h.pop hok hstep
  | receive => exact h.receive hstep
  | worker => exact h.worker hok hstep
  | restart => exact restart hstep

theorem initial (stream table : String) (ackedLsn : ℕ) (buffer : CaptureBuffer) :
    Held (.initial stream table ackedLsn buffer) :=
  ⟨fun _ he ↦ absurd he not_mem_nil, fun _ ↦ .new _ _ _ _⟩

end Held

namespace Supervised

/-- **What an attempt took from the buffer and did not commit is delivered before anything past it
is acknowledged**, in runs in which every event past it that is taken is a file that holds it. An
event leaves `lost` when a commit delivers it, and the acknowledgements of the worker are all later
than the end of the attempts that lost something. -/
theorem lost_not_overtaken {stream table : String} {ackedLsn : ℕ} {buffer : CaptureBuffer}
    {s : Supervised}
    (h : Reaches (guarded LostFirst step) (initial stream table ackedLsn buffer) s) :
    ∀ e ∈ s.lost, ∀ c ∈ s.pipeline.worker.progress, c.lsn ≤ e.maxLsn := by
  have hheld : Held s := h.invariant_guarded (Held.initial _ _ _ _) fun _ _ _ hs ↦ hs.step
  exact hheld.acked

/-- Row 1 is lost with the first attempt, and delivered by a file before 2 is acknowledged. -/
theorem lost_row_in_later_file : ∃ s, Reaches (guarded LostFirst step)
    (initial "s" "t" 0 ⟨[], [], []⟩) s ∧ s.pipeline.worker.ackedLsn = 2 ∧
      ∀ e ∈ s.lost, ∀ c ∈ s.pipeline.worker.progress, c.lsn ≤ e.maxLsn := by
  refine exists_reaches_of [.insert (.single 1) .resident, .pop, .worker (.returns (.ok ())),
    .receive, .worker (.returns (.error (.fatal "disk full"))), .restart, .flush (.new 1 2) "f" 2,
    .pop, .worker (.returns (.ok ())), .receive, .worker (.returns (.ok ())), .receive,
    .worker (.returns (.ok ()))] (p := fun s ↦ s.pipeline.worker.ackedLsn = 2) (by decide +kernel)
    fun s hrch hack ↦ ?_
  exact ⟨hack, lost_not_overtaken hrch⟩

/-- Row 1 is lost with the first attempt; the second one takes row 2 and a watermark, and
acknowledges 2. -/
theorem lost_row_overtaken : ∃ s, Reaches step (initial "s" "t" 0 ⟨[], [], []⟩) s ∧
    ∃ e ∈ s.lost, ∃ c ∈ s.pipeline.worker.progress, e.maxLsn < c.lsn := by
  exact exists_reaches [.insert (.single 1) .resident, .pop, .worker (.returns (.ok ())), .receive,
    .worker (.returns (.error (.fatal "disk full"))), .restart, .insert (.single 2) .resident,
    .watermark 2, .pop, .pop, .worker (.returns (.ok ())), .receive, .worker (.returns (.ok ())),
    .receive, .worker (.returns (.ok ()))] (by decide +kernel)

end Supervised

end MonoTS
