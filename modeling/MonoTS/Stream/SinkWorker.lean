import MonoTS.Stream.Event
import MonoTS.Lib.Transition

/-!
# The sink worker

A sink worker writes the events of a stream into the open transaction of a connector and commits it
at each barrier. When a call of the connector fails transiently, the transaction is given up: the
worker aborts it, begins another one, and replays what it remembers of the old one, as often as it
takes. What it remembers is the replay buffer, in which adjacent inserts are one range and inserts
covered by a flushed file are dropped for the file.

The worker is a machine here, one step for each call of the connector that returns, so that a run is
a sequence of events together with a pattern of failures. The connector is the log of its
transactions. The ghost fields `handled` and `past` keep the data events since the last successful
commit, and those before it.

Pausing and the end of a worker are modelled as far as the connector sees them. A cancelled worker
goes to its teardown: the loops of the source that race with the token all end there, and none of
them commits on the way.
-/

open Transition

namespace MonoTS

/-! ## The replay buffer -/

/-- What it takes to write the open transaction once more. -/
structure TxnReplayBuffer where
  inserts : List LsnRange := []
  flushFiles : List DataEvent := []

namespace TxnReplayBuffer

def isFullyCovered (inner cover : LsnRange) : Bool :=
  cover.baseLsn ≤ inner.baseLsn && inner.maxLsn ≤ cover.maxLsn

variable (inserts : List LsnRange)

/-- An insert extends the last range if it starts right after it. -/
def pushInsert (lsn : LsnRange) : List LsnRange :=
  match inserts.getLast? with
  | none => inserts ++ [lsn]
  | some last =>
    if h : last.maxLsn + 1 = lsn.baseLsn then
      inserts.dropLast ++ [⟨last.baseLsn, lsn.maxLsn, by have := last.le; have := lsn.le; omega⟩]
    else inserts ++ [lsn]

/-- The inserts that a flushed file does not stand for. -/
def retainUncovered (lsn : LsnRange) : List LsnRange :=
  inserts.filter fun r ↦ !isFullyCovered r lsn

variable (b : TxnReplayBuffer) (event : DataEvent)

/-- Record an event that was written. A file that is acknowledged already is not kept. -/
def record (ackedLsn : ℕ) : TxnReplayBuffer :=
  match event with
  | .insert lsn _ => { b with inserts := pushInsert b.inserts lsn }
  | .flushFile lsn _ _ =>
    { inserts := retainUncovered b.inserts lsn
      flushFiles := if ackedLsn < lsn.maxLsn then b.flushFiles ++ [event] else b.flushFiles }
  | .watermark _ => b

/-- Record a file whose rows are in the sink already: it is kept for a retry of the commit. -/
def recordDegrade : TxnReplayBuffer :=
  match event with
  | .flushFile lsn _ _ =>
    { inserts := retainUncovered b.inserts lsn, flushFiles := b.flushFiles ++ [event] }
  | _ => b

def clear (_ : TxnReplayBuffer) : TxnReplayBuffer := {}

def maxFlushFileLsn : Option ℕ := (b.flushFiles.map DataEvent.maxLsn).max?

/-- The writes of a replay: the files, and then the ranges as deferred inserts. -/
def replayEvents : List DataEvent :=
  b.flushFiles ++ b.inserts.map DataEvent.insertDeferred

end TxnReplayBuffer

/-! ## The connector -/

/-- How a call of the connector fails. -/
inductive SinkError where
  | transient (msg : String)
  | fatal (msg : String)

/-- What a call of the connector returns. -/
abbrev SinkResult := Except SinkError Unit

/-- A connector as the log of its transactions. A call that fails changes nothing. -/
structure SinkConnector where
  openTxn : Option (List DataEvent) := none
  published : List (List DataEvent) := []

namespace SinkConnector

variable (c : SinkConnector)

def beginTxn : SinkConnector := { c with openTxn := some [] }

def write (event : DataEvent) : SinkConnector :=
  { c with openTxn := c.openTxn.map fun txn ↦ txn ++ [event] }

def commitTxn : SinkConnector where
  openTxn := none
  published := c.published ++ c.openTxn.toList

def abortTxn : SinkConnector := { c with openTxn := none }

def publishedRows : Set Row :=
  {row | ∃ txn ∈ c.published, row ∈ rowsWritten txn}

end SinkConnector

/-! ## The worker -/

/-- What a recovery goes back to: the loop, the end of `handle_event` or the loop of
`execute_2pc_commit`. -/
inductive Continuation where
  | sink
  | record (event : DataEvent)
  | commit (b : CheckpointBarrier)
  deriving DecidableEq, Repr

/-- Where the worker is, which is mostly the call it waits for. -/
inductive WorkerPc where
  | opening
  | sinking
  | paused
  | writing (event : DataEvent)
  | committing (b : CheckpointBarrier)
  | recovering (k : Continuation)
  | replaying (event : DataEvent) (rest : List DataEvent) (k : Continuation)
  | stopped (result : Result Unit)
  deriving DecidableEq, Repr

def WorkerPc.isStopped : WorkerPc → Bool
  | .stopped _ => true
  | _ => false

/-- What a recovery that starts here goes back to. -/
def WorkerPc.continuation : WorkerPc → Continuation
  | .writing event => .record event
  | .committing b => .commit b
  | .recovering k | .replaying _ _ k => k
  | _ => .sink

/-- The message to the progress manager after a commit. -/
structure SinkCommitted where
  stream : String
  table : String
  lsn : ℕ
  files : ℕ
  deriving DecidableEq, Repr

/-- The state of a worker. -/
structure SinkWorker where
  stream : String
  table : String
  connector : SinkConnector
  buffer : TxnReplayBuffer
  ackedLsn : ℕ
  progress : List SinkCommitted
  pc : WorkerPc
  handled : List DataEvent
  past : List DataEvent

/-- A control message. -/
inductive SinkControl where
  | pause
  | resume
  | shutdown
  deriving DecidableEq, Repr

/-- What can happen to a worker: a message on one of its channels, the heartbeat with the result of
its ping, the return of the call it waits for, or its cancellation. -/
inductive WorkerAction where
  | control (ctrl : SinkControl)
  | receive (event : PipelineEvent)
  | ping (res : SinkResult)
  | returns (res : SinkResult)
  | cancel

namespace SinkWorker

/-- A worker that waits for its first `begin_txn`. -/
def new (stream table : String) (recoveredAckedLsn : ℕ) : SinkWorker where
  stream := stream
  table := table
  connector := {}
  buffer := {}
  ackedLsn := recoveredAckedLsn
  progress := []
  pc := .opening
  handled := []
  past := []

variable (w : SinkWorker)

/-- The worker ends with a result. -/
def gracefulTeardown (result : Result Unit) : SinkWorker :=
  { w with connector := w.connector.abortTxn, pc := .stopped result }

/-- A fatal error ends the worker, with the text of the place that looks at it; after a transient
one it is in the recovery loop, and goes on with `k` from there. -/
def recoverOrFail (failure : String) (k : Continuation) : SinkError → SinkWorker
  | .fatal msg => w.gracefulTeardown (.error (.storage (failure ++ msg)))
  | .transient _ => { w with pc := .recovering k }

def recoverFromTransientError (err : SinkError) (k : Continuation) : SinkWorker :=
  w.recoverOrFail "Fatal sink error: " k err

/-- The end of `handle_event` for a data event. -/
def record (w : SinkWorker) (event : DataEvent) : SinkWorker :=
  { w with
    buffer := w.buffer.record event w.ackedLsn
    handled := w.handled ++ [event]
    pc := .sinking }

def handleEvent : PipelineEvent → SinkWorker
  | .data event => { w with pc := .writing event }
  | .stale _ _ => w
  | .degrade _ event => { w with buffer := w.buffer.recordDegrade event }
  | .barrier b => { w with pc := .committing b }

variable (b : CheckpointBarrier)

/-- The larger one of the watermark and the files of the buffer, if it is past `ackedLsn`. -/
def progressAfterCommit : Option ℕ :=
  let lsn := match w.buffer.maxFlushFileLsn with
    | some p => some (b.progressLsn.elim p fun watermark ↦ max watermark p)
    | none => b.progressLsn
  lsn.filter fun v ↦ w.ackedLsn < v

def sinkCommitted (lsn : ℕ) : SinkCommitted where
  stream := w.stream
  table := if b.table.isEmpty then w.table else b.table
  lsn := lsn
  files := b.filesToUnlink.length

/-- The part of `execute_2pc_commit` after a successful commit, up to the next `begin_txn`. -/
def afterCommit : SinkWorker :=
  let lsn := w.progressAfterCommit b
  { w with
    ackedLsn := lsn.getD w.ackedLsn
    progress := w.progress ++ lsn.toList.map (w.sinkCommitted b)
    buffer := w.buffer.clear
    pc := .opening
    handled := []
    past := w.past ++ w.handled }

def continueWith : Continuation → SinkWorker
  | .sink => { w with pc := .sinking }
  | .record event => w.record event
  | .commit b => { w with pc := .committing b }

/-- Go on with a replay. -/
def replayInto (k : Continuation) : List DataEvent → SinkWorker
  | [] => w.continueWith k
  | event :: rest => { w with pc := .replaying event rest k }

/-- The call the worker waits for returns. An iteration of the recovery loop starts with an abort,
whose result is not looked at, so it is part of the step of `begin_txn`. -/
def onReturn (res : SinkResult) : Option SinkWorker :=
  match w.pc, res with
  | .opening, .ok () => some { w with connector := w.connector.beginTxn, pc := .sinking }
  | .opening, .error err => some (w.recoverFromTransientError err .sink)
  | .writing event, .ok () => some ({ w with connector := w.connector.write event }.record event)
  | .writing event, .error err => some (w.recoverFromTransientError err (.record event))
  | .committing b, .ok () => some ({ w with connector := w.connector.commitTxn }.afterCommit b)
  | .committing b, .error err => some
    (w.recoverOrFail "Fatal sink error on commit: " (.commit b) err)
  | .recovering k, .ok () => some
    ({ w with connector := w.connector.abortTxn.beginTxn }.replayInto k w.buffer.replayEvents)
  | .recovering k, .error err => some
    ({ w with connector := w.connector.abortTxn }.recoverOrFail "" k err)
  | .replaying event rest k, .ok () => some
    ({ w with connector := w.connector.write event }.replayInto k rest)
  | .replaying _ _ k, .error err => some (w.recoverOrFail "" k err)
  | .sinking, _ => none
  | .paused, _ => none
  | .stopped _, _ => none

section

variable (w : SinkWorker) (b : CheckpointBarrier)

theorem ackedLsn_afterCommit : (w.afterCommit b).ackedLsn =
    (w.progressAfterCommit b).getD w.ackedLsn := rfl

/-- A commit acknowledges nothing, or a larger LSN: that of the barrier's watermark or of a file of
the replay buffer. -/
theorem progressAfterCommit_cases : w.progressAfterCommit b = none ∨
    ∃ lsn, w.progressAfterCommit b = some lsn ∧ w.ackedLsn < lsn ∧
      (lsn = b.watermarkLsn ∧ 0 < lsn ∨ ∃ e ∈ w.buffer.flushFiles, lsn = e.maxLsn) := by
  cases hp : w.progressAfterCommit b with
  | none => exact .inl rfl
  | some lsn =>
    obtain ⟨hlsn, hlt⟩ := Option.filter_eq_some_iff.mp hp
    refine .inr ⟨lsn, rfl, of_decide_eq_true hlt, ?_⟩
    have hmark : ∀ n, b.progressLsn = some n → n = b.watermarkLsn ∧ 0 < n := by
      intro n hn
      unfold CheckpointBarrier.progressLsn at hn
      split_ifs at hn with hpos
      cases hn
      exact ⟨rfl, hpos⟩
    cases hmax : w.buffer.maxFlushFileLsn with
    | none =>
      rw [hmax] at hlsn
      exact .inl (hmark lsn hlsn)
    | some p =>
      obtain ⟨e, he, rfl⟩ := List.mem_map.mp (List.max?_mem hmax)
      rw [hmax] at hlsn
      cases hb : b.progressLsn with
      | none =>
        rw [hb] at hlsn
        exact .inr ⟨e, he, (Option.some.inj hlsn).symm⟩
      | some n =>
        rw [hb] at hlsn
        have hn := hmark n hb
        obtain rfl : max n e.maxLsn = lsn := Option.some.inj hlsn
        rcases le_total n e.maxLsn with hle | hle
        · exact .inr ⟨e, he, max_eq_right hle⟩
        · rw [max_eq_left hle]
          exact .inl hn

theorem ackedLsn_le_afterCommit : w.ackedLsn ≤ (w.afterCommit b).ackedLsn := by
  rw [ackedLsn_afterCommit]
  rcases w.progressAfterCommit_cases b with hp | ⟨_, hp, hlt, -⟩
  · rw [hp]
    exact le_rfl
  · rw [hp]
    exact hlt.le

theorem mem_progress_afterCommit {c : SinkCommitted} (h : c ∈ (w.afterCommit b).progress) :
    c ∈ w.progress ∨ c.lsn = (w.afterCommit b).ackedLsn := by
  refine (List.mem_append.mp h).imp_right fun hc ↦ ?_
  obtain ⟨_, hlsn, rfl⟩ := List.mem_map.mp hc
  rw [ackedLsn_afterCommit, Option.mem_toList.mp hlsn]
  rfl

end

section

variable {w : SinkWorker} {event : DataEvent} {b : CheckpointBarrier}

theorem onReturn_opening (h : w.pc = .opening) :
    w.onReturn (.ok ()) = some { w with connector := w.connector.beginTxn, pc := .sinking } := by
  simp only [onReturn, h]

theorem onReturn_writing (h : w.pc = .writing event) :
    w.onReturn (.ok ()) = some ({ w with connector := w.connector.write event }.record event) := by
  simp only [onReturn, h]

theorem onReturn_committing (h : w.pc = .committing b) :
    w.onReturn (.ok ()) = some ({ w with connector := w.connector.commitTxn }.afterCommit b) := by
  simp only [onReturn, h]

end

/-- Control messages are read in the loop only. -/
def onControl (w : SinkWorker) (ctrl : SinkControl) : Option SinkWorker :=
  match w.pc, ctrl with
  | .sinking, .pause => some { w with pc := .paused }
  | .paused, .resume => some { w with pc := .sinking }
  | .sinking, .resume => some w
  | .paused, .pause => some w
  | .sinking, .shutdown => some (w.gracefulTeardown (.ok ()))
  | .paused, .shutdown => some (w.gracefulTeardown (.ok ()))
  | _, _ => none

def step (w : SinkWorker) : WorkerAction → Option SinkWorker
  | .control ctrl => w.onControl ctrl
  | .receive event => if w.pc = .sinking then some (w.handleEvent event) else none
  | .ping (.ok ()) => if w.pc = .sinking then some w else none
  | .ping (.error err) =>
    if w.pc = .sinking then some (w.recoverFromTransientError err .sink) else none
  | .returns res => w.onReturn res
  | .cancel => match w.pc with
    | .stopped _ => none
    | _ => some (w.gracefulTeardown (.ok ()))

/-- Everything a step can do. -/
inductive Moves (w : SinkWorker) : WorkerAction → SinkWorker → Prop
  | stay {a} (h : w.pc.isStopped = false) : Moves w a w
  | turn {a pc} (h : w.pc = .sinking ∨ w.pc = .paused) (h' : pc = .sinking ∨ pc = .paused) :
    Moves w a { w with pc := pc }
  | finish {a} (h : w.pc.isStopped = false) : Moves w a (w.gracefulTeardown (.ok ()))
  | receive {event} (h : w.pc = .sinking) : Moves w (.receive event) (w.handleEvent event)
  | begin (h : w.pc = .opening) :
    Moves w (.returns (.ok ())) { w with connector := w.connector.beginTxn, pc := .sinking }
  | write {event} (h : w.pc = .writing event) :
    Moves w (.returns (.ok ())) ({ w with connector := w.connector.write event }.record event)
  | commit {b : CheckpointBarrier} (h : w.pc = .committing b) :
    Moves w (.returns (.ok ())) ({ w with connector := w.connector.commitTxn }.afterCommit b)
  | reset {k} (h : w.pc = .recovering k) : Moves w (.returns (.ok ()))
      ({ w with connector := w.connector.abortTxn.beginTxn }.replayInto k w.buffer.replayEvents)
  | replay {event rest k} (h : w.pc = .replaying event rest k) : Moves w (.returns (.ok ()))
      ({ w with connector := w.connector.write event }.replayInto k rest)
  | fail {a c failure k err} (h : w.pc.isStopped = false) (hk : w.pc.continuation = k)
    (ha : a = .returns (.error err) ∨ a = .ping (.error err) ∧ w.pc = .sinking)
    (hc : c.publishedRows = w.connector.publishedRows) :
    Moves w a ({ w with connector := c }.recoverOrFail failure k err)

variable {w w' : SinkWorker} {a : WorkerAction}

theorem moves_of_onReturn {res : SinkResult} (h : w.onReturn res = some w') :
    w.Moves (.returns res) w' := by
  cases hpc : w.pc <;> rcases res with err | _ <;> simp only [onReturn, hpc, reduceCtorEq] at h
  all_goals cases h
  any_goals exact .fail (by rw [hpc]; rfl) (by rw [hpc]; rfl) (.inl rfl) rfl
  · exact .begin hpc
  · exact .write hpc
  · exact .commit hpc
  · exact .reset hpc
  · exact .replay hpc

/-- **One step** is one of these. -/
theorem moves_of_step (h : w.step a = some w') : w.Moves a w' := by
  cases a with
  | control ctrl =>
    simp only [step, onControl] at h
    split at h <;> cases h <;> next hpc =>
      first
      | exact .turn (.inl hpc) (.inr rfl)
      | exact .turn (.inr hpc) (.inl rfl)
      | exact .stay (by rw [hpc]; rfl)
      | exact .finish (by rw [hpc]; rfl)
  | receive =>
    obtain ⟨hpc, rfl⟩ := Option.ite_some_none_eq_some.mp h
    exact .receive hpc
  | ping res =>
    rcases res with err | _ <;> obtain ⟨hpc, rfl⟩ := Option.ite_some_none_eq_some.mp h
    · exact .fail (by rw [hpc]; rfl) (by rw [hpc]; rfl) (.inr ⟨rfl, hpc⟩) rfl
    · exact .stay (by rw [hpc]; rfl)
  | returns => exact moves_of_onReturn h
  | cancel =>
    cases hpc : w.pc <;> simp only [step, hpc, reduceCtorEq] at h
    all_goals cases h
    all_goals exact .finish (by rw [hpc]; rfl)

end SinkWorker

end MonoTS
