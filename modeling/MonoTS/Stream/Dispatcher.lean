import MonoTS.Stream.CaptureBuffer
import MonoTS.Stream.SinkWorker

/-!
# The dispatcher, and the pipeline of one attempt

The dispatcher takes events from the capture buffer and sends them to the sink worker through a
channel. It keeps a cursor, the largest LSN it has sent: logged rows at or below it are dropped,
and so are files below it, while a file that ends at the cursor is sent as `degrade`, since its rows
are taken to have been sent as inserts. A watermark and a file close the transaction with a barrier.

A pipeline is a buffer, a dispatcher, the channel and the worker. The source keeps one cursor for
each table; a stream has a single source table, so there is one here. What a step of the dispatcher
sends is sent at once: the channel is read in order, so that nobody can tell.
-/

namespace MonoTS

/-- The dispatcher of a table. -/
structure StreamDispatcher where
  table : String
  /-- The last LSN sent, or recovered from the durable progress. -/
  cursor : ℕ
  barrier : CheckpointBarrier

namespace CheckpointBarrier

variable (b : CheckpointBarrier) (table : String) (event : DataEvent)

@[simp] theorem watermarkLsn_named : (b.named table).watermarkLsn = b.watermarkLsn := by
  unfold named
  split_ifs <;> rfl

@[simp] theorem events_recordEvent : (b.recordEvent table event).events = b.events + 1 := by
  cases event <;> rfl

theorem watermarkLsn_recordEvent (h : event.isWatermark = false) :
    (b.recordEvent table event).watermarkLsn = b.watermarkLsn := by
  cases event with
  | watermark => cases h
  | insert | flushFile => exact b.watermarkLsn_named table

theorem isEmpty_recordEvent : (b.recordEvent table event).isEmpty = false := by
  rw [isEmpty, events_recordEvent]
  rfl

end CheckpointBarrier

namespace StreamDispatcher

def new (table : String) (recoveredCursor : ℕ) : StreamDispatcher :=
  ⟨table, recoveredCursor, .new table⟩

variable (d : StreamDispatcher)

def flushBarrier : StreamDispatcher × List PipelineEvent :=
  if d.barrier.isEmpty then (d, [])
  else ({ d with barrier := .new d.table }, [.barrier d.barrier])

/-- Send a file whose rows the sink has, or is taken to have; its link is to be removed. -/
def retire (filePath : String) (sent : PipelineEvent) : StreamDispatcher × List PipelineEvent :=
  let r := { d with barrier := d.barrier.recordUnlink d.table filePath }.flushBarrier
  (r.1, sent :: r.2)

variable (event : DataEvent)

/-- Send an event that is past the cursor. -/
def forward : StreamDispatcher × List PipelineEvent :=
  let d' :=
    { d with
      cursor := max d.cursor event.maxLsn
      barrier := d.barrier.recordEvent d.table event }
  match event with
  | .watermark _ => d'.flushBarrier
  | .insert _ _ => (d', [.data event])
  | .flushFile _ _ _ => (d'.flushBarrier.1, .data event :: d'.flushBarrier.2)

/-- One turn of the loop of `run`. -/
def dispatch : StreamDispatcher × List PipelineEvent :=
  match event with
  | .flushFile lsn filePath _ =>
    if lsn.maxLsn < d.cursor then d.retire filePath (.stale d.table event)
    else if lsn.maxLsn = d.cursor then d.retire filePath (.degrade d.table event)
    else d.forward event
  | .insert lsn _ => if lsn.maxLsn ≤ d.cursor then (d, []) else d.forward event
  | .watermark _ => d.forward event

section

variable (d : StreamDispatcher)

theorem dispatch_insert_fresh {lsn : LsnRange} {arrow : InsertArrow} (h : d.cursor < lsn.maxLsn) :
    d.dispatch (.insert lsn arrow) =
      ({ d with
          cursor := lsn.maxLsn
          barrier := d.barrier.recordEvent d.table (.insert lsn arrow) },
        [.data (.insert lsn arrow)]) := by
  rw [dispatch, if_neg h.not_ge, forward, DataEvent.maxLsn, max_eq_right h.le]

theorem dispatch_file_fresh {lsn : LsnRange} {filePath : String} {rows : ℕ}
    (h : d.cursor < lsn.maxLsn) :
    d.dispatch (.flushFile lsn filePath rows) =
      ({ d with cursor := lsn.maxLsn, barrier := .new d.table },
        [.data (.flushFile lsn filePath rows),
          .barrier (d.barrier.recordEvent d.table (.flushFile lsn filePath rows))]) := by
  rw [dispatch, if_neg h.le.not_gt, if_neg h.ne', forward, DataEvent.maxLsn, max_eq_right h.le]
  simp only [flushBarrier, CheckpointBarrier.isEmpty_recordEvent, Bool.false_eq_true, if_false]

end

end StreamDispatcher

/-- The buffer, the dispatcher and the worker. -/
structure StreamPipeline where
  buffer : CaptureBuffer
  dispatcher : StreamDispatcher
  channel : List PipelineEvent
  worker : SinkWorker

namespace StreamPipeline

/-- A pipeline that starts on this buffer, with its cursors recovered from the progress. -/
def new (stream table : String) (recoveredAckedLsn : ℕ) (buffer : CaptureBuffer) :
    StreamPipeline where
  buffer := buffer
  dispatcher := .new table recoveredAckedLsn
  channel := []
  worker := .new stream table recoveredAckedLsn

variable (p : StreamPipeline)

/-- The dispatcher takes the next event of the buffer. -/
def pop : Option StreamPipeline :=
  p.buffer.popNext.map fun next ↦
    let r := p.dispatcher.dispatch next.1
    { p with buffer := next.2, dispatcher := r.1, channel := p.channel ++ r.2 }

/-- The worker receives the next event of the channel. -/
def receive (p : StreamPipeline) : Option StreamPipeline :=
  match p.channel with
  | [] => none
  | event :: rest =>
    (p.worker.step (.receive event)).map fun w ↦ { p with channel := rest, worker := w }

/-- A step of the worker that takes nothing from the channel. -/
def stepWorker (a : WorkerAction) : Option StreamPipeline :=
  match a with
  | .receive _ => none
  | a => (p.worker.step a).map fun w ↦ { p with worker := w }

end StreamPipeline

end MonoTS
