import MonoTS.Stream.SinkWorker

/-!
# What a commit of the sink worker publishes

A data event is recorded in the replay buffer after it is written, and, if the write fails, after
the recovery that the failure starts. That recovery replays the buffer without the event, and
nothing writes the event again: the next commit is one without its rows, and the worker still
reports an LSN that covers them (`commit_after_failed_write_loses_insert`).

In every run without such a failure each commit publishes all that was handled
(`commit_publishes_handled`), wherever else a call fails: in a commit, in a ping, in a `begin_txn`
or inside the recovery loop. The buffer is why. It always supplies the rows of the handled events
(`rows_record`), and the transaction of a finished recovery holds exactly what the buffer replays.
The second half of the condition is about `TxnReplayBuffer::record`: for a file that is acknowledged
already it drops the inserts that the file covers, but does not keep the file.

What a commit reports is the watermark of its barrier or the LSN of a file in the buffer. Neither
need have been handled: a file may be there only as a `Degrade`. The report covers what was handled
and nothing else if the dispatcher keeps to its cursor (`FollowsCursor`).
-/

open Transition List
open Option hiding or_assoc

namespace MonoTS

open DataEvent SinkWorker SinkConnector

/-! ## The buffer supplies the rows it has recorded -/

namespace TxnReplayBuffer

variable (b : TxnReplayBuffer)

/-- The rows that a replay of the buffer writes. -/
def rows : Set Row := rowsWritten b.replayEvents

variable {row : Row} {inserts : List LsnRange}

theorem mem_rows {b : TxnReplayBuffer} :
    row ∈ b.rows ↔ (∃ e ∈ b.flushFiles, row ∈ e.writtenRows) ∨ ∃ r ∈ b.inserts, row ∈ r.rows := by
  rw [rows, replayEvents, rowsWritten_append]
  simp [rowsWritten, insertDeferred, writtenRows]

theorem mem_pushInsert {lsn : LsnRange} (h : (∃ r ∈ inserts, row ∈ r.rows) ∨ row ∈ lsn.rows) :
    ∃ r ∈ pushInsert inserts lsn, row ∈ r.rows := by
  have happ : ∃ r ∈ inserts ++ [lsn], row ∈ r.rows := by
    rcases h with ⟨r, hr, hrow⟩ | hrow
    · exact ⟨r, mem_append_left _ hr, hrow⟩
    · exact ⟨lsn, mem_append_right _ (mem_singleton_self lsn), hrow⟩
  unfold pushInsert
  split
  · exact happ
  · rename_i last hlast
    split
    · rename_i hnext
      have hins := dropLast_append_getLast? last hlast
      have hlastLe := last.le
      have hlsnLe := lsn.le
      rcases h with ⟨r, hr, hrow⟩ | hrow
      · rw [← hins, mem_append, mem_singleton] at hr
        rcases hr with hr | rfl
        · exact ⟨r, mem_append_left _ hr, hrow⟩
        · refine ⟨_, mem_append_right _ (mem_singleton_self _), ?_⟩
          refine LsnRange.rows_subset ?_ ?_ hrow <;> dsimp only <;> omega
      · refine ⟨_, mem_append_right _ (mem_singleton_self _), ?_⟩
        refine LsnRange.rows_subset ?_ ?_ hrow <;> dsimp only <;> omega
    · exact happ

theorem mem_retainUncovered {lsn : LsnRange} (h : ∃ r ∈ inserts, row ∈ r.rows) :
    (∃ r ∈ retainUncovered inserts lsn, row ∈ r.rows) ∨ row ∈ lsn.rows := by
  obtain ⟨r, hr, hrow⟩ := h
  by_cases hcov : isFullyCovered r lsn
  · rw [isFullyCovered, Bool.and_eq_true, decide_eq_true_eq, decide_eq_true_eq] at hcov
    exact .inr (LsnRange.rows_subset hcov.1 hcov.2 hrow)
  · refine .inl ⟨r, mem_filter.mpr ⟨hr, ?_⟩, hrow⟩
    rw [Bool.not_eq_true] at hcov
    rw [hcov, Bool.not_false]

/-- With the file kept, no row is lost. -/
theorem rows_pushFile (lsn : LsnRange) (filePath : String) (n : ℕ) :
    b.rows ∪ (flushFile lsn filePath n).writtenRows ⊆
      rows { inserts := retainUncovered b.inserts lsn
             flushFiles := b.flushFiles ++ [.flushFile lsn filePath n] } := by
  intro row hrow
  rw [Set.mem_union, mem_rows] at hrow
  rw [mem_rows]
  have hfile (h : row ∈ (flushFile lsn filePath n).writtenRows) :
      ∃ e ∈ b.flushFiles ++ [.flushFile lsn filePath n], row ∈ e.writtenRows :=
    ⟨_, mem_append_right _ (mem_singleton_self _), h⟩
  rcases hrow with (⟨e, he, hrow⟩ | hrow) | hrow
  · exact .inl ⟨e, mem_append_left _ he, hrow⟩
  · rcases mem_retainUncovered hrow with h | h
    · exact .inr h
    · exact .inl (hfile (.inl h))
  · exact .inl (hfile hrow)

end TxnReplayBuffer

/-- A flushed file is past the LSN that was acknowledged last. -/
def DataEvent.Unacked (ackedLsn : ℕ) : DataEvent → Prop
  | .flushFile lsn _ _ => ackedLsn < lsn.maxLsn
  | _ => True

instance (ackedLsn : ℕ) (e : DataEvent) : Decidable (e.Unacked ackedLsn) := by
  unfold Unacked
  split <;> infer_instance

variable {event : DataEvent} (b : TxnReplayBuffer)

theorem TxnReplayBuffer.rows_record {ackedLsn : ℕ}
    (h : event.Unacked ackedLsn) : b.rows ∪ event.ownRows ⊆ (b.record event ackedLsn).rows := by
  cases event with
  | insert =>
    intro row hrow
    rw [Set.mem_union, mem_rows, or_assoc] at hrow
    rw [mem_rows]
    exact hrow.imp_right mem_pushInsert
  | watermark => exact Set.union_subset subset_rfl (Set.empty_subset _)
  | flushFile lsn filePath n =>
    refine (Set.union_subset_union_right _ (ownRows_subset_writtenRows _)).trans ?_
    have hack : ackedLsn < lsn.maxLsn := h
    rw [record, if_pos hack]
    exact b.rows_pushFile lsn filePath n

theorem TxnReplayBuffer.rows_recordDegrade (event : DataEvent) :
    b.rows ⊆ (b.recordDegrade event).rows := by
  cases event with
  | insert | watermark => exact subset_rfl
  | flushFile lsn filePath n =>
    exact Set.subset_union_left.trans (b.rows_pushFile lsn filePath n)

/-! ## The invariant -/

theorem DataEvent.ownRows_of_isWatermark (h : event.isWatermark = true) : event.ownRows = ∅ := by
  cases event with
  | watermark => rfl
  | insert | flushFile => cases h

theorem DataEvent.unacked_of_isWatermark (h : event.isWatermark = true)
    (ackedLsn : ℕ) : event.Unacked ackedLsn := by
  cases event with
  | watermark => trivial
  | insert | flushFile => cases h

/-- The event that a recovery goes back to. -/
def Continuation.inHand : Continuation → Option PipelineEvent
  | .sink => none
  | .record event => some (.data event)
  | .commit b => some (.barrier b)

/-- The event that the worker has received and not handled yet. -/
def WorkerPc.inHand (pc : WorkerPc) : Option PipelineEvent := pc.continuation.inHand

namespace SinkWorker

variable (w : SinkWorker)

/-- The steps of the runs in question: no write of rows fails transiently in `handle_event`, and no
file is received that is already acknowledged. -/
def WritesRows : WorkerAction → Prop
  | .receive (.data event) => event.Unacked w.ackedLsn
  | .returns (.error (.transient _)) => match w.pc with
    | .writing event => event.isWatermark = true
    | _ => True
  | _ => True

instance (a : WorkerAction) : Decidable (w.WritesRows a) := by
  unfold WritesRows
  split
  · infer_instance
  · split <;> infer_instance
  · infer_instance

/-- The open transaction supplies the rows of the events. -/
def Supplied (events : List DataEvent) : Prop :=
  ∃ txn, w.connector.openTxn = some txn ∧ rowsOf events ⊆ rowsWritten txn

/-- The open transaction and what is left of a replay are the events of the buffer. -/
def Replays (rest : List DataEvent) : Prop :=
  ∃ done, w.connector.openTxn = some done ∧ done ++ rest = w.buffer.replayEvents

/-- A recovery that goes back to `handle_event` does so for an event without rows. -/
def Harmless : Continuation → Prop
  | .record event => event.isWatermark = true
  | _ => True

/-- What is true of the open transaction at each place of the worker. -/
def AtPc : WorkerPc → Prop
  | .opening => w.handled = []
  | .sinking | .paused | .committing _ => w.Supplied w.handled
  | .writing event => w.Supplied w.handled ∧ event.Unacked w.ackedLsn
  | .recovering k => Harmless k
  | .replaying event rest k => w.Replays (event :: rest) ∧ Harmless k
  | .stopped _ => True

/-- What is true of the buffer and of the published transactions, wherever the worker is. -/
structure Kept (w : SinkWorker) : Prop where
  buffered : rowsOf w.handled ⊆ w.buffer.rows
  published : rowsOf w.past ⊆ w.connector.publishedRows

/-- What every step keeps. -/
structure Inv (w : SinkWorker) : Prop extends Kept w where
  atPc : w.AtPc w.pc

theorem inv_new (stream table : String) (recoveredAckedLsn : ℕ) :
    Inv (new stream table recoveredAckedLsn) where
  buffered := by simp [new, rowsOf]
  published := by simp [new, rowsOf]
  atPc := rfl

variable {w w' : SinkWorker} {rest : List DataEvent} {k : Continuation}

theorem Supplied.write {events : List DataEvent} (h : w.Supplied events) (event : DataEvent) :
    Supplied { w with connector := w.connector.write event } (events ++ [event]) := by
  obtain ⟨txn, htxn, hrows⟩ := h
  refine ⟨txn ++ [event], by rw [SinkConnector.write, htxn, map_some], ?_⟩
  rw [rowsOf_append_singleton, rowsWritten_append]
  refine Set.union_subset_union hrows (event.ownRows_subset_writtenRows.trans ?_)
  exact writtenRows_subset_of_mem (mem_singleton_self event)

theorem Replays.write (h : w.Replays (event :: rest)) :
    Replays { w with connector := w.connector.write event } rest := by
  obtain ⟨done, hdone, heq⟩ := h
  refine ⟨done ++ [event], by rw [SinkConnector.write, hdone, map_some], ?_⟩
  rw [append_assoc]
  exact heq

theorem Replays.supplied (h : w.Replays []) (hw : Kept w) : w.Supplied w.handled := by
  obtain ⟨done, hdone, heq⟩ := h
  rw [append_nil] at heq
  refine ⟨done, hdone, ?_⟩
  rw [heq]
  exact hw.buffered

/-! ## One lemma for each kind of step -/

section

variable (hw : Kept w)

include hw

theorem Kept.record (hopen : w.Supplied (w.handled ++ [event])) (hack : event.Unacked w.ackedLsn) :
    Inv (w.record event) where
  buffered := by
    simp only [SinkWorker.record, rowsOf_append_singleton]
    exact (Set.union_subset_union_left _ hw.buffered).trans (w.buffer.rows_record hack)
  published := hw.published
  atPc := hopen

theorem Kept.recoverOrFail (err : SinkError) (failure : String)
    (hk : ∀ msg, err = .transient msg → Harmless k) : Inv (w.recoverOrFail failure k err) := by
  cases err with
  | fatal => exact ⟨{ hw with }, trivial⟩
  | transient msg => exact ⟨{ hw with }, hk msg rfl⟩

theorem Kept.continueWith (hk : Harmless k) (h : w.Replays []) : Inv (w.continueWith k) := by
  have hopen := h.supplied hw
  cases k with
  | sink | commit => exact ⟨{ hw with }, hopen⟩
  | record event =>
    refine hw.record ?_ (event.unacked_of_isWatermark hk w.ackedLsn)
    obtain ⟨txn, htxn, hrows⟩ := hopen
    refine ⟨txn, htxn, ?_⟩
    rw [rowsOf_append_singleton, ownRows_of_isWatermark hk, Set.union_empty]
    exact hrows

theorem Kept.replayInto (hk : Harmless k) (h : w.Replays rest) : Inv (w.replayInto k rest) := by
  cases rest with
  | nil => exact hw.continueWith hk h
  | cons => exact ⟨{ hw with }, h, hk⟩

theorem publishedRows_commitTxn (hopen : w.Supplied w.handled) :
    rowsOf (w.past ++ w.handled) ⊆ w.connector.commitTxn.publishedRows := by
  obtain ⟨txn, htxn, hrows⟩ := hopen
  rintro row ⟨e, he, hrow⟩
  rw [publishedRows, commitTxn, htxn]
  rcases mem_append.mp he with he | he
  · obtain ⟨txn', htxn', hrow'⟩ := hw.published ⟨e, he, hrow⟩
    exact ⟨txn', mem_append_left _ htxn', hrow'⟩
  · exact ⟨txn, mem_append_right _ (mem_toList.mpr rfl), hrows ⟨e, he, hrow⟩⟩

theorem Kept.afterCommit (hopen : w.Supplied w.handled) (b : CheckpointBarrier) :
    Inv ({ w with connector := w.connector.commitTxn }.afterCommit b) where
  buffered := by simp [SinkWorker.afterCommit, rowsOf]
  published := publishedRows_commitTxn hw hopen
  atPc := rfl

end

section

variable (hw : Inv w)

include hw

theorem Inv.handleEvent (hpc : w.pc = .sinking) {event : PipelineEvent}
    (hok : w.WritesRows (.receive event)) : Inv (w.handleEvent event) := by
  have hopen : w.Supplied w.handled := by
    have h := hw.atPc
    rw [hpc] at h
    exact h
  cases event with
  | data => exact ⟨{ hw with }, hopen, hok⟩
  | barrier => exact ⟨{ hw with }, hopen⟩
  | stale => exact hw
  | degrade table d =>
    refine ⟨⟨hw.buffered.trans (w.buffer.rows_recordDegrade d), hw.published⟩, ?_⟩
    rw [SinkWorker.handleEvent, hpc]
    exact hopen

theorem Inv.step {a : WorkerAction} (hok : w.WritesRows a) (h : w.step a = some w') : Inv w' := by
  have hat := hw.atPc
  cases moves_of_step h with
  | stay => exact hw
  | turn hpc hpc' =>
    have hopen : w.Supplied w.handled := by
      rcases hpc with hpc | hpc <;> rwa [hpc] at hat
    refine ⟨{ hw with }, ?_⟩
    rcases hpc' with rfl | rfl <;> exact hopen
  | finish => exact ⟨{ hw with }, trivial⟩
  | receive hpc => exact hw.handleEvent hpc hok
  | begin hpc =>
    have hhand : w.handled = [] := by rwa [hpc] at hat
    refine ⟨{ hw with }, [], rfl, ?_⟩
    rw [hhand]
    exact fun _ ⟨_, he, _⟩ ↦ absurd he not_mem_nil
  | write hpc =>
    rw [hpc] at hat
    refine Kept.record ?_ (hat.1.write _) hat.2
    exact { hw with }
  | commit hpc =>
    rw [hpc] at hat
    exact hw.toKept.afterCommit hat _
  | reset hpc =>
    rw [hpc] at hat
    refine Kept.replayInto ?_ hat ⟨[], rfl, rfl⟩
    exact { hw with }
  | replay hpc =>
    rw [hpc] at hat
    refine Kept.replayInto ?_ hat.2 hat.1.write
    exact { hw with }
  | fail _ hk ha hc =>
    subst hk
    refine Kept.recoverOrFail ?_ _ _ ?_
    · exact ⟨hw.buffered, hw.published.trans hc.ge⟩
    rintro msg rfl
    -- the recovery goes back to where it came from
    cases hpc : w.pc with
    | writing =>
      obtain rfl := ha.resolve_right (by rw [hpc]; exact nofun)
      rwa [WritesRows, hpc] at hok
    | recovering => rwa [hpc] at hat
    | replaying =>
      rw [hpc] at hat
      exact hat.2
    | _ => trivial

end

theorem inv_of_reaches {stream table : String} {recoveredAckedLsn : ℕ}
    (h : Reaches (guarded WritesRows step) (new stream table recoveredAckedLsn) w) : Inv w :=
  h.invariant_guarded (I := Inv) (inv_new stream table recoveredAckedLsn) fun _ _ _ hw ↦ hw.step

/-! ## What a step adds -/

/-- The data events that have been handled. -/
def seen (w : SinkWorker) : List DataEvent := w.past ++ w.handled

/-- What is new after a step was received in it, or had been in hand. -/
structure Advances (w : SinkWorker) (a : WorkerAction) (w' : SinkWorker) : Prop where
  acked : w.ackedLsn ≤ w'.ackedLsn
  seen : ∀ e ∈ w.seen, e ∈ w'.seen
  new : ∀ e ∈ w'.seen, e ∈ w.seen ∨ w.pc.inHand = some (.data e)
  inHand : ∀ x, w'.pc.inHand = some x → w.pc.inHand = some x ∨ a = .receive x
  files : ∀ f ∈ w'.buffer.flushFiles,
    f ∈ w.buffer.flushFiles ∨ f ∈ w'.seen ∨ ∃ table, a = .receive (.degrade table f)

variable {a : WorkerAction} {c : SinkConnector} {b : CheckpointBarrier}

theorem advances_pc {pc : WorkerPc}
    (h : ∀ x, pc.inHand = some x → w.pc.inHand = some x ∨ a = .receive x) :
    w.Advances a { w with connector := c, pc := pc } :=
  ⟨le_rfl, fun _ ↦ id, fun _ ↦ .inl, h, fun _ ↦ .inl⟩

theorem advances_recoverOrFail (h : w.pc.inHand = k.inHand)
    (failure : String) (err : SinkError) :
    w.Advances a ({ w with connector := c }.recoverOrFail failure k err) := by
  cases err with
  | fatal => exact advances_pc nofun
  | transient => exact advances_pc fun x hx ↦ .inl (h.trans hx)

theorem advances_record (h : w.pc.inHand = some (.data event)) :
    w.Advances a ({ w with connector := c }.record event) := by
  have hseen : ({ w with connector := c }.record event).seen = w.seen ++ [event] :=
    (append_assoc ..).symm
  refine ⟨le_rfl, fun e he ↦ ?_, fun e he ↦ ?_, nofun, fun f hf ↦ ?_⟩
  · exact hseen ▸ mem_append_left _ he
  · rw [hseen, mem_append, mem_singleton] at he
    exact he.imp_right fun heq ↦ by rw [heq, h]
  · cases event with
    | insert | watermark => exact .inl hf
    | flushFile lsn =>
      have hf : f ∈ if w.ackedLsn < lsn.maxLsn then w.buffer.flushFiles ++ [_]
        else w.buffer.flushFiles := hf
      split_ifs at hf
      · refine (mem_append.mp hf).imp_right fun hf ↦ .inl ?_
        exact hseen ▸ mem_append_right _ hf
      · exact .inl hf

theorem advances_replayInto (h : w.pc.inHand = k.inHand) (rest : List DataEvent) :
    w.Advances a ({ w with connector := c }.replayInto k rest) := by
  cases rest with
  | cons => exact advances_pc fun x hx ↦ .inl (h.trans hx)
  | nil =>
    cases k with
    | record => exact advances_record h
    | sink | commit => exact advances_pc fun x hx ↦ .inl (h.trans hx)

theorem advances_afterCommit :
    w.Advances a ({ w with connector := c }.afterCommit b) := by
  have hseen : ({ w with connector := c }.afterCommit b).seen = w.seen := append_nil _
  refine ⟨ackedLsn_le_afterCommit .., fun e he ↦ ?_, fun e he ↦ ?_, nofun, nofun⟩
  · rwa [hseen]
  · exact .inl (hseen ▸ he)

theorem advances_handleEvent (event : PipelineEvent) :
    w.Advances (.receive event) (w.handleEvent event) := by
  cases event with
  | data | barrier => exact advances_pc fun x hx ↦ .inr (congrArg _ (some.inj hx))
  | stale => exact advances_pc fun x hx ↦ .inl hx
  | degrade table d =>
    refine ⟨le_rfl, fun _ ↦ id, fun _ ↦ .inl, fun x hx ↦ .inl hx, fun f hf ↦ ?_⟩
    cases d with
    | insert | watermark => exact .inl hf
    | flushFile =>
      refine (mem_append.mp hf).imp_right fun hf ↦ .inr ⟨table, ?_⟩
      rw [mem_singleton.mp hf]

theorem advances_of_step (h : w.step a = some w') : w.Advances a w' := by
  cases moves_of_step h with
  | stay => exact advances_pc fun x hx ↦ .inl hx
  | turn _ hpc => rcases hpc with rfl | rfl <;> exact advances_pc nofun
  | finish | begin => exact advances_pc nofun
  | receive => exact advances_handleEvent _
  | write hpc => exact advances_record (by rw [hpc]; rfl)
  | commit => exact advances_afterCommit
  | reset hpc | replay hpc => exact advances_replayInto (by rw [hpc]; rfl) _
  | fail _ hk => exact advances_recoverOrFail (congrArg Continuation.inHand hk) _ _

/-! ## What a commit reports -/

section

variable (w : SinkWorker)

/-- The LSN is acknowledged, or that of an event that was handled lies at or behind it. -/
def Covers (lsn : ℕ) : Prop :=
  lsn ≤ w.ackedLsn ∨ ∃ e ∈ w.seen, lsn ≤ e.maxLsn

instance (lsn : ℕ) : Decidable (w.Covers lsn) :=
  inferInstanceAs (Decidable (_ ∨ _))

/-- What the dispatcher sends goes by its cursor: rows at or below the acknowledged LSN are not sent
as data, and neither a degraded file nor a barrier is ahead of the events that were sent. -/
def FollowsCursor : WorkerAction → Prop
  | .receive (.data event) => event.isWatermark = true ∨ w.ackedLsn < event.maxLsn
  | .receive (.degrade _ event) => w.Covers event.maxLsn
  | .receive (.barrier b) => w.Covers b.watermarkLsn
  | _ => True

/-- Both conditions. -/
def Reports (a : WorkerAction) : Prop := w.WritesRows a ∧ w.FollowsCursor a

instance (a : WorkerAction) : Decidable (w.Reports a) := by
  unfold Reports FollowsCursor
  split <;> infer_instance

end

/-- Whatever the next commit may report is covered. -/
structure Tracked (w : SinkWorker) : Prop where
  files : ∀ f ∈ w.buffer.flushFiles, w.Covers f.maxLsn
  barrier : ∀ b, w.pc.inHand = some (.barrier b) → w.Covers b.watermarkLsn

theorem Advances.covers {lsn : ℕ} (h : w.Advances a w') (hlsn : w.Covers lsn) : w'.Covers lsn :=
  hlsn.imp (fun hle ↦ hle.trans h.acked) fun ⟨e, he, hle⟩ ↦ ⟨e, h.seen e he, hle⟩

theorem Tracked.step (hw : w.Tracked) (hok : w.FollowsCursor a) (h : w.step a = some w') :
    w'.Tracked := by
  have hadv := advances_of_step h
  refine ⟨fun f hf ↦ ?_, fun b hb ↦ ?_⟩
  · rcases hadv.files f hf with hf | hf | ⟨table, rfl⟩
    · exact hadv.covers (hw.files f hf)
    · exact .inr ⟨f, hf, le_rfl⟩
    · exact hadv.covers hok
  · rcases hadv.inHand _ hb with hb | rfl
    · exact hadv.covers (hw.barrier b hb)
    · exact hadv.covers hok

/-- Whatever is handled from here on is past the LSN, but for the events of the list. -/
structure Past (lsn : ℕ) (old : List DataEvent) (w : SinkWorker) : Prop where
  acked : lsn ≤ w.ackedLsn
  new : ∀ e, e ∈ w.seen ∨ w.pc.inHand = some (.data e) → e.isWatermark = false →
    e ∈ old ∨ lsn < e.maxLsn

theorem Past.step {lsn : ℕ} {old : List DataEvent} (hw : Past lsn old w) (hok : w.FollowsCursor a)
    (h : w.step a = some w') : Past lsn old w' := by
  have hadv := advances_of_step h
  refine ⟨hw.acked.trans hadv.acked, fun e he hrows ↦ ?_⟩
  rcases he with he | he
  · exact hw.new e (hadv.new e he) hrows
  · rcases hadv.inHand _ he with he | rfl
    · exact hw.new e (.inr he) hrows
    · exact .inr (hw.acked.trans_lt (hok.resolve_left fun h ↦ by rw [h] at hrows; cases hrows))

/-! ## Commits -/

/-- **A successful commit publishes what was handled.** In every run in which no write of rows fails
transiently in `handle_event` and no acknowledged file is received, each successful commit publishes
the rows of every data event handled since the one before it. If the dispatcher keeps to its cursor
as well, the LSN that it reports does not lie past the events that were handled, and an event with
rows that it covers, handled now or later, was handled before the commit and its rows are
published. -/
theorem commit_publishes_handled {stream table : String} {recoveredAckedLsn : ℕ}
    {w w' : SinkWorker} {b : CheckpointBarrier} (hpc : w.pc = .committing b)
    (hcommit : w.step (.returns (.ok ())) = some w') :
    (Reaches (guarded WritesRows step) (new stream table recoveredAckedLsn) w →
      ∀ event ∈ w.handled, event.ownRows ⊆ w'.connector.publishedRows) ∧
    (Reaches (guarded Reports step) (new stream table recoveredAckedLsn) w →
      ∀ m, w'.progress = w.progress ++ [m] →
        (∃ event ∈ w.seen, m.lsn ≤ event.maxLsn) ∧
        ∀ u, Reaches (guarded Reports step) w' u → ∀ event ∈ u.seen,
          event.isWatermark = false → event.maxLsn ≤ m.lsn →
            event ∈ w.seen ∧ event.ownRows ⊆ w'.connector.publishedRows) := by
  have hnext : w' = { w with connector := w.connector.commitTxn }.afterCommit b :=
    some.inj (hcommit.symm.trans (onReturn_committing hpc))
  have hall (hw : Inv w) : rowsOf w.seen ⊆ w'.connector.publishedRows := by
    have hat := hw.atPc
    rw [hpc] at hat
    rw [hnext]
    exact publishedRows_commitTxn hw.toKept hat
  constructor
  · intro h event hev
    exact (ownRows_subset_of_mem (mem_append_right _ hev)).trans (hall (inv_of_reaches h))
  intro h m hm
  have hinv : Inv w ∧ w.Tracked := h.invariant_guarded (I := fun w ↦ Inv w ∧ w.Tracked)
    ⟨inv_new .., nofun, nofun⟩
    fun _ _ _ hw hok hstep ↦ ⟨hw.1.step hok.1 hstep, hw.2.step hok.2 hstep⟩
  have hadv := advances_of_step hcommit
  -- the report is the LSN that is acknowledged now
  have hack : m.lsn = w'.ackedLsn ∧ w.ackedLsn < m.lsn ∧ w.Covers m.lsn := by
    rw [hnext, afterCommit, append_cancel_left_eq] at hm
    rw [hnext, ackedLsn_afterCommit]
    rcases progressAfterCommit_cases _ b with hp | ⟨lsn, hp, hlt, hwhich⟩
    · rw [hp] at hm
      cases hm
    rw [hp] at hm ⊢
    cases hm
    refine ⟨rfl, hlt, ?_⟩
    rcases hwhich with ⟨rfl, -⟩ | ⟨e, he, rfl⟩
    · exact hinv.2.barrier b (by rw [hpc]; rfl)
    · exact hinv.2.files e he
  obtain ⟨hlsn, hlt, hcov⟩ := hack
  refine ⟨hcov.resolve_left (Nat.not_le.mpr hlt), fun u hu event hev hrows hle ↦ ?_⟩
  have hpast : Past m.lsn w.seen u := by
    refine hu.invariant_guarded (I := Past m.lsn w.seen) ⟨hlsn.le, fun e he _ ↦ ?_⟩
      fun _ _ _ hu hok ↦ hu.step hok.2
    have hold := he.resolve_right (by rw [hnext]; exact nofun)
    exact .inl ((hadv.new e hold).resolve_right (by rw [hpc]; nofun))
  have hold := (hpast.new event (.inl hev) hrows).resolve_right (Nat.not_lt.mpr hle)
  exact ⟨hold, (ownRows_subset_of_mem hold).trans (hall hinv.1)⟩

/-- A row of the log with LSN 1, and a barrier up to it. -/
def insertOne : DataEvent := .insert (.single 1) .resident

def barrierOne : CheckpointBarrier := (CheckpointBarrier.new "cpu").recordEvent "cpu" (.watermark 1)

/-- A commit fails, and so does the first write of the recovery. -/
def failedCommit : List WorkerAction :=
  [.returns (.ok ()), .receive (.data insertOne), .returns (.ok ()),
    .receive (.barrier barrierOne), .returns (.error (.transient "timeout")), .returns (.ok ()),
    .returns (.error (.transient "timeout")), .returns (.ok ()), .returns (.ok ())]

/-- After the second recovery the commit publishes the row and reports it. -/
theorem commit_publishes_after_recovery :
    ∃ w w', Reaches (guarded Reports step) (new "metrics" "cpu" 0) w ∧
      w.pc = .committing barrierOne ∧ w.step (.returns (.ok ())) = some w' ∧
      w.handled = [insertOne] ∧ insertOne.ownRows ⊆ w'.connector.publishedRows ∧
      w'.progress = w.progress ++ [⟨"metrics", "cpu", 1, 0⟩] ∧
      ∃ event ∈ w.seen, 1 ≤ event.maxLsn := by
  have hrun : Reaches (guarded Reports step) (new "metrics" "cpu" 0) _ :=
    reaches_of_run failedCommit rfl
  have hwrites : Reaches (guarded WritesRows step) (new "metrics" "cpu" 0) _ :=
    reaches_of_run failedCommit rfl
  refine ⟨_, _, hrun, rfl, rfl, rfl, ?_, rfl, ?_⟩
  · exact (commit_publishes_handled rfl rfl).1 hwrites insertOne (mem_singleton_self _)
  · exact ((commit_publishes_handled rfl rfl).2 hrun _ rfl).1

/-- The write of the row fails. The recovery has nothing to replay, the barrier commits an empty
transaction, and LSN 1 is reported. -/
theorem commit_after_failed_write_loses_insert :
    ∃ w w', Reaches step (new "metrics" "cpu" 0) w ∧ w.pc = .committing barrierOne ∧
      w.step (.returns (.ok ())) = some w' ∧ insertOne ∈ w.handled ∧
      w'.progress = w.progress ++ [⟨"metrics", "cpu", 1, 0⟩] ∧ insertOne.maxLsn ≤ 1 ∧
      ¬insertOne.ownRows ⊆ w'.connector.publishedRows := by
  have hrun : Reaches step (new "metrics" "cpu" 0) _ := reaches_of_run
    [.returns (.ok ()), .receive (.data insertOne), .returns (.error (.transient "timeout")),
      .returns (.ok ()), .receive (.barrier barrierOne)] rfl
  refine ⟨_, _, hrun, rfl, rfl, mem_singleton_self _, rfl, le_rfl, fun hsub ↦ ?_⟩
  have hrow : Row.logged 1 ∈ insertOne.ownRows := ⟨1, ⟨le_rfl, le_rfl⟩, rfl⟩
  obtain ⟨_, htxn, _, he, -⟩ := hsub hrow
  obtain rfl := mem_singleton.mp htxn
  exact absurd he not_mem_nil

end SinkWorker

end MonoTS
