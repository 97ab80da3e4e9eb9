import MonoTS.Table.Bounds

/-!
# The bootstrap of a stream

`CREATE STREAM` registers a source with a table. Under the write lock it flushes all memtables and
passes every SST of the index to the source; then it releases the lock, puts the listener into the
hub and the hub's capturer into the table. From there on the callbacks of flushes and bulk loads
reach the listener. The two halves have no lock in common: a file whose callback is made after the
scan of the index and before the capturer is there is in neither of them.

The machine is that of the table, with the callbacks as steps of their own, the compaction passes
and the registration. `delivered_of_noneMissed` says that nothing is missed when no such callback
falls into the gap. Writes may: they are captured with their memtable. Compaction passes do no harm
either, unless one has lost its inputs from the index to another one before the scan.
-/

open Transition List Option

namespace MonoTS

open Table

variable {Batch : Type*}

/-! ## The machine -/

/-- A callback of the table's capturer that a listener gets to see. The end of a memtable, which has
no rows, is left out. -/
inductive CaptureEvent (Batch : Type*) where
  | insert (write : Write Batch)
  | flush (file : Sst (Write Batch))
  | bulkLoad (file : Sst (Write Batch))
  | compact (file : Sst (Write Batch))

/-- The writes in an event. -/
def CaptureEvent.contents : CaptureEvent Batch → List (Write Batch)
  | .insert write => [write]
  | .flush file | .bulkLoad file | .compact file => file.contents

/-- Where `register_capture_source` is. -/
inductive RegisterPc (Batch : Type*) where
  | idle
  /-- It holds the write lock. -/
  | locked
  /-- `flush_all` has frozen the memtable and drains the queue. -/
  | draining
  /-- It holds the flush lock too, and has yet to go through these files. -/
  | scanning (rest : List (Sst (Write Batch)))
  /-- The locks are released. -/
  | released
  /-- The hub has the listener. -/
  | listening
  /-- The table has the capturer. -/
  | done

namespace RegisterPc

def holdsWriteLock : RegisterPc Batch → Bool
  | .locked | .draining | .scanning _ => true
  | .idle | .released | .listening | .done => false

def holdsFlushLock : RegisterPc Batch → Bool
  | .scanning _ => true
  | _ => false

/-- The files to go through have been read off the index. -/
def scanned : RegisterPc Batch → Bool
  | .scanning _ | .released | .listening | .done => true
  | .idle | .locked | .draining => false

/-- The hub's capturer has the listener. -/
def listens : RegisterPc Batch → Bool
  | .listening | .done => true
  | .idle | .locked | .draining | .scanning _ | .released => false

/-- The files that are yet to be passed on. -/
def rest : RegisterPc Batch → List (Sst (Write Batch))
  | .scanning rest => rest
  | .idle | .locked | .draining | .released | .listening | .done => []

end RegisterPc

/-- A compaction pass that has merged its inputs. -/
structure MergePass (Batch : Type*) where
  inputs : List (Sst (Write Batch))
  output : Sst (Write Batch)
  captured : Bool

/-- A table, the compaction passes at work on it, and the registration of a source. -/
structure Capturing (Batch : Type*) where
  table : Table Batch
  /-- The holder of the write lock has made its callback, `on_insert` or `on_bulk_load`. -/
  writerCalled : Bool
  /-- The holder of the flush lock has made its callback, `on_flush`. -/
  flusherCalled : Bool
  passes : List (MergePass Batch)
  /-- The table has the capturer of the hub: a stream is registered, this one or another. -/
  capturer : Bool
  pc : RegisterPc Batch
  /-- The files passed to `on_historical_sst`. -/
  historical : List (Sst (Write Batch))
  /-- What the listener got. -/
  events : List (CaptureEvent Batch)

/-- A step of the table, a pass or the registration. -/
inductive CaptureAction (Batch : Type*) where
  | table (a : TableAction Batch)
  | writerCall
  | flusherCall
  /-- A pass picks files and merges them; it keeps these of their writes. -/
  | mergeFiles (inputs : List (Sst (Write Batch))) (kept : List (Write Batch))
  | mergeCall (pass : ℕ)
  /-- `replace_range`, after which these of the files are left. Which ones it removes depends on
  their places in the index, which are left open here. -/
  | mergeReplace (pass : ℕ) (left : List (Sst (Write Batch)))
  | lockWrites
  | freeze
  | scan
  /-- A flush of `flush_all` has failed. -/
  | fail
  | historicalSst
  | release
  | setListener
  | setCapturer

/-- A bulk load has its LSN and is about to add a file. -/
def WriterPc.loads : WriterPc Batch → Bool
  | .bulkAllocated _ _ _ => true
  | _ => false

namespace Capturing

variable (shape : BatchShape Batch) (captureWal : Bool) (s : Capturing Batch)

/-- A callback of the table reaches the listener. -/
def attached : Bool := s.capturer && s.pc.listens

variable (event : CaptureEvent Batch)

/-- The callback is made; a file without LSNs is not passed on. -/
def notify (wanted : Bool) : List (CaptureEvent Batch) :=
  if s.attached && wanted then s.events ++ [event] else s.events

/-- The state after a callback of the holder of one of the locks. -/
def called (wanted writer flusher : Bool) : Capturing Batch :=
  { s with
    events := s.notify event wanted
    writerCalled := writer
    flusherCalled := flusher }

/-- The locks and callbacks that the step of the table has to wait for. -/
def allows : TableAction Batch → Bool
  | .putAppend _ | .reclaimFreeze | .bulkBegin _ => !s.pc.holdsWriteLock
  | .flushAllFreeze | .flushFront => !s.pc.holdsFlushLock
  | .putSwitch | .putSwitchFail | .putReturn | .bulkPublish => s.writerCalled
  | .flushApply => s.flusherCalled
  | _ => true

/-- The next step of the same party makes a callback of its own. -/
def afterTable (a : TableAction Batch) (t : Table Batch) : Capturing Batch :=
  { s with
    table := t
    writerCalled := match a with
      | .putSwitchFail | .putReturn | .bulkPublish => false
      | _ => s.writerCalled
    flusherCalled := match a with
      | .flushApply => false
      | _ => s.flusherCalled }

/-- The span of the output is that of all inputs. -/
def mergedSst (inputs : List (Sst (Write Batch))) (kept : List (Write Batch)) : Sst (Write Batch) :=
  ⟨(inputs.map Sst.baseLsn).min?.getD 0, maxLsnInSstMetas inputs, kept⟩

def step [DecidableEq Batch] (s : Capturing Batch) : CaptureAction Batch → Option (Capturing Batch)
  | .table a => if s.allows a then (s.table.step shape a).map (s.afterTable a) else none
  | .writerCall =>
    if s.writerCalled then none
    else
      match s.table.writer with
      | .inserted write _ => some (s.called (.insert write) captureWal true s.flusherCalled)
      | .bulkAllocated lsn rows _ =>
        let file := bulkSst lsn rows
        some (s.called (.bulkLoad file) file.hasLsnBounds true s.flusherCalled)
      | _ => none
  | .flusherCall =>
    if s.flusherCalled then none
    else
      match s.table.flusher with
      | .written _ file => some (s.called (.flush file) file.hasLsnBounds s.writerCalled true)
      | _ => none
  | .mergeFiles inputs kept =>
    if 2 ≤ inputs.length ∧ (∀ f ∈ inputs, f ∈ s.table.sstables) ∧
        ∀ w ∈ kept, ∃ f ∈ inputs, w ∈ f.contents then
      some { s with passes := s.passes ++ [⟨inputs, mergedSst inputs kept, false⟩] }
    else none
  | .mergeCall i => match s.passes[i]? with
    | some pass =>
      if pass.captured then none
      else
        some
          { s.called (.compact pass.output) pass.output.hasLsnBounds s.writerCalled
              s.flusherCalled with
            passes := s.passes.set i { pass with captured := true } }
    | none => none
  | .mergeReplace i left => match s.passes[i]? with
    | some pass =>
      if pass.captured ∧ ∀ f ∈ left, f ∈ s.table.sstables then
        some
          { s with
            passes := s.passes.eraseIdx i
            table := { s.table with sstables := left ++ [pass.output] } }
      else none
    | none => none
  | .lockWrites => match s.pc, s.table.writer with
    | .idle, .idle => some { s with pc := .locked }
    | _, _ => none
  | .freeze => match s.pc, s.table.flusher with
    | .locked, .idle => some { s with table := s.table.freeze, pc := .draining }
    | _, _ => none
  | .scan => match s.pc, s.table.flusher, s.table.immutables with
    | .draining, .idle, [] => some { s with pc := .scanning s.table.sstables }
    | _, _, _ => none
  | .fail => match s.pc with
    | .draining => some { s with pc := .idle }
    | _ => none
  | .historicalSst => match s.pc with
    | .scanning (file :: rest) =>
      some
        { s with
          pc := .scanning rest
          historical := if file.hasLsnBounds then s.historical ++ [file] else s.historical }
    | _ => none
  | .release => match s.pc with
    | .scanning [] => some { s with pc := .released }
    | _ => none
  | .setListener => match s.pc with
    | .released => some { s with pc := .listening }
    | _ => none
  | .setCapturer => match s.pc with
    | .listening => some { s with pc := .done, capturer := true }
    | _ => none

/-- A table with these files, on which another stream may be registered. -/
def initial (sstables : List (Sst (Write Batch))) (nextLsn : ℕ) (capturer : Bool) :
    Capturing Batch where
  table := .initial sstables nextLsn
  writerCalled := false
  flusherCalled := false
  passes := []
  capturer := capturer
  pc := .idle
  historical := []
  events := []

/-- The write is in a file passed to `on_historical_sst`, or in an event. -/
def Delivered (w : Write Batch) : Prop :=
  (∃ f ∈ s.historical, w ∈ f.contents) ∨ ∃ event ∈ s.events, w ∈ event.contents

instance [DecidableEq Batch] (s : Capturing Batch) (w : Write Batch) : Decidable (s.Delivered w) :=
  inferInstanceAs (Decidable (_ ∨ _))

/-- No file is captured between the scan of the index and the attachment, and the passes that have
begun before the scan have their inputs in the index by then. -/
def NoneMissed : CaptureAction Batch → Prop
  | .flusherCall => s.pc.scanned → s.attached
  | .writerCall => s.table.writer.loads → s.pc.scanned → s.attached
  | .scan => ∀ pass ∈ s.passes, ∀ f ∈ pass.inputs, f ∈ s.table.sstables
  | _ => True

end Capturing

/-! ## The invariant -/

namespace Capturing

variable {shape : BatchShape Batch} {captureWal : Bool} {s s' : Capturing Batch}

/-- The writes are delivered, or are in a file that is yet to be passed on. -/
def Covers (s : Capturing Batch) (writes : List (Write Batch)) : Prop :=
  ∀ w ∈ writes, s.Delivered w ∨ ∃ f ∈ s.pc.rest, w ∈ f.contents

/-- What is in the index is covered, and so is what is on its way there. -/
structure Captured (s : Capturing Batch) : Prop where
  ssts : ∀ f ∈ s.table.sstables, s.Covers f.contents
  merged : ∀ pass ∈ s.passes, s.Covers pass.output.contents
  flushed : s.flusherCalled → ∀ mem f, s.table.flusher = .written mem f → s.Covers f.contents
  loaded : s.writerCalled → ∀ lsn rows files, s.table.writer = .bulkAllocated lsn rows files →
    s.Covers (bulkSst lsn rows).contents

/-- What every step keeps. -/
structure Inv (s : Capturing Batch) : Prop where
  wf : s.table.WellFormed
  bounded : s.table.Bounded
  locked : s.pc.holdsWriteLock → s.table.writer = .idle
  writerFlag : s.writerCalled → (∃ write rotate, s.table.writer = .inserted write rotate) ∨
    ∃ lsn rows files, s.table.writer = .bulkAllocated lsn rows files
  flusherFlag : s.flusherCalled → ∃ mem f, s.table.flusher = .written mem f
  outputs : ∀ pass ∈ s.passes, 0 < pass.output.maxLsn ∧
    ∀ w ∈ pass.output.contents, ∃ f ∈ pass.inputs, w ∈ f.contents
  rest : ∀ f ∈ s.pc.rest, 0 < f.maxLsn
  captured : s.pc.scanned → s.Captured

variable {writes : List (Write Batch)} {event : CaptureEvent Batch}

theorem Covers.mono (h : s.Covers writes) (hhist : ∀ f ∈ s.historical, f ∈ s'.historical)
    (hevs : ∀ e ∈ s.events, e ∈ s'.events)
    (hrest : ∀ f ∈ s.pc.rest, f ∈ s'.pc.rest ∨ f ∈ s'.historical) : s'.Covers writes := by
  intro w hw
  rcases h w hw with (⟨f, hf, hmem⟩ | ⟨e, he, hmem⟩) | ⟨f, hf, hmem⟩
  · exact .inl (.inl ⟨f, hhist f hf, hmem⟩)
  · exact .inl (.inr ⟨e, hevs e he, hmem⟩)
  · exact (hrest f hf).elim (fun hf ↦ .inr ⟨f, hf, hmem⟩) fun hf ↦ .inl (.inl ⟨f, hf, hmem⟩)

/-- A step that keeps the table and the passes, and forgets nothing. -/
theorem Captured.mono (h : s.Captured) (htab : s'.table = s.table)
    (hpasses : s'.passes = s.passes) (hwr : s'.writerCalled = s.writerCalled)
    (hfl : s'.flusherCalled = s.flusherCalled)
    (hcov : ∀ writes, s.Covers writes → s'.Covers writes) : s'.Captured := by
  refine ⟨?_, ?_, ?_, ?_⟩
  · rw [htab]
    exact fun f hf ↦ hcov _ (h.ssts f hf)
  · rw [hpasses]
    exact fun pass hpass ↦ hcov _ (h.merged pass hpass)
  · rw [htab, hfl]
    exact fun hcall mem f hf ↦ hcov _ (h.flushed hcall mem f hf)
  · rw [htab, hwr]
    exact fun hcall lsn rows files hw ↦ hcov _ (h.loaded hcall lsn rows files hw)

theorem mem_notify {e : CaptureEvent Batch} {wanted : Bool} (h : e ∈ s.events) :
    e ∈ s.notify event wanted := by
  unfold notify
  split_ifs
  · exact mem_append_left _ h
  · exact h

theorem mem_notify_self {wanted : Bool} (hatt : s.attached) (hwant : wanted) :
    event ∈ s.notify event wanted := by
  rw [notify, hatt, hwant]
  exact mem_append_right _ mem_cons_self

section

variable {a : TableAction Batch} {t : Table Batch}

theorem writerCalled_afterTable (h : (s.afterTable a t).writerCalled) :
    s.writerCalled ∧ a ≠ .putSwitchFail ∧ a ≠ .putReturn ∧ a ≠ .bulkPublish := by
  unfold afterTable at h
  split at h
  · cases h
  · cases h
  · cases h
  · next h1 h2 h3 => exact ⟨h, h1, h2, h3⟩

theorem flusherCalled_afterTable (h : (s.afterTable a t).flusherCalled) :
    s.flusherCalled ∧ a ≠ .flushApply := by
  unfold afterTable at h
  dsimp only at h
  split at h
  · cases h
  · next hne => exact ⟨h, hne⟩

/-- A file gets into the index after its callback. -/
theorem Captured.table (h : s.Captured) (hinv : s.Inv) (hal : s.allows a)
    (ht : Table.Trans shape s.table a t) : (s.afterTable a t).Captured where
  ssts := by
    intro f hf
    rcases sstables_of_trans ht hf with
      hf | ⟨rfl, mem, hpc⟩ | ⟨rfl, lsn, rows, files, hpc, rfl⟩
    · exact h.ssts f hf
    · exact h.flushed hal mem f hpc
    · exact h.loaded hal lsn rows files hpc
  merged := h.merged
  flushed := by
    intro hcall mem f hf
    obtain ⟨hcall, hne⟩ := flusherCalled_afterTable hcall
    obtain ⟨_, _, hpc⟩ := hinv.flusherFlag hcall
    obtain ⟨rfl, rfl⟩ := FlusherPc.written.inj ((flusher_of_written ht hpc hne).symm.trans hf)
    exact h.flushed hcall _ _ hpc
  loaded := by
    intro hcall lsn rows files hw
    obtain ⟨hcall, hfail, hret, hpub⟩ := writerCalled_afterTable hcall
    rcases hinv.writerFlag hcall with ⟨_, _, hpc⟩ | ⟨_, _, _, hpc⟩
    · obtain ⟨_, _, hpc'⟩ := writer_of_inserted ht hpc hfail hret
      cases hpc'.symm.trans hw
    · obtain ⟨rfl, rfl, rfl⟩ := WriterPc.bulkAllocated.inj
        ((writer_of_bulkAllocated ht hpc hpub).symm.trans hw)
      exact h.loaded hcall _ _ _ hpc

theorem Inv.table (h : s.Inv) (hal : s.allows a) (ht : Table.Trans shape s.table a t) :
    (s.afterTable a t).Inv := by
  refine ⟨h.wf.trans ht, h.bounded.trans h.wf ht, ?_, ?_, ?_, h.outputs, h.rest, ?_⟩
  · intro hlock
    have hheld : (!s.pc.holdsWriteLock) = false := congrArg _ hlock
    refine writer_of_idle ht (h.locked hlock) ?_ ?_
    · rintro batch rfl
      exact absurd hal (Bool.eq_false_iff.mp hheld)
    · rintro files rfl
      exact absurd hal (Bool.eq_false_iff.mp hheld)
  · intro hcall
    obtain ⟨hcall, hfail, hret, hpub⟩ := writerCalled_afterTable hcall
    rcases h.writerFlag hcall with ⟨_, _, hpc⟩ | ⟨lsn, rows, files, hpc⟩
    · exact .inl (writer_of_inserted ht hpc hfail hret)
    · exact .inr ⟨lsn, rows, files, writer_of_bulkAllocated ht hpc hpub⟩
  · intro hcall
    obtain ⟨hcall, hne⟩ := flusherCalled_afterTable hcall
    obtain ⟨mem, f, hpc⟩ := h.flusherFlag hcall
    exact ⟨mem, f, flusher_of_written ht hpc hne⟩
  · intro hscan
    exact (h.captured hscan).table h hal ht

end

/-! ## Callbacks -/

variable {event : CaptureEvent Batch} {wanted writer flusher : Bool}

theorem Covers.called (h : s.Covers writes) :
    (s.called event wanted writer flusher).Covers writes :=
  h.mono (fun _ hf ↦ hf) (fun _ he ↦ mem_notify he) fun _ hf ↦ .inl hf

theorem covers_called (event : CaptureEvent Batch) (hatt : s.attached) (hwant : wanted) :
    (s.called event wanted writer flusher).Covers event.contents :=
  fun _ hw ↦ .inl (.inr ⟨event, mem_notify_self hatt hwant, hw⟩)

theorem Captured.called (h : s.Captured)
    (hfl : flusher → s.flusherCalled ∨ ∀ mem f, s.table.flusher = .written mem f →
      (s.called event wanted writer flusher).Covers f.contents)
    (hwr : writer → s.writerCalled ∨ ∀ lsn rows files,
      s.table.writer = .bulkAllocated lsn rows files →
        (s.called event wanted writer flusher).Covers (bulkSst lsn rows).contents) :
    (s.called event wanted writer flusher).Captured where
  ssts f hf := (h.ssts f hf).called
  merged pass hpass := (h.merged pass hpass).called
  flushed hcall mem f hf := (hfl hcall).elim
    (fun hcall ↦ (h.flushed hcall mem f hf).called) fun hcov ↦ hcov mem f hf
  loaded hcall lsn rows files hw := (hwr hcall).elim
    (fun hcall ↦ (h.loaded hcall lsn rows files hw).called) fun hcov ↦
      hcov lsn rows files hw

variable {file : Sst (Write Batch)} {pass : MergePass Batch}

section

variable (h : s.Inv)

include h

theorem Inv.flusherCall (hok : s.NoneMissed .flusherCall) {mem : ℕ}
    (hpc : s.table.flusher = .written mem file) :
    (s.called (.flush file) file.hasLsnBounds s.writerCalled true).Inv := by
  refine ⟨h.wf, h.bounded, h.locked, h.writerFlag, fun _ ↦ ⟨mem, file, hpc⟩, h.outputs, h.rest, ?_⟩
  intro hscan
  refine (h.captured hscan).called (fun _ ↦ .inr fun mem' f hf ↦ ?_) .inl
  obtain ⟨-, rfl⟩ := FlusherPc.written.inj (hpc.symm.trans hf)
  have hfl := h.bounded.flusher
  rw [Table.FlusherBounded, hpc] at hfl
  exact covers_called (.flush file) (hok hscan) (Sst.hasLsnBounds_of_pos hfl)

theorem Inv.insertCall {write : Write Batch} {rotate : Bool}
    (hpc : s.table.writer = .inserted write rotate) :
    (s.called (.insert write) wanted true s.flusherCalled).Inv := by
  refine ⟨h.wf, h.bounded, h.locked, fun _ ↦ .inl ⟨write, rotate, hpc⟩, h.flusherFlag, h.outputs,
    h.rest, fun hscan ↦ ?_⟩
  refine (h.captured hscan).called .inl fun _ ↦ .inr fun lsn rows files hw ↦ ?_
  cases hpc.symm.trans hw

theorem Inv.bulkCall {lsn : ℕ} {rows : List Batch} {files : List (List Batch)}
    (hok : s.pc.scanned → s.attached) (hpc : s.table.writer = .bulkAllocated lsn rows files) :
    (s.called (.bulkLoad (bulkSst lsn rows)) (bulkSst lsn rows).hasLsnBounds true
      s.flusherCalled).Inv := by
  refine ⟨h.wf, h.bounded, h.locked, fun _ ↦ .inr ⟨lsn, rows, files, hpc⟩, h.flusherFlag, h.outputs,
    h.rest, fun hscan ↦ ?_⟩
  refine (h.captured hscan).called .inl fun _ ↦ .inr fun lsn' rows' files' hw ↦ ?_
  obtain ⟨rfl, rfl, -⟩ := WriterPc.bulkAllocated.inj (hpc.symm.trans hw)
  have hwr := h.bounded.writer
  rw [Table.WriterBounded, hpc] at hwr
  exact covers_called (.bulkLoad (bulkSst lsn rows)) (hok hscan) (Sst.hasLsnBounds_of_pos hwr)

/-! ## Merges -/

theorem Inv.mergeFiles {inputs : List (Sst (Write Batch))} {kept : List (Write Batch)}
    (hlen : 2 ≤ inputs.length) (hin : ∀ f ∈ inputs, f ∈ s.table.sstables)
    (hkept : ∀ w ∈ kept, ∃ f ∈ inputs, w ∈ f.contents) :
    ({ s with passes := s.passes ++ [⟨inputs, mergedSst inputs kept, false⟩] } :
      Capturing Batch).Inv := by
  obtain ⟨f, hf⟩ := exists_mem_of_length_pos (Nat.zero_lt_two.trans_le hlen)
  have hpos := (h.bounded.ssts f (hin f hf)).trans_le (le_maxLsnInSstMetas hf)
  refine { h with
    outputs := forall_mem_append.mpr ⟨h.outputs, forall_mem_singleton.mpr ⟨hpos, hkept⟩⟩
    captured := fun hscan ↦ ?_ }
  have hcap := h.captured hscan
  refine { hcap with
    merged := forall_mem_append.mpr ⟨hcap.merged, forall_mem_singleton.mpr fun w hw ↦ ?_⟩ }
  obtain ⟨f, hf, hmem⟩ := hkept w hw
  exact hcap.ssts f (hin f hf) w hmem

theorem Inv.mergeCall {i : ℕ} {captured : Bool} (hpass : s.passes[i]? = some pass) :
    ({ s.called (.compact pass.output) wanted s.writerCalled s.flusherCalled with
      passes := s.passes.set i { pass with captured := captured } } : Capturing Batch).Inv := by
  -- the outputs stay the same
  have hsame : ∀ p ∈ s.passes.set i { pass with captured := captured },
      ∃ p' ∈ s.passes, p'.inputs = p.inputs ∧ p'.output = p.output := by
    intro p hp
    rcases mem_or_eq_of_mem_set hp with hp | rfl
    · exact ⟨p, hp, rfl, rfl⟩
    · exact ⟨pass, mem_of_getElem? hpass, rfl, rfl⟩
  refine ⟨h.wf, h.bounded, h.locked, h.writerFlag, h.flusherFlag, fun p hp ↦ ?_, h.rest,
    fun hscan ↦ ?_⟩
  · obtain ⟨p', hp', hin, hout⟩ := hsame p hp
    rw [← hin, ← hout]
    exact h.outputs p' hp'
  · have hcap : (s.called (.compact pass.output) wanted s.writerCalled
        s.flusherCalled).Captured := (h.captured hscan).called .inl .inl
    refine ⟨hcap.ssts, fun p hp ↦ ?_, hcap.flushed, hcap.loaded⟩
    obtain ⟨p', hp', -, hout⟩ := hsame p hp
    rw [← hout]
    exact hcap.merged p' hp'

theorem Inv.mergeReplace {i : ℕ} {left : List (Sst (Write Batch))}
    (hpass : s.passes[i]? = some pass) (hleft : ∀ f ∈ left, f ∈ s.table.sstables) :
    ({ s with
      passes := s.passes.eraseIdx i
      table := { s.table with sstables := left ++ [pass.output] } } : Capturing Batch).Inv := by
  have hmem := mem_of_getElem? hpass
  have hbdd : ({ s.table with sstables := left ++ [pass.output] } : Table Batch).Bounded := by
    refine ⟨h.bounded.nextLsn_pos, h.bounded.mems, h.bounded.writer, h.bounded.flusher, ?_⟩
    exact forall_mem_append.mpr
      ⟨fun f hf ↦ h.bounded.ssts f (hleft f hf), forall_mem_singleton.mpr (h.outputs pass hmem).1⟩
  refine ⟨⟨h.wf.nodup, h.wf.lt_nextId, h.wf.flusher⟩, hbdd, h.locked, h.writerFlag,
    h.flusherFlag, fun p hp ↦ h.outputs p (mem_of_mem_eraseIdx hp), h.rest,
    fun hscan ↦ ?_⟩
  have hcap := h.captured hscan
  refine ⟨forall_mem_append.mpr ⟨fun f hf ↦ hcap.ssts f (hleft f hf), ?_⟩, fun p hp ↦ ?_,
    hcap.flushed, hcap.loaded⟩
  · exact forall_mem_singleton.mpr (hcap.merged pass hmem)
  · exact hcap.merged p (mem_of_mem_eraseIdx hp)

/-! ## Steps of the registration -/

/-- A step of the registration that leaves the table alone and passes nothing on. -/
theorem Inv.move {pc : RegisterPc Batch} {capturer : Bool}
    (hlock : pc.holdsWriteLock → s.table.writer = .idle) (hrest : pc.rest = s.pc.rest)
    (hscan : pc.scanned → s.pc.scanned) :
    ({ s with pc := pc, capturer := capturer } : Capturing Batch).Inv := by
  refine ⟨h.wf, h.bounded, hlock, h.writerFlag, h.flusherFlag, h.outputs, ?_, fun hpc ↦ ?_⟩
  · intro f hf
    exact h.rest f (hrest ▸ hf)
  · refine (h.captured (hscan hpc)).mono rfl rfl rfl rfl fun writes hwrs ↦ ?_
    exact hwrs.mono (fun _ hf ↦ hf) (fun _ he ↦ he) fun f hf ↦ .inl (hrest.symm ▸ hf)

theorem Inv.freeze (hpc : s.pc = .locked) (hf : s.table.flusher = .idle) :
    ({ s with table := s.table.freeze, pc := .draining } : Capturing Batch).Inv := by
  have hw : s.table.writer = .idle := h.locked (by rw [hpc]; rfl)
  refine ⟨h.wf.freeze, h.bounded.freeze h.wf hf, fun _ ↦ (freeze_writer _).trans hw, ?_, ?_,
    h.outputs, nofun, nofun⟩
  · intro hcall
    rcases h.writerFlag hcall with ⟨_, _, hins⟩ | ⟨_, _, _, hbulk⟩
    · cases hw.symm.trans hins
    · cases hw.symm.trans hbulk
  · intro hcall
    obtain ⟨_, _, hwr⟩ := h.flusherFlag hcall
    cases hf.symm.trans hwr

/-- Both locks are held: nothing is on its way into the index but what the passes have merged from
files that are in it. -/
theorem Inv.scan (hok : s.NoneMissed .scan) (hpc : s.pc = .draining)
    (hf : s.table.flusher = .idle) :
    ({ s with pc := .scanning s.table.sstables } : Capturing Batch).Inv := by
  have hw : s.table.writer = .idle := h.locked (by rw [hpc]; rfl)
  refine ⟨h.wf, h.bounded, fun _ ↦ hw, h.writerFlag, h.flusherFlag, h.outputs, h.bounded.ssts,
    fun _ ↦ ⟨fun f hf w hw ↦ .inr ⟨f, hf, hw⟩, fun pass hpass w hw ↦ ?_, ?_, ?_⟩⟩
  · obtain ⟨f, hf, hmem⟩ := (h.outputs pass hpass).2 w hw
    exact .inr ⟨f, hok pass hpass f hf, hmem⟩
  · intro _ mem f hwr
    cases hf.symm.trans hwr
  · intro _ lsn rows files hbulk
    cases hw.symm.trans hbulk

theorem Inv.historicalSst {rest : List (Sst (Write Batch))}
    (hpc : s.pc = .scanning (file :: rest)) :
    ({ s with
      pc := .scanning rest
      historical := if file.hasLsnBounds then s.historical ++ [file] else s.historical } :
      Capturing Batch).Inv := by
  have hrest := h.rest
  rw [hpc] at hrest
  rw [if_pos (Sst.hasLsnBounds_of_pos (hrest file mem_cons_self))]
  refine ⟨h.wf, h.bounded, fun _ ↦ h.locked (by rw [hpc]; rfl), h.writerFlag, h.flusherFlag,
    h.outputs, fun f hf ↦ hrest f (mem_cons_of_mem _ hf), fun _ ↦ ?_⟩
  refine (h.captured (by rw [hpc]; rfl)).mono rfl rfl rfl rfl fun writes hwrs ↦ ?_
  refine hwrs.mono (fun _ hf ↦ mem_append_left _ hf) (fun _ he ↦ he) fun f hf ↦ ?_
  rw [hpc] at hf
  rcases mem_cons.mp hf with rfl | hf
  · exact .inr (mem_append_right _ mem_cons_self)
  · exact .inl hf

end

/-! ## Every run -/

theorem Inv.initial {sstables : List (Sst (Write Batch))} {nextLsn : ℕ} {capturer : Bool}
    (hpos : 0 < nextLsn) (hssts : ∀ f ∈ sstables, 0 < f.maxLsn) :
    (initial sstables nextLsn capturer).Inv :=
  ⟨wellFormed_initial _ _, .initial hpos hssts, nofun, nofun, nofun, nofun, nofun, nofun⟩

variable [DecidableEq Batch]

theorem Inv.step (h : s.Inv) {a : CaptureAction Batch} (hok : s.NoneMissed a)
    (hstep : s.step shape captureWal a = some s') : s'.Inv := by
  cases a with
  | table =>
    obtain ⟨hal, hstep⟩ := ite_none_right_eq_some.mp hstep
    obtain ⟨_, ht, rfl⟩ := map_eq_some_iff.mp hstep
    exact h.table hal (trans_of_step shape ht)
  | writerCall =>
    obtain ⟨-, hstep⟩ := ite_none_left_eq_some.mp hstep
    split at hstep
    · next hpc =>
      cases hstep
      exact h.insertCall hpc
    · next hpc =>
      cases hstep
      exact h.bulkCall (hok (by rw [hpc]; rfl)) hpc
    · cases hstep
  | flusherCall =>
    obtain ⟨-, hstep⟩ := ite_none_left_eq_some.mp hstep
    split at hstep <;> cases hstep
    next hpc =>
      exact h.flusherCall hok hpc
  | mergeFiles =>
    obtain ⟨⟨hlen, hin, hkept⟩, rfl⟩ := ite_some_none_eq_some.mp hstep
    exact h.mergeFiles hlen hin hkept
  | mergeCall =>
    simp only [Capturing.step] at hstep
    split at hstep
    · next hpass =>
      obtain ⟨-, hstep⟩ := ite_none_left_eq_some.mp hstep
      cases hstep
      exact h.mergeCall hpass
    · cases hstep
  | mergeReplace =>
    simp only [Capturing.step] at hstep
    split at hstep
    · next hpass =>
      obtain ⟨⟨-, hleft⟩, rfl⟩ := ite_some_none_eq_some.mp hstep
      exact h.mergeReplace hpass hleft
    · cases hstep
  | lockWrites =>
    simp only [Capturing.step] at hstep
    split at hstep <;> cases hstep
    next hpc hw =>
      exact h.move (fun _ ↦ hw) (by rw [hpc]; rfl) nofun
  | freeze =>
    simp only [Capturing.step] at hstep
    split at hstep <;> cases hstep
    next hpc hf =>
      exact h.freeze hpc hf
  | scan =>
    simp only [Capturing.step] at hstep
    split at hstep <;> cases hstep
    next hpc hf _ =>
      exact h.scan hok hpc hf
  | fail =>
    simp only [Capturing.step] at hstep
    split at hstep <;> cases hstep
    next hpc =>
      exact h.move nofun (by rw [hpc]; rfl) nofun
  | historicalSst =>
    simp only [Capturing.step] at hstep
    split at hstep <;> cases hstep
    next hpc =>
      exact h.historicalSst hpc
  | release | setListener | setCapturer =>
    simp only [Capturing.step] at hstep
    split at hstep <;> cases hstep
    next hpc =>
      exact h.move nofun (by rw [hpc]; rfl) fun _ ↦ by rw [hpc]; rfl

instance (s : Capturing Batch) (a : CaptureAction Batch) : Decidable (s.NoneMissed a) := by
  unfold NoneMissed
  split <;> infer_instance

/-- **The bootstrap has no gap**, in runs in which no file is captured between the scan of the index
and the attachment. What is in an SST once the registration is done, or gets into one later, is in a
file passed to `on_historical_sst` or in an event of the listener. -/
theorem delivered_of_noneMissed {sstables : List (Sst (Write Batch))} {nextLsn : ℕ}
    {capturer : Bool} (hpos : 0 < nextLsn) (hssts : ∀ f ∈ sstables, 0 < f.maxLsn)
    (h : Reaches (guarded NoneMissed (step shape captureWal)) (initial sstables nextLsn capturer) s)
    (hdone : s.pc = .done) : ∀ f ∈ s.table.sstables, ∀ w ∈ f.contents, s.Delivered w := by
  have hinv : s.Inv := h.invariant_guarded (I := Inv) (.initial hpos hssts) fun _ _ _ hs ↦ hs.step
  intro f hf w hw
  have hcap := hinv.captured (by rw [hdone]; rfl)
  refine (hcap.ssts f hf w hw).resolve_right ?_
  rintro ⟨_, hf', -⟩
  rw [hdone] at hf'
  cases hf'

/-- The registration up to the release of its locks, on a table with no files. -/
def bootstrap : List (CaptureAction ℕ) := [.lockWrites, .freeze, .scan, .release]

def attach : List (CaptureAction ℕ) := [.setListener, .setCapturer]

def put (batch : ℕ) : List (CaptureAction ℕ) :=
  [.table (.putAppend batch), .table .putClone, .table .putRecord,
    .table (.putInsert (.reserved false)), .writerCall, .table .putReturn]

/-- `FLUSH TABLE` with one memtable. -/
def flushTable : List (CaptureAction ℕ) :=
  [.table .flushAllFreeze, .table .flushFront, .table .flushSpan, .table .flushWrite, .flusherCall,
    .table .flushApply, .table .flushRelease, .table .flushFinish]

/-- A row written before the attachment is delivered when its memtable is flushed after it. -/
theorem delivered_when_flushed_later :
    ∃ s, Reaches (guarded NoneMissed (step rowsShape false)) (initial [] 1 false) s ∧
      s.pc = .done ∧ s.table.sstables = [⟨1, 1, [(1, 3)]⟩] ∧ s.Delivered (1, 3) := by
  have hrun : Reaches (guarded NoneMissed (step rowsShape false)) (initial [] 1 false) _ :=
    reaches_of_run (bootstrap ++ put 3 ++ attach ++ flushTable) rfl
  have hnone : ∀ f ∈ ([] : List (Sst (Write ℕ))), 0 < f.maxLsn := fun _ hf ↦ by cases hf
  exact ⟨_, hrun, rfl, rfl, delivered_of_noneMissed Nat.one_pos hnone hrun rfl ⟨1, 1, [(1, 3)]⟩
    (by decide) (1, 3) (by decide)⟩

/-- A row is written and its memtable flushed after the locks are released and before the capturer
is set. -/
theorem flushed_before_attachment_missed :
    ∃ s, Reaches (step rowsShape false) (initial [] 1 false) s ∧ s.pc = .done ∧
      ∃ f ∈ s.table.sstables, ∃ w ∈ f.contents, ¬ s.Delivered w := by
  have hrun : Reaches (step rowsShape false) (initial [] 1 false) _ :=
    reaches_of_run (bootstrap ++ put 3 ++ flushTable ++ attach) rfl
  exact ⟨_, hrun, rfl, ⟨1, 1, [(1, 3)]⟩, by decide, (1, 3), by decide, by decide⟩

end Capturing

end MonoTS
