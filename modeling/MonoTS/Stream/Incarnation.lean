import MonoTS.Common
import MonoTS.Lib.Transition

/-!
# Streams that are created again

The pending queue of a stream is a directory of hard links to SSTs. `load_or_create_source` takes
the existence of the directory for the sign that the stream has been there before: then the queue is
what is in the directory, and no history is passed on. But the directory is made before the first
link, and `DROP STREAM` leaves it behind. A crash between the two, or a stream of the same name that
is created again, gets an old or unfinished queue for a full one.

The machine has what is on disk (the rows in the log and in files, the definition of the stream, its
directory and its progress) and where the source is. A row is named by its LSN.
`present_rows_pending` says that nothing is missing in runs in which every `CREATE STREAM` finds no
directory and no crash falls into the making of a first queue.
-/

open Transition List Option

namespace MonoTS

/-- The largest LSN of a file. -/
def lastLsn (rows : List ℕ) : ℕ := rows.max?.getD 0

/-- Where the source of the stream is. -/
inductive SourcePc where
  | off
  /-- The definition and the progress are there, and `load_or_create_source` is called. -/
  | loading
  /-- The directory was not there, and has been made. -/
  | opened
  /-- The locks are held, and these files are yet to be linked. -/
  | linking (rest : List (List ℕ))
  /-- The locks are released, and the listener is not attached. -/
  | linked
  /-- The directory was there. -/
  | recovering
  | attached
  deriving DecidableEq, Repr

namespace SourcePc

def holdsLocks : SourcePc → Bool
  | .linking _ => true
  | _ => false

/-- The source is in `load_or_create_source`. -/
def loads : SourcePc → Bool
  | .loading | .opened | .linking _ | .linked | .recovering => true
  | .off | .attached => false

/-- A first queue is being made. -/
def unfinished : SourcePc → Bool
  | .opened | .linking _ | .linked => true
  | .off | .loading | .recovering | .attached => false

end SourcePc

/-- A table and its stream. -/
structure StreamLife where
  nextLsn : ℕ
  /-- The rows that are only in the log and in memtables. -/
  mem : List ℕ
  files : List (List ℕ)
  /-- The stream store has the definition. -/
  defined : Bool
  /-- The links in `pending/`, if the directory exists. -/
  dir : Option (List (List ℕ))
  /-- The progress of the stream, if it is registered. -/
  acked : Option ℕ
  pc : SourcePc
  /-- The process is starting: the log has not been recovered. -/
  starting : Bool
  /-- The rows in the table when `CREATE STREAM` or a restart completed last. -/
  present : List ℕ

/-- What happens to the table and its stream. -/
inductive LifeStep where
  | put
  /-- A memtable with this many of the rows is flushed. -/
  | flush (count : ℕ)
  | create
  /-- `StreamSource::open`, with the look for the directory before it. -/
  | openSource
  | bootstrap
  | link
  | release
  | attach
  /-- The queue is rebuilt from the directory and the listener attached. -/
  | recoverQueue
  /-- The log is recovered into these files, and the process runs. -/
  | recoverDisk (parts : List (List ℕ))
  /-- The sink has committed a file of the queue. -/
  | commit (index : ℕ)
  | drop
  /-- `CREATE STREAM` fails and is rolled back. -/
  | createFail
  | crash

namespace StreamLife

def initial : StreamLife where
  nextLsn := 1
  mem := []
  files := []
  defined := false
  dir := none
  acked := none
  pc := .off
  starting := false
  present := []

variable (s : StreamLife)

def pending : List (List ℕ) := s.dir.getD []

def ackedLsn : ℕ := s.acked.getD 0

def rows : List ℕ := s.files.flatten ++ s.mem

/-- A file is in the directory as well if the listener is attached. -/
def captured (parts : List (List ℕ)) : Option (List (List ℕ)) :=
  if s.pc = .attached then s.dir.map (· ++ parts) else s.dir

/-- `register` keeps a progress that is there. -/
def registered : Option ℕ := some s.ackedLsn

/-- `load_or_create_source` has returned. In a process that is starting the table is not complete
yet. -/
def completed : StreamLife :=
  { s with pc := .attached, present := if s.starting then s.present else s.rows }

def step : LifeStep → Option StreamLife
  | .put =>
    if s.starting ∨ s.pc.holdsLocks then none
    else some { s with nextLsn := s.nextLsn + 1, mem := s.mem ++ [s.nextLsn] }
  | .flush count =>
    if s.starting ∨ s.pc.holdsLocks ∨ s.mem.take count = [] then none
    else
      some
        { s with
          mem := s.mem.drop count
          files := s.files ++ [s.mem.take count]
          dir := s.captured [s.mem.take count] }
  | .create =>
    if s.starting ∨ s.defined ∨ s.pc ≠ .off then none
    else some { s with defined := true, acked := s.registered, pc := .loading }
  | .openSource => match s.pc, s.dir with
    | .loading, none => some { s with dir := some [], pc := .opened }
    | .loading, some _ => some { s with pc := .recovering }
    | _, _ => none
  | .bootstrap => match s.pc with
    | .opened =>
      -- `flush_all`; the memtables of a table that is not recovered are empty
      let files := if s.starting ∨ s.mem = [] then s.files else s.files ++ [s.mem]
      some
        { s with
          mem := if s.starting then s.mem else []
          files := files
          pc := .linking files }
    | _ => none
  | .link => match s.pc with
    | .linking (file :: rest) =>
      some { s with dir := s.dir.map (· ++ [file]), pc := .linking rest }
    | _ => none
  | .release => match s.pc with
    | .linking [] => some { s with pc := .linked }
    | _ => none
  | .attach => match s.pc with
    | .linked => some s.completed
    | _ => none
  | .recoverQueue => match s.pc with
    | .recovering => some s.completed
    | _ => none
  | .recoverDisk parts =>
    if s.starting ∧ parts.flatten = s.mem ∧ s.pc.loads = false then
      some
        { s with
          mem := []
          files := s.files ++ parts
          dir := s.captured parts
          starting := false
          present := s.rows }
    else none
  | .commit index =>
    if s.starting ∨ s.pc ≠ .attached then none
    else
      s.pending[index]?.map fun file ↦
        { s with
          dir := some (s.pending.eraseIdx index)
          acked := some (max s.ackedLsn (lastLsn file)) }
  | .drop =>
    if s.starting ∨ s.pc ≠ .attached then none
    else some { s with defined := false, acked := none, pc := .off }
  | .createFail =>
    if s.starting ∨ s.pc.loads = false then none
    else some { s with defined := false, acked := none, pc := .off }
  | .crash =>
    some
      { s with
        acked := if s.defined then s.registered else s.acked
        pc := if s.defined then .loading else .off
        starting := true }

/-- A stream is created where there is no directory, no crash leaves a first queue unfinished, and
no row is written between the last link and the attachment. -/
def OwnDirectory : LifeStep → Prop
  | .create => s.dir = none
  | .crash => s.pc.unfinished = false
  | .put => s.pc ≠ .linked
  | _ => True

instance (a : LifeStep) : Decidable (s.OwnDirectory a) := by
  unfold OwnDirectory
  split <;> infer_instance

/-! ## The queue -/

/-- What is in a file is acknowledged, in the queue, or yet to be linked. -/
def Covers (rest : List (List ℕ)) : Prop :=
  ∀ r ∈ s.files.flatten, r ≤ s.ackedLsn ∨ r ∈ (s.pending ++ rest).flatten

/-- What the place of the source says about the queue. -/
def QueueOk : Prop :=
  match s.pc with
  | .off => s.defined = false
  | .loading => s.dir = none ∨ s.starting ∧ s.Covers []
  | .opened => s.dir.isSome
  | .linking rest => s.dir.isSome ∧ s.Covers rest ∧ (s.starting ∨ s.mem = [])
  | .linked => s.dir.isSome ∧ s.Covers [] ∧ (s.starting ∨ s.mem = [])
  | .recovering => s.starting ∧ s.dir.isSome ∧ s.Covers []
  | .attached => s.dir.isSome ∧ s.Covers [] ∧ (s.starting ∨ ∀ r ∈ s.present, r ∈ s.files.flatten)

variable {s s' : StreamLife}

theorem captured_of_attached (h : s.pc = .attached) (parts : List (List ℕ)) :
    s.captured parts = s.dir.map (· ++ parts) := if_pos h

theorem captured_of_not_attached (h : s.pc ≠ .attached) (parts : List (List ℕ)) :
    s.captured parts = s.dir := if_neg h

theorem Covers.capture (h : s.Covers []) (hdir : s.dir.isSome) (parts : List (List ℕ))
    (hfs : s'.files = s.files ++ parts) (hdir' : s'.dir = s.dir.map (· ++ parts))
    (hack : s'.acked = s.acked) : s'.Covers [] := by
  obtain ⟨links, hlinks⟩ := isSome_iff_exists.mp hdir
  have hpend : s.pending = links := by rw [pending, hlinks]; rfl
  have hpend' : s'.pending = links ++ parts := by rw [pending, hdir', hlinks]; rfl
  intro r hr
  rw [hfs, flatten_append] at hr
  rw [append_nil, hpend', flatten_append, ackedLsn, hack]
  rcases mem_append.mp hr with hr | hr
  · refine (h r hr).imp_right fun hr ↦ mem_append_left _ ?_
    rwa [append_nil, hpend] at hr
  · exact .inr (mem_append_right _ hr)

theorem QueueOk.attached (h : s.QueueOk) (hpc : s.pc = .attached) :
    s.dir.isSome ∧ s.Covers [] ∧ (s.starting ∨ ∀ r ∈ s.present, r ∈ s.files.flatten) := by
  rwa [QueueOk, hpc] at h

theorem QueueOk.put (h : s.QueueOk) (hok : s.OwnDirectory .put) (hstep : s.step .put = some s') :
    s'.QueueOk := by
  obtain ⟨hfree, hstep⟩ := ite_none_left_eq_some.mp hstep
  cases hstep
  unfold QueueOk at h ⊢
  cases hpc : s.pc with
  | linking => exact absurd (.inr (by rw [hpc]; rfl)) hfree
  | linked => exact absurd hpc hok
  | off | loading | opened | recovering | attached => rwa [hpc] at h

/-- A flush is captured or the queue has not been begun; behind the links there is nothing to
flush. -/
theorem QueueOk.flush (h : s.QueueOk) {count : ℕ} (hstep : s.step (.flush count) = some s') :
    s'.QueueOk := by
  obtain ⟨hfree, hstep⟩ := ite_none_left_eq_some.mp hstep
  cases hstep
  simp only [not_or] at hfree
  obtain ⟨hrun, hlocks, hrows⟩ := hfree
  by_cases hatt : s.pc = .attached
  · obtain ⟨hdir, hcov, hpres⟩ := h.attached hatt
    have hcap := captured_of_attached hatt [s.mem.take count]
    unfold QueueOk
    rw [hatt]
    refine ⟨?_, hcov.capture hdir _ rfl hcap rfl, ?_⟩
    · rw [hcap, isSome_map]
      exact hdir
    · refine hpres.imp_right fun hpres r hr ↦ ?_
      rw [flatten_append]
      exact mem_append_left _ (hpres r hr)
  · have hcap := captured_of_not_attached hatt [s.mem.take count]
    unfold QueueOk at h ⊢
    cases hpc : s.pc with
    | off => rwa [hpc] at h
    | loading =>
      rw [hpc] at h
      rw [hcap]
      exact .inl (h.resolve_right fun hst ↦ hrun hst.1)
    | opened =>
      rw [hpc] at h
      rw [hcap]
      exact h
    | linking => exact absurd (by rw [hpc]; rfl) hlocks
    | linked =>
      rw [hpc] at h
      rw [h.2.2.resolve_left hrun, take_nil] at hrows
      exact absurd rfl hrows
    | recovering =>
      rw [hpc] at h
      exact absurd h.1 hrun
    | attached => exact absurd hpc hatt

theorem QueueOk.create (hok : s.OwnDirectory .create) (hstep : s.step .create = some s') :
    s'.QueueOk := by
  obtain ⟨-, hstep⟩ := ite_none_left_eq_some.mp hstep
  cases hstep
  exact .inl hok

section

variable (h : s.QueueOk)

include h

theorem QueueOk.openSource (hstep : s.step .openSource = some s') : s'.QueueOk := by
  simp only [step] at hstep
  split at hstep
  · cases hstep
    exact rfl
  · next hpc hdir =>
    cases hstep
    rw [QueueOk, hpc, hdir] at h
    obtain ⟨hst, hcov⟩ := h.resolve_left nofun
    exact ⟨hst, by rw [hdir]; rfl, hcov⟩
  · cases hstep

theorem QueueOk.bootstrap (hstep : s.step .bootstrap = some s') : s'.QueueOk := by
  simp only [step] at hstep
  split at hstep <;> cases hstep
  next hpc =>
    rw [QueueOk, hpc] at h
    refine ⟨h, fun r hr ↦ .inr ?_, ?_⟩
    · rw [flatten_append]
      exact mem_append_right _ hr
    · by_cases hst : s.starting = true
      · exact .inl hst
      · exact .inr (if_neg hst)

theorem QueueOk.link (hstep : s.step .link = some s') : s'.QueueOk := by
  simp only [step] at hstep
  split at hstep <;> cases hstep
  next file rest hpc =>
    rw [QueueOk, hpc] at h
    obtain ⟨hdir, hcov, hmem⟩ := h
    obtain ⟨_, hlinks⟩ := isSome_iff_exists.mp hdir
    refine ⟨by rw [isSome_map]; exact hdir, fun r hr ↦ (hcov r hr).imp_right fun hr ↦ ?_, hmem⟩
    rw [pending, hlinks] at hr ⊢
    simpa using hr

theorem QueueOk.release (hstep : s.step .release = some s') : s'.QueueOk := by
  simp only [step] at hstep
  split at hstep <;> cases hstep
  next hpc =>
    rwa [QueueOk, hpc] at h

end

/-- When the source is attached the memtables are empty, unless the log is yet to be recovered. -/
theorem queueOk_completed (hdir : s.dir.isSome) (hcov : s.Covers [])
    (hmem : s.starting ∨ s.mem = []) : s.completed.QueueOk := by
  refine ⟨hdir, hcov, ?_⟩
  by_cases hst : s.starting = true
  · exact .inl hst
  · refine .inr fun r hr ↦ ?_
    have hpres : s.completed.present = s.rows := if_neg hst
    rwa [hpres, rows, hmem.resolve_left hst, append_nil] at hr

section

variable (h : s.QueueOk)

include h

theorem QueueOk.attach (hstep : s.step .attach = some s') : s'.QueueOk := by
  simp only [step] at hstep
  split at hstep <;> cases hstep
  next hpc =>
    rw [QueueOk, hpc] at h
    exact queueOk_completed h.1 h.2.1 h.2.2

theorem QueueOk.recoverQueue (hstep : s.step .recoverQueue = some s') : s'.QueueOk := by
  simp only [step] at hstep
  split at hstep <;> cases hstep
  next hpc =>
    rw [QueueOk, hpc] at h
    exact queueOk_completed h.2.1 h.2.2 (.inl h.1)

/-- The source is attached before the log is recovered, and captures what comes from it. -/
theorem QueueOk.recoverDisk {parts : List (List ℕ)}
    (hstep : s.step (.recoverDisk parts) = some s') : s'.QueueOk := by
  obtain ⟨⟨-, hpart, hld⟩, rfl⟩ := ite_some_none_eq_some.mp hstep
  by_cases hatt : s.pc = .attached
  · obtain ⟨hdir, hcov, -⟩ := h.attached hatt
    have hcap := captured_of_attached hatt parts
    unfold QueueOk
    rw [hatt]
    refine ⟨?_, hcov.capture hdir parts rfl hcap rfl, .inr fun r hr ↦ ?_⟩
    · rw [hcap, isSome_map]
      exact hdir
    · rwa [flatten_append, hpart]
  · unfold QueueOk at h ⊢
    cases hpc : s.pc with
    | off => rwa [hpc] at h
    | attached => exact absurd hpc hatt
    | loading | opened | linking | linked | recovering =>
      rw [hpc] at hld
      cases hld

/-- A committed file leaves the queue, and its rows are acknowledged. -/
theorem QueueOk.commit {index : ℕ} (hstep : s.step (.commit index) = some s') : s'.QueueOk := by
  obtain ⟨hfree, hstep⟩ := ite_none_left_eq_some.mp hstep
  obtain ⟨file, hfile, rfl⟩ := map_eq_some_iff.mp hstep
  simp only [not_or, not_not] at hfree
  obtain ⟨-, hcov, hpres⟩ := h.attached hfree.2
  unfold QueueOk
  rw [hfree.2]
  refine ⟨rfl, fun r hr ↦ ?_, hpres⟩
  rcases hcov r hr with hle | hmem
  · exact .inl (hle.trans (le_max_left _ _))
  · rw [append_nil] at hmem
    obtain ⟨g, hg, hrg⟩ := mem_flatten.mp hmem
    by_cases heq : g = file
    · subst heq
      exact .inl ((le_max?_getD_of_mem hrg).trans (le_max_right _ _))
    · refine .inr (mem_flatten.mpr ⟨g, ?_, hrg⟩)
      obtain ⟨i, hi⟩ := getElem?_of_mem hg
      have hne : i ≠ index := by
        rintro rfl
        exact heq (some.inj (hi.symm.trans hfile))
      rw [append_nil]
      exact mem_eraseIdx_iff_getElem?.mpr ⟨i, hne, hi⟩

/-- Of a crash only the unfinished queue of a first time is not resumed from. -/
theorem QueueOk.crash (hok : s.OwnDirectory .crash)
    (hstep : s.step .crash = some s') : s'.QueueOk := by
  cases hstep
  by_cases hdef : s.defined = true
  · have hcov : s.dir = none ∨ s.Covers [] := by
      have hunf : s.pc.unfinished = false := hok
      unfold QueueOk at h
      cases hpc : s.pc with
      | off =>
        rw [hpc] at h
        exact absurd hdef (Bool.eq_false_iff.mp h)
      | loading =>
        rw [hpc] at h
        exact h.imp_right And.right
      | recovering =>
        rw [hpc] at h
        exact .inr h.2.2
      | attached =>
        rw [hpc] at h
        exact .inr h.2.1
      | opened | linking | linked =>
        rw [hpc] at hunf
        cases hunf
    unfold QueueOk
    rw [if_pos hdef, if_pos hdef]
    exact hcov.imp_right fun hcov ↦ ⟨rfl, hcov⟩
  · unfold QueueOk
    rw [if_neg hdef, if_neg hdef]
    exact Bool.eq_false_iff.mpr hdef

theorem QueueOk.step {a : LifeStep} (hok : s.OwnDirectory a)
    (hstep : s.step a = some s') : s'.QueueOk := by
  cases a with
  | put => exact h.put hok hstep
  | flush => exact h.flush hstep
  | create => exact .create hok hstep
  | openSource => exact h.openSource hstep
  | bootstrap => exact h.bootstrap hstep
  | link => exact h.link hstep
  | release => exact h.release hstep
  | attach => exact h.attach hstep
  | recoverQueue => exact h.recoverQueue hstep
  | recoverDisk => exact h.recoverDisk hstep
  | commit => exact h.commit hstep
  | drop | createFail =>
    obtain ⟨-, hstep⟩ := ite_none_left_eq_some.mp hstep
    cases hstep
    exact rfl
  | crash => exact h.crash hok hstep

end

/-- **A stream gets all of the history**, in runs in which it is created where there is no directory
and no crash leaves a first queue unfinished: what was in the table when `CREATE STREAM` or a
restart completed is acknowledged by the progress of the stream or in a file of the queue. -/
theorem present_rows_pending {s : StreamLife} (h : Reaches (guarded OwnDirectory step) initial s)
    (hattached : s.pc = .attached) (hrunning : s.starting = false) :
    ∀ r ∈ s.present, s.ackedLsn < r → ∃ f ∈ s.pending, r ∈ f := by
  have hinit : initial.QueueOk := rfl
  have hqu : s.QueueOk := h.invariant_guarded (I := QueueOk) hinit fun _ _ _ hs ↦ hs.step
  obtain ⟨-, hcov, hpres⟩ := hqu.attached hattached
  have hpres := hpres.resolve_left (Bool.eq_false_iff.mp hrunning)
  intro r hr hlt
  have hmem := (hcov r (hpres r hr)).resolve_left hlt.not_ge
  rw [append_nil] at hmem
  exact mem_flatten.mp hmem

/-- The first queue, with a file of the history, on an empty stream. -/
def firstCreate (links : ℕ) : List LifeStep :=
  [.create, .openSource, .bootstrap] ++ List.replicate links .link ++ [.release, .attach]

/-- A row in a memtable, and a restart after the stream was created. -/
theorem history_pending_after_restart : ∃ s, Reaches (guarded OwnDirectory step) initial s ∧
    s.pc = .attached ∧ s.starting = false ∧ s.present = [1, 2] ∧ s.ackedLsn < 1 ∧
      (∃ f ∈ s.pending, 1 ∈ f) ∧ ∃ f ∈ s.pending, 2 ∈ f := by
  have hrun : Reaches (guarded OwnDirectory step) initial _ :=
    reaches_of_run ([LifeStep.put] ++ firstCreate 1 ++
      [LifeStep.put, .crash, .openSource, .recoverQueue, .recoverDisk [[2]]]) rfl
  exact ⟨_, hrun, rfl, rfl, rfl, by decide,
    present_rows_pending hrun rfl rfl 1 (by decide) (by decide),
    present_rows_pending hrun rfl rfl 2 (by decide) (by decide)⟩

/-- The stream is dropped, a row is written and flushed, and the stream is created again: it finds
its old directory, which has nothing in it. -/
theorem history_missing_after_drop : ∃ s, Reaches step initial s ∧ s.pc = .attached ∧
    s.starting = false ∧ ∃ r ∈ s.present, s.ackedLsn < r ∧ ∀ f ∈ s.pending, r ∉ f := by
  have hrun : Reaches step initial _ :=
    reaches_of_run (firstCreate 0 ++
      [LifeStep.drop, .put, .flush 1, .create, .openSource, .recoverQueue]) rfl
  exact ⟨_, hrun, rfl, rfl, 1, by decide, by decide, by decide⟩

end StreamLife

end MonoTS
