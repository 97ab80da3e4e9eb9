import MonoTS.Common
import MonoTS.Lib.Transition

/-!
# The backlog of the WAL

A writer reserves the bytes of a batch before it sends the batch to its worker, in the semaphore of
its table and in one that all tables share. The worker releases them when it takes the batch from
its channel. A call of `enqueue_append` waits at three places: for each of the semaphores, and for
room in the channel. At each of them its task can be dropped.

Acquired permits are forgotten: no guard gives them back. A call that is dropped while it holds
permits takes them with it, and so does an append that reaches the worker after its writer was
deregistered, since `handle_command` returns before it gets to `release`. These are the only leaks
(`permits_conserved_iff`).

A semaphore lets any call pass for which it has enough permits, so that the order of its queue does
not matter. The channels of the workers are read in any order. A batch has at least one byte, which
is why the early returns of `reserve` and `release` for no bytes are not here.
-/

open Transition List Option

namespace MonoTS

/-! ## The budget -/

/-- `Semaphore::MAX_PERMITS`. -/
def maxPermits : ℕ := 2 ^ 61 - 1

/-- The permits for this many bytes; one call of `acquire_many` is bounded by `u32`. -/
def permits (limit bytes : ℕ) : ℕ := min (min bytes limit) (2 ^ 32 - 1)

theorem permits_pos {limit bytes : ℕ} (hlim : 0 < limit) (hbs : 0 < bytes) :
    0 < permits limit bytes := by
  unfold permits
  omega

/-- The limits of a budget. -/
structure BacklogLimits where
  globalLimit : ℕ
  tableLimit : ℕ
  global_pos : 0 < globalLimit
  table_pos : 0 < tableLimit

/-- `WalBacklogBudget::new`. -/
def BacklogLimits.new (globalLimit tableLimit : ℕ) : BacklogLimits where
  globalLimit := min (max globalLimit 1) maxPermits
  tableLimit := max tableLimit 1
  global_pos := by
    unfold maxPermits
    omega
  table_pos := Nat.le_max_right tableLimit 1

/-- The permits of a new `TableBacklog`. -/
def BacklogLimits.tablePermits (l : BacklogLimits) : ℕ := min (max l.tableLimit 1) maxPermits

/-! ## Calls -/

/-- Where a call of `enqueue_append` is. -/
inductive AppendPhase where
  | acquiringTable
  | acquiringGlobal
  | sending
  /-- The command is in the channel. -/
  | queued
  deriving DecidableEq, Repr

/-- The permits of the table have been taken. -/
def AppendPhase.holdsTable : AppendPhase → Bool
  | .acquiringTable => false
  | .acquiringGlobal | .sending | .queued => true

/-- The permits of the global semaphore have been taken. -/
def AppendPhase.holdsGlobal : AppendPhase → Bool
  | .acquiringTable | .acquiringGlobal => false
  | .sending | .queued => true

/-- An append that holds permits. -/
structure AppendCall where
  writerId : ℕ
  bytes : ℕ
  phase : AppendPhase
  bytes_pos : 0 < bytes
  deriving Repr

/-- `wal_batch_bytes`, from the memory size of the arrays. -/
def walBatchBytes (arrayMemorySize : ℕ) : ℕ := max arrayMemorySize 1

/-- A call that begins to reserve. -/
def AppendCall.new (writerId arrayMemorySize : ℕ) : AppendCall where
  writerId := writerId
  bytes := walBatchBytes arrayMemorySize
  phase := .acquiringTable
  bytes_pos := Nat.le_max_right arrayMemorySize 1

/-- The writers that share a budget. -/
structure Backlog where
  /-- The permits available in the global semaphore. -/
  global : ℕ
  /-- The permits available in the semaphore of a table. -/
  tables : ℕ → ℕ
  calls : List AppendCall
  /-- The writers that the workers know. -/
  registered : List ℕ
  /-- The writers whose circuit breaker is open. -/
  faulted : List ℕ
  /-- The writers whose worker thread has ended. -/
  stopped : List ℕ

/-- A step of a writer or of an append. -/
inductive BacklogAction where
  | register (writerId : ℕ)
  | deregister (writerId : ℕ)
  | fault (writerId : ℕ)
  | stop (writerId : ℕ)
  /-- `enqueue_append` is called. -/
  | enqueue (writerId arrayMemorySize : ℕ)
  | acquireTable (call : ℕ)
  | acquireGlobal (call : ℕ)
  | send (call : ℕ)
  | sendFails (call : ℕ)
  /-- The task of the call is dropped at the place where it waits. -/
  | cancel (call : ℕ)
  /-- A worker takes the command from its channel. -/
  | process (call : ℕ)

namespace Backlog

variable (limits : BacklogLimits) (tableOf : ℕ → ℕ)

def initial : Backlog where
  global := limits.globalLimit
  tables := fun _ ↦ limits.tablePermits
  calls := []
  registered := []
  faulted := []
  stopped := []

def globalPermits (c : AppendCall) : ℕ := permits limits.globalLimit c.bytes

def tablePermits (c : AppendCall) : ℕ := permits limits.tableLimit c.bytes

variable (s : Backlog) (i : ℕ)

/-- The call goes on to its next phase. -/
def advance (c : AppendCall) (phase : AppendPhase) : Backlog :=
  { s with calls := s.calls.set i { c with phase } }

/-- The call is over. -/
def finish : Backlog := { s with calls := s.calls.eraseIdx i }

/-- `release`: give the permits of the call back to both semaphores. -/
def release (c : AppendCall) : Backlog :=
  { s with
    global := s.global + globalPermits limits c
    tables := Function.update s.tables (tableOf c.writerId)
      (s.tables (tableOf c.writerId) + tablePermits limits c) }

/-- What becomes of a call that is at one of its steps. -/
def stepCall (c : AppendCall) : BacklogAction → Option Backlog
  | .acquireTable _ =>
    if c.phase = .acquiringTable ∧ tablePermits limits c ≤ s.tables (tableOf c.writerId) then
      some ({ s with
        tables := Function.update s.tables (tableOf c.writerId)
          (s.tables (tableOf c.writerId) - tablePermits limits c) }.advance i c .acquiringGlobal)
    else none
  | .acquireGlobal _ =>
    if c.phase = .acquiringGlobal ∧ globalPermits limits c ≤ s.global then
      some ({ s with global := s.global - globalPermits limits c }.advance i c .sending)
    else none
  | .send _ =>
    if c.phase = .sending ∧ c.writerId ∉ s.stopped then some (s.advance i c .queued) else none
  | .sendFails _ =>
    if c.phase = .sending ∧ c.writerId ∈ s.stopped then
      some ((s.release limits tableOf c).finish i)
    else none
  | .cancel _ => if c.phase = .queued then none else some (s.finish i)
  | .process _ =>
    if c.phase = .queued ∧ c.writerId ∉ s.stopped then
      -- without a worker for the writer, `handle_command` returns before `append`
      if c.writerId ∈ s.registered then some ((s.release limits tableOf c).finish i)
      else some (s.finish i)
    else none
  | _ => none

def step (a : BacklogAction) : Option Backlog :=
  match a with
  | .register writerId => some { s with registered := writerId :: s.registered }
  | .deregister writerId => some { s with registered := s.registered.filter (· ≠ writerId) }
  | .fault writerId => some { s with faulted := writerId :: s.faulted }
  | .stop writerId => some { s with stopped := writerId :: s.stopped }
  | .enqueue writerId arrayMemorySize =>
    if writerId ∈ s.faulted then some s
    else some { s with calls := s.calls ++ [.new writerId arrayMemorySize] }
  | .acquireTable i | .acquireGlobal i | .send i | .sendFails i | .cancel i | .process i =>
    s.calls[i]?.bind fun c ↦ s.stepCall limits tableOf i c a

/-! ## Conservation -/

/-- What a call has taken from the global semaphore. -/
def globalHeld (c : AppendCall) : ℕ := if c.phase.holdsGlobal then globalPermits limits c else 0

/-- What a call has taken from the semaphore of table `t`. -/
def tableHeld (t : ℕ) (c : AppendCall) : ℕ :=
  if c.phase.holdsTable ∧ tableOf c.writerId = t then tablePermits limits c else 0

/-- The permits that are missing in a semaphore are those of the calls that have been neither
processed nor given up. -/
structure Conserved (s : Backlog) : Prop where
  global : s.global + (s.calls.map (globalHeld limits)).sum = limits.globalLimit
  table : ∀ t, s.tables t + (s.calls.map (tableHeld limits tableOf t)).sum = limits.tablePermits

/-- Nobody takes permits along: a call is dropped before it has any, and a command is processed
while its writer is registered. -/
def NoLeak : BacklogAction → Prop
  | .cancel i => ∀ c, s.calls[i]? = some c → c.phase = .acquiringTable
  | .process i => ∀ c, s.calls[i]? = some c → c.writerId ∈ s.registered
  | _ => True

theorem conserved_initial : (initial limits).Conserved limits tableOf := ⟨rfl, fun _ ↦ rfl⟩

variable {limits tableOf} {s s' : Backlog} {i : ℕ} {c : AppendCall}

/-- A step that changes some calls conserves permits if and only if those calls and the semaphores
balance. -/
theorem Conserved.iff_balance (h : s.Conserved limits tableOf) (before after : List AppendCall)
    {rest : List AppendCall} (hbef : s.calls.Perm (before ++ rest))
    (haft : s'.calls.Perm (after ++ rest)) :
    s'.Conserved limits tableOf ↔
      s'.global + (after.map (globalHeld limits)).sum =
          s.global + (before.map (globalHeld limits)).sum ∧
        ∀ t, s'.tables t + (after.map (tableHeld limits tableOf t)).sum =
          s.tables t + (before.map (tableHeld limits tableOf t)).sum := by
  have hsum (f : AppendCall → ℕ) {calls part : List AppendCall} (hp : calls.Perm (part ++ rest)) :
      (calls.map f).sum = (part.map f).sum + (rest.map f).sum := by
    rw [(hp.map f).sum_eq, map_append, sum_append]
  have hglobal := h.global
  rw [hsum _ hbef] at hglobal
  constructor
  · rintro ⟨hglob', htab'⟩
    rw [hsum _ haft] at hglob'
    refine ⟨by omega, fun t ↦ ?_⟩
    have htab := h.table t
    have htab' := htab' t
    rw [hsum _ hbef] at htab
    rw [hsum _ haft] at htab'
    omega
  · rintro ⟨hbal, hall⟩
    refine ⟨?_, fun t ↦ ?_⟩
    · rw [hsum _ haft]
      omega
    · have htab := h.table t
      have hbal := hall t
      rw [hsum _ hbef] at htab
      rw [hsum _ haft]
      omega

theorem perm_of_getElem? (hc : s.calls[i]? = some c) :
    s.calls.Perm ([c] ++ s.calls.eraseIdx i) := by
  obtain ⟨hi, rfl⟩ := List.getElem?_eq_some_iff.mp hc
  exact (getElem_cons_eraseIdx_perm hi).symm

theorem perm_set (hc : s.calls[i]? = some c) (phase : AppendPhase) :
    (s.calls.set i { c with phase }).Perm ([{ c with phase }] ++ s.calls.eraseIdx i) :=
  set_perm_cons_eraseIdx (List.getElem?_eq_some_iff.mp hc).1 _

section

variable (h : s.Conserved limits tableOf) (hc : s.calls[i]? = some c)

include h hc

theorem Conserved.acquireTable (hph : c.phase = .acquiringTable)
    (hle : tablePermits limits c ≤ s.tables (tableOf c.writerId)) :
    ({ s with
      tables := Function.update s.tables (tableOf c.writerId)
        (s.tables (tableOf c.writerId) - tablePermits limits c) }.advance i c
          .acquiringGlobal).Conserved limits tableOf := by
  refine Iff.mpr (h.iff_balance [c] _ (perm_of_getElem? hc) (perm_set hc _)) ⟨?_, fun t ↦ ?_⟩
  · simp [advance, globalHeld, hph, AppendPhase.holdsGlobal]
  · by_cases ht : tableOf c.writerId = t
    · subst ht
      simp only [advance, tableHeld, hph, AppendPhase.holdsTable, tablePermits,
        Function.update_self, map_cons, map_nil, sum_singleton]
      simpa [tablePermits] using Nat.sub_add_cancel hle
    · simp [advance, tableHeld, ht, Function.update_of_ne (Ne.symm ht)]

theorem Conserved.acquireGlobal
    (hph : c.phase = .acquiringGlobal) (hle : globalPermits limits c ≤ s.global) :
    ({ s with global := s.global - globalPermits limits c }.advance i c .sending).Conserved limits
      tableOf := by
  refine Iff.mpr (h.iff_balance [c] _ (perm_of_getElem? hc) (perm_set hc _)) ⟨?_, fun t ↦ ?_⟩
  · simpa [advance, globalHeld, hph, AppendPhase.holdsGlobal, globalPermits] using
      Nat.sub_add_cancel hle
  · simp [advance, tableHeld, hph, AppendPhase.holdsTable, tablePermits]

theorem Conserved.send
    (hph : c.phase = .sending) : (s.advance i c .queued).Conserved limits tableOf := by
  refine Iff.mpr (h.iff_balance [c] _ (perm_of_getElem? hc) (perm_set hc _)) ⟨?_, fun t ↦ ?_⟩
  · simp [advance, globalHeld, hph, AppendPhase.holdsGlobal, globalPermits]
  · simp [advance, tableHeld, hph, AppendPhase.holdsTable, tablePermits]

theorem Conserved.release (hgl : c.phase.holdsGlobal = true) (htab : c.phase.holdsTable = true) :
    ((s.release limits tableOf c).finish i).Conserved limits tableOf := by
  refine Iff.mpr (h.iff_balance [c] [] (perm_of_getElem? hc) (List.Perm.refl _)) ⟨?_, fun t ↦ ?_⟩
  · simp [finish, Backlog.release, globalHeld, hgl]
  · by_cases ht : tableOf c.writerId = t
    · subst ht
      simp [finish, Backlog.release, tableHeld, htab]
    · simp [finish, Backlog.release, tableHeld, ht, Function.update_of_ne (Ne.symm ht)]

/-- A call that ends and gives nothing back conserves permits only if it had none. -/
theorem Conserved.finish_iff :
    (s.finish i).Conserved limits tableOf ↔ c.phase = .acquiringTable := by
  rw [h.iff_balance [c] [] (perm_of_getElem? hc) (List.Perm.refl _)]
  simp only [map_nil, sum_nil, map_cons, sum_singleton, Nat.add_zero]
  have hpos : 0 < tablePermits limits c := permits_pos limits.table_pos c.bytes_pos
  constructor
  · rintro ⟨-, htab⟩
    have hheld := htab (tableOf c.writerId)
    simp only [finish, tableHeld, and_true] at hheld
    split at hheld
    · omega
    · next hph =>
      cases hc' : c.phase with
      | acquiringTable => rfl
      | acquiringGlobal | sending | queued => exact absurd (by rw [hc']; rfl) hph
  · intro hph
    refine ⟨?_, fun t ↦ ?_⟩
    · simp [finish, globalHeld, hph, AppendPhase.holdsGlobal]
    · simp [finish, tableHeld, hph, AppendPhase.holdsTable]

end

/-- **A step conserves permits exactly when it leaks none.** -/
theorem Conserved.step_iff {a : BacklogAction} (h : s.Conserved limits tableOf)
    (hstep : s.step limits tableOf a = some s') : s'.Conserved limits tableOf ↔ s.NoLeak a := by
  cases a with
  | register | deregister | fault | stop =>
    cases hstep
    exact iff_of_true { h with } trivial
  | enqueue =>
    refine iff_of_true ?_ trivial
    simp only [step] at hstep
    split at hstep
    · cases hstep
      exact h
    · cases hstep
      -- a call that has just begun holds nothing
      refine Iff.mpr (h.iff_balance [] _ (List.Perm.refl _) perm_append_comm) ⟨rfl, fun t ↦ ?_⟩
      simp [tableHeld, AppendCall.new, AppendPhase.holdsTable]
  | acquireTable =>
    obtain ⟨c, hc, hstep⟩ := bind_eq_some_iff.mp hstep
    obtain ⟨⟨hph, hle⟩, rfl⟩ := ite_some_none_eq_some.mp hstep
    exact iff_of_true (h.acquireTable hc hph hle) trivial
  | acquireGlobal =>
    obtain ⟨c, hc, hstep⟩ := bind_eq_some_iff.mp hstep
    obtain ⟨⟨hph, hle⟩, rfl⟩ := ite_some_none_eq_some.mp hstep
    exact iff_of_true (h.acquireGlobal hc hph hle) trivial
  | send =>
    obtain ⟨c, hc, hstep⟩ := bind_eq_some_iff.mp hstep
    obtain ⟨⟨hph, -⟩, rfl⟩ := ite_some_none_eq_some.mp hstep
    exact iff_of_true (h.send hc hph) trivial
  | sendFails =>
    obtain ⟨c, hc, hstep⟩ := bind_eq_some_iff.mp hstep
    obtain ⟨⟨hph, -⟩, rfl⟩ := ite_some_none_eq_some.mp hstep
    exact iff_of_true (h.release hc (by rw [hph]; rfl) (by rw [hph]; rfl)) trivial
  | cancel =>
    obtain ⟨c, hc, hstep⟩ := bind_eq_some_iff.mp hstep
    obtain ⟨-, hstep⟩ := ite_none_left_eq_some.mp hstep
    cases hstep
    rw [h.finish_iff hc]
    refine ⟨fun hph c' hc' ↦ ?_, fun hok ↦ hok c hc⟩
    obtain rfl := some.inj (hc.symm.trans hc')
    exact hph
  | process i =>
    obtain ⟨c, hc, hstep⟩ := bind_eq_some_iff.mp hstep
    obtain ⟨⟨hph, -⟩, hstep⟩ := ite_none_right_eq_some.mp hstep
    have hok : s.NoLeak (.process i) ↔ c.writerId ∈ s.registered := by
      refine ⟨fun hok ↦ hok c hc, fun hmem c' hc' ↦ ?_⟩
      obtain rfl := some.inj (hc.symm.trans hc')
      exact hmem
    rw [hok]
    split at hstep
    · next hmem =>
      cases hstep
      exact iff_of_true (h.release hc (by rw [hph]; rfl) (by rw [hph]; rfl)) hmem
    · next hmem =>
      cases hstep
      rw [h.finish_iff hc, hph]
      exact iff_of_false nofun hmem

/-- **Permits are conserved in every state of a run exactly when no step leaks any.** Without an
append in flight all permits are then available. -/
theorem permits_conserved_iff (limits : BacklogLimits) (tableOf : ℕ → ℕ)
    (actions : List BacklogAction) :
    (Always (step limits tableOf) (Conserved limits tableOf) (initial limits) actions ↔
      Along (step limits tableOf) NoLeak (initial limits) actions) ∧
    ∀ s : Backlog, s.Conserved limits tableOf → s.calls = [] →
      s.global = limits.globalLimit ∧ ∀ t, s.tables t = limits.tablePermits := by
  refine ⟨always_iff_along (fun _ ↦ id) (fun s a s' hs h ↦ (hs.step_iff h).mpr)
    (fun s a s' hs h ↦ (hs.step_iff h).mp) actions (conserved_initial limits tableOf),
    fun s hs hnone ↦ ⟨?_, fun t ↦ ?_⟩⟩
  · have hglobal := hs.global
    rwa [hnone] at hglobal
  · have htab := hs.table t
    rwa [hnone] at htab

/-- A global budget of 1 and 2 permits for each table; writers 1 and 2 write to table 0. The second
append is dropped while it waits for the first one, and the third reaches the worker after its
writer was deregistered. -/
def leaking : List BacklogAction :=
  [.register 1, .register 2, .enqueue 1 1, .acquireTable 0, .acquireGlobal 0, .send 0,
    .enqueue 2 1, .acquireTable 1, .cancel 1, .process 0, .enqueue 2 1, .acquireTable 0,
    .acquireGlobal 0, .send 0, .deregister 2, .process 0]

/-- No append is in flight, and not one permit is left. -/
theorem leaking_permits : ∃ s,
    run (step (.new 1 2) fun _ ↦ 0) (initial (.new 1 2)) leaking = some s ∧
      s.calls = [] ∧ s.global = 0 ∧ s.tables 0 = 0 :=
  ⟨_, rfl, rfl, rfl, rfl⟩

end Backlog

end MonoTS
