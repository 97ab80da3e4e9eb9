import MonoTS.Catalog.Journal
import MonoTS.Lib.Transition

/-!
# A store that degrades and recovers

When an append to the metadata WAL fails, the store goes over to `memory_only`: the record of the
call and of every later call is kept in `pending`, the calls still return `Ok`, and the mode is
written to the header. `try_recover_durable` appends the pending records and goes back to `durable`.
`MetaLife` follows a store through failing calls, recoveries and restarts. Beside the store it keeps
what has been acknowledged since the last `open`, and which of those records have not been appended.

Two things can be asked of such a life. `Present`: as long as nothing has failed since an `open`,
everything acknowledged since then is there after the next one. It fails when that `open` finds the
mode `memory_only` in the header, because the restored mode keeps every record in memory although
the disk is healthy, and it fails behind a torn frame. `Kept`: the records that have not been
appended are the pending ones, in order, and a recovery on a healthy disk appends each of them once.
It fails when an append of `try_recover_durable` fails, because `pending` was drained before, and
when a write has failed half way, because the rest of the frame stays in the buffer of the writer
and goes out in front of the same record. `create_lost_after_degrade` shows both, and
`present_and_kept` that there is nothing else.
-/

open List Option

namespace MonoTS

open LittleEndian MetaWal Transition
open MetaNode (appendPending call_eq commit tryRecoverDurable writeHeader)

/-! ## The machine -/

/-- A store with what was promised since it was opened. -/
structure MetaLife where
  node : MetaNode
  /-- The maps at the last `open`. -/
  base : MetaMaps
  /-- The operations acknowledged since then. -/
  acked : List RecordOp
  /-- No file operation has failed since then. -/
  healthy : Bool
  /-- The records acknowledged since then that have not been appended. -/
  unwritten : List Bytes

/-- What happens to a store. -/
inductive LifeAction where
  | call (io : MetaIo) (now : ℤ) (c : MetaCall)
  /-- `try_recover_durable`; `io i` is the append of the record with index `i`. -/
  | recover (io : ℕ → AppendIo) (header : Bool)
  /-- The process ends and the store is opened again. -/
  | reopen (limit : ℕ)

namespace MetaLife

section

variable (crc32 : Bytes → UInt32) (codec : RecordCodec)
  (normalize : String → Result String)

/-- The record of a call, as it is appended. -/
def recordBytes (now : ℤ) (c : MetaCall) (store : MetaStore) : Bytes :=
  codec.encode ⟨store.seq + 1, now, some c.op⟩

/-- The record of a call is appended. -/
def writes (io : MetaIo) (now : ℤ) (c : MetaCall) (n : MetaNode) : Bool :=
  n.store.mode = .durable ∧
    (n.store.wal.append crc32 io.append (recordBytes codec now c n.store) n.disk.wal).1 = .ok ()

/-- The number of records a recovery appends. -/
def appendedCount (io : ℕ → AppendIo) : ℕ → List Bytes → MetaWal → Bytes → ℕ
  | _, [], _, _ => 0
  | i, frame :: frames, wal, data =>
    match wal.append crc32 (io i) frame data with
    | (.error _, _, _) => 0
    | (.ok (), wal, data) => appendedCount io (i + 1) frames wal data + 1

variable (s : MetaLife)

def step : LifeAction → Option MetaLife
  | .call io now c =>
    let healthy := s.healthy && io = .healthy
    match s.node.call crc32 codec normalize io now c with
    | (.error _, node) => some { s with node, healthy }
    | (.ok (), node) =>
      some { s with
        node, healthy
        acked := s.acked ++ [c.op]
        unwritten := if writes crc32 codec io now c s.node then s.unwritten
          else s.unwritten ++ [recordBytes codec now c s.node.store] }
  | .recover io header =>
    let (_, node) := s.node.tryRecoverDurable crc32 io header
    match s.node.store.mode with
    | .durable => some { s with node }
    | .memoryOnly =>
      some { s with
        node
        healthy := false
        unwritten := s.unwritten.drop
          (appendedCount crc32 io 0 s.node.store.pending s.node.store.wal s.node.disk.wal) }
  | .reopen limit =>
    match MetaStore.open crc32 codec normalize limit s.node.disk with
    | .error _ => none
    | .ok node => some ⟨node, node.store.toMetaMaps, [], true, []⟩

/-- Everything acknowledged since the last `open` is there after the next one, unless something has
failed in between. -/
def Present : Prop :=
  s.healthy = true → ∀ limit, ∃ n,
    MetaStore.open crc32 codec normalize limit s.node.disk = .ok n ∧
      n.store.toMetaMaps.Same (s.acked.foldl MetaMaps.apply s.base)

/-- The records that have not been appended are pending, in order, and a recovery that succeeds
appends exactly them. -/
def Kept : Prop :=
  s.node.store.pending = s.unwritten ∧
    ∀ io header n, s.node.tryRecoverDurable crc32 io header = (.ok (), n) →
      n.store.pending = [] ∧ n.disk.wal = s.node.disk.wal ++ encodeFrames crc32 s.unwritten

/-- An `open` finds the mode `durable`, and a file that ends behind its last frame; the length of a
snapshot that a call saves fits its field. -/
def OpensDurable : LifeAction → Prop
  | .reopen _ => headerMode s.node.disk.header = .durable ∧ Whole crc32 s.node.disk.wal
  | .call io now c =>
    SnapshotFits codec (s.node.call crc32 codec normalize io now c).2.disk.snapshot
  | .recover .. => True

instance (a : LifeAction) : Decidable (s.OpensDurable crc32 codec normalize a) := by
  unfold OpensDurable
  split <;> infer_instance

end

/-- No append of a call fails while it writes, and no append of a recovery fails. -/
def AppendsCleanly (s : MetaLife) : LifeAction → Prop
  | .call io _ _ => ∀ written kept, io.append ≠ .writeFails written kept
  | .recover io _ => ∀ i < s.node.store.pending.length, io i = .done
  | .reopen _ => True

instance (s : MetaLife) (a : LifeAction) : Decidable (s.AppendsCleanly a) :=
  match a with
  | .call io _ _ =>
    match h : io.append with
    | .writeFails written kept => isFalse fun hne ↦ hne written kept h
    | .done | .openFails | .syncFails => isTrue fun _ _ ↦ by rw [h]; rintro ⟨⟩
  | .recover io _ =>
    inferInstanceAs (Decidable (∀ i < s.node.store.pending.length, io i = .done))
  | .reopen _ => isTrue trivial

/-- A store opened on an empty directory. -/
def initial (limit : ℕ) : MetaLife :=
  ⟨(MetaLog.opened limit 0 none []).node [], .empty, [], true, []⟩

/-! ## Between two restarts on a healthy disk -/

section

variable (crc32 : Bytes → UInt32) (codec : RecordCodec)
  (normalize : String → Result String)

/-- A durable store whose maps are what its files say. -/
structure InStep (n : MetaNode) : Prop where
  durable : n.store.mode = .durable
  header : n.disk.header = some PersistMode.durable.asStr
  flushed : n.store.wal.Flushed
  valid : n.store.toMetaMaps.Valid normalize
  whole : Whole crc32 n.disk.wal
  replay : ∃ payloads base, decodeAllFrames crc32 n.disk.wal = .ok payloads ∧
    loadSnapshot crc32 codec n.disk.snapshot = .ok base ∧
    replayRecords codec base payloads = .ok (n.store.toMetaMaps, n.store.seq)

variable {crc32 codec normalize} {n : MetaNode}

theorem InStep.open_eq (h : InStep crc32 codec normalize n) (limit : ℕ) :
    ∃ n', MetaStore.open crc32 codec normalize limit n.disk = .ok n' ∧
      n'.store.toMetaMaps = n.store.toMetaMaps := by
  obtain ⟨_, _, hread, hload, hrep⟩ := h.replay
  exact ⟨_, MetaStore.open_of_replay hread hload hrep h.valid limit, rfl⟩

variable {limit : ℕ} {s : MetaLife}

theorem inStep_of_open {disk : MetaDisk} (hmode : headerMode disk.header = .durable)
    (hwh : Whole crc32 disk.wal)
    (hopen : MetaStore.open crc32 codec normalize limit disk = .ok n) :
    InStep crc32 codec normalize n := by
  obtain ⟨payloads, base, _, hread, hload, hrep, hval, rfl⟩ := MetaStore.open_eq_ok hopen
  rw [hmode]
  exact ⟨rfl, rfl, rfl, hval, hwh, payloads, base, hread, hload, hrep⟩

theorem replayRecords_append_singleton {record : MetadataRecord} {payloads : List Bytes} :
    ∀ {state state' : MetaMaps × ℕ}, replayRecords codec state payloads = .ok state' →
      replayRecords codec state (payloads ++ [codec.encode record])
        = .ok (applyRecord state' record) := by
  induction payloads with
  | nil =>
    intro state state' h
    cases h
    rw [nil_append, replayRecords, codec.decode_encode]
    rfl
  | cons p payloads ih =>
    intro state state' h
    rw [replayRecords] at h
    rw [cons_append, replayRecords]
    cases hdec : codec.decode p with
    | error =>
      rw [hdec] at h
      cases h
    | ok =>
      rw [hdec] at h
      exact ih h

/-- A call on a healthy disk keeps the store in step, and applies its operation if it succeeds. -/
theorem InStep.call (h : InStep crc32 codec normalize n) (now : ℤ) (c : MetaCall)
    {result : Result Unit} {n' : MetaNode}
    (hcall : n.call crc32 codec normalize .healthy now c = (result, n'))
    (hfits : SnapshotFits codec n'.disk.snapshot) :
    InStep crc32 codec normalize n' ∧
      ((result = .ok () ∧ n'.store.toMetaMaps = n.store.toMetaMaps.apply c.op) ∨
        (∃ e, result = .error e) ∧ n'.store.toMetaMaps = n.store.toMetaMaps) := by
  have hnode : n = (⟨n.store, n.disk.snapshot, []⟩ : MetaLog).node n.disk.wal := by
    rw [MetaLog.node, ← h.header]
  rw [hnode, MetaLog.call_node codec normalize { h with } crc32] at hcall
  obtain ⟨rfl, rfl⟩ := Prod.mk.inj hcall
  obtain ⟨_, ⟨e, hmem, hlog⟩ | ⟨hmem, hval, ⟨hbelow, hlog⟩ | ⟨hbelow, hlog⟩⟩⟩ :=
    MetaLog.call_cases codec normalize ⟨n.store, n.disk.snapshot, []⟩ now c
  · simp only [hlog, MetaLog.fileAfter, hmem, MetaLog.node]
    exact ⟨{ h with header := rfl }, .inr ⟨⟨e, rfl⟩, trivial⟩⟩
  · obtain ⟨_, base, hread, hload, hrep⟩ := h.replay
    have hlen := MetaLog.Fits.length_lt hbelow
    obtain ⟨hwh, hread⟩ := h.whole.append_frame hread hlen
    rw [MetaLog.Fits] at hbelow
    simp only [hlog, MetaLog.fileAfter, hmem, hbelow, Bool.false_eq_true, if_false, MetaLog.node]
    refine ⟨⟨h.durable, rfl, rfl, h.valid.apply hval, hwh, _, base, hread, hload, ?_⟩,
      .inl ⟨trivial, trivial⟩⟩
    rw [replayRecords_append_singleton hrep]
    exact congrArg Except.ok (MetaLog.applyRecord_recordOf ⟨n.store, n.disk.snapshot, []⟩ now c)
  · rw [MetaLog.Fits, Bool.not_eq_false] at hbelow
    simp only [hlog, MetaLog.fileAfter, hmem, hbelow, if_true, MetaLog.node] at hfits ⊢
    have hload := loadSnapshot_eq (by rintro snap ⟨⟩; rfl) hfits crc32
    exact ⟨⟨h.durable, rfl, rfl, h.valid.apply hval, rfl, [], _, rfl, hload, rfl⟩,
      .inl ⟨trivial, trivial⟩⟩

/-- The store of a life in which nothing has failed since the last `open`. -/
def Healthy (crc32 : Bytes → UInt32) (codec : RecordCodec)
    (normalize : String → Result String) (s : MetaLife) : Prop :=
  s.healthy = true → InStep crc32 codec normalize s.node ∧
    s.node.store.toMetaMaps = s.acked.foldl MetaMaps.apply s.base

theorem Healthy.present (h : s.Healthy crc32 codec normalize) :
    s.Present crc32 codec normalize := by
  intro hheal limit
  obtain ⟨hstep, hmaps⟩ := h hheal
  obtain ⟨n, hopen, hn⟩ := hstep.open_eq limit
  refine ⟨n, hopen, fun table ↦ ?_⟩
  rw [hn, hmaps]
  exact ⟨rfl, rfl⟩

theorem of_step_reopen {s' : MetaLife}
    (h : s.step crc32 codec normalize (.reopen limit) = some s') :
    ∃ n, MetaStore.open crc32 codec normalize limit s.node.disk = .ok n ∧
      s' = ⟨n, n.store.toMetaMaps, [], true, []⟩ := by
  simp only [MetaLife.step] at h
  split at h
  next => cases h
  next n hopen => exact ⟨n, hopen, (some.inj h).symm⟩

theorem Healthy.step {s' : MetaLife} {a : LifeAction} (h : s.Healthy crc32 codec normalize)
    (hok : s.OpensDurable crc32 codec normalize a)
    (hstep : s.step crc32 codec normalize a = some s') :
    s'.Healthy crc32 codec normalize := by
  cases a with
  | call io now c =>
    simp only [MetaLife.step] at hstep
    cases hcall : s.node.call crc32 codec normalize io now c with
    | mk result =>
      simp only [hcall] at hstep
      intro hheal
      have hio : s.healthy = true ∧ io = .healthy := by
        cases result <;> cases hstep <;> simpa using hheal
      obtain ⟨hs, rfl⟩ := hio
      obtain ⟨hinst, hmaps⟩ := h hs
      rw [OpensDurable, hcall] at hok
      obtain ⟨hinst, ⟨rfl, happ⟩ | ⟨⟨_, rfl⟩, hsame⟩⟩ := hinst.call now c hcall hok
      · cases hstep
        refine ⟨hinst, ?_⟩
        rw [foldl_append, ← hmaps]
        exact happ
      · cases hstep
        exact ⟨hinst, hsame.trans hmaps⟩
  | recover =>
    simp only [MetaLife.step, tryRecoverDurable] at hstep
    cases hmode : s.node.store.mode with
    | durable =>
      simp only [hmode] at hstep
      cases hstep
      exact h
    | memoryOnly =>
      simp only [hmode] at hstep
      cases hstep
      intro hheal
      cases hheal
  | reopen =>
    obtain ⟨_, hopen, rfl⟩ := of_step_reopen hstep
    exact fun _ ↦ ⟨inStep_of_open hok.1 hok.2 hopen, rfl⟩

theorem healthy_initial (limit : ℕ) :
    (initial limit).Healthy crc32 codec normalize := by
  intro _
  exact ⟨⟨rfl, rfl, rfl, MetaMaps.Valid.empty, rfl, [], _, rfl, rfl, rfl⟩, rfl⟩

end

/-! ## Pending records -/

section

variable {crc32 : Bytes → UInt32} {codec : RecordCodec}
  {normalize : String → Result String}

/-- The buffer of the writer is empty, and a durable store has no pending records. -/
structure Settled (n : MetaNode) : Prop where
  flushed : n.store.wal.Flushed
  durable : n.store.mode = .durable → n.store.pending = []

theorem writeHeader_snd (n : MetaNode) (written : Bool) (mode : PersistMode) :
    (n.writeHeader written mode).2.store = n.store ∧
      (n.writeHeader written mode).2.disk.wal = n.disk.wal := by
  rw [writeHeader]
  split_ifs <;> exact ⟨rfl, rfl⟩

variable {n : MetaNode} {io : ℕ → AppendIo}

theorem Settled.writeHeader (h : Settled n) (written : Bool) (mode : PersistMode) :
    Settled (n.writeHeader written mode).2 ∧
      (n.writeHeader written mode).2.store.pending = n.store.pending := by
  have hstored := (writeHeader_snd n written mode).1
  rw [hstored]
  exact ⟨⟨by rw [hstored]; exact h.flushed, by rw [hstored]; exact h.durable⟩, rfl⟩

theorem Settled.compact (h : Settled n) (io : MetaIo) :
    Settled (n.compact io).2 ∧ (n.compact io).2.store.pending = n.store.pending := by
  rw [MetaNode.compact]
  split_ifs
  · rw [MetaWal.truncate]
    by_cases hrem : n.disk.wal = [] ∨ io.truncate = true
    · rw [if_pos hrem]
      refine Settled.writeHeader ?_ io.header n.store.mode
      exact ⟨rfl, h.durable⟩
    · rw [if_neg hrem]
      exact ⟨⟨rfl, h.durable⟩, rfl⟩
  · exact ⟨h, rfl⟩

/-- A record that is not appended is kept in `pending`, if its append does not fail while it
writes. -/
theorem Settled.appendRecord (crc32 : Bytes → UInt32) (codec : RecordCodec) (h : Settled n)
    {io : MetaIo} (hio : ∀ written kept, io.append ≠ .writeFails written kept)
    (record : MetadataRecord) :
    ∃ n', n.appendRecord crc32 codec io record = (.ok (), n') ∧ Settled n' ∧
      n'.store.pending = if n.store.mode = .durable ∧
          (n.store.wal.append crc32 io.append (codec.encode record) n.disk.wal).1 = .ok ()
        then n.store.pending else n.store.pending ++ [codec.encode record] := by
  cases hmode : n.store.mode with
  | memoryOnly =>
    simp only [MetaNode.appendRecord, hmode, reduceCtorEq, false_and, if_false]
    exact ⟨_, rfl, ⟨h.flushed, by rintro ⟨⟩⟩, rfl⟩
  | durable =>
    simp only [MetaNode.appendRecord, hmode, true_and]
    obtain ⟨_, happ⟩ | ⟨written, kept, _, hfail, -⟩ | happ | happ :=
      append_cases crc32 h.flushed io.append (codec.encode record) n.disk.wal
    · simp only [happ, reduceCtorEq, if_false]
      refine ⟨_, rfl, Settled.writeHeader ?_ io.header .memoryOnly⟩
      exact ⟨h.flushed, by rintro ⟨⟩⟩
    · exact absurd hfail (hio written kept)
    · simp only [happ, reduceCtorEq, if_false]
      refine ⟨_, rfl, Settled.writeHeader ?_ io.header .memoryOnly⟩
      exact ⟨rfl, by rintro ⟨⟩⟩
    · simp only [happ, if_true]
      refine ⟨_, rfl, ?_⟩
      split_ifs
      · refine Settled.compact ?_ io
        exact ⟨rfl, fun _ ↦ h.durable hmode⟩
      · exact ⟨⟨rfl, fun _ ↦ h.durable hmode⟩, rfl⟩

theorem append_ok {io : AppendIo} {wal : MetaWal} {payload data : Bytes} {next : MetaWal × Bytes}
    (h : wal.Flushed) (hok : wal.append crc32 io payload data = (.ok (), next)) :
    next.1.Flushed ∧ next.2 = data ++ encodeFrame crc32 payload := by
  obtain ⟨_, happ⟩ | ⟨_, _, _, -, happ⟩ | happ | happ := append_cases crc32 h io payload data
  all_goals
    rw [happ] at hok
    cases hok
  exact ⟨rfl, rfl⟩

theorem appendPending_ok {frames : List Bytes} :
    ∀ {i : ℕ} {wal wal' : MetaWal} {data data' : Bytes}, wal.Flushed →
      appendPending crc32 io i frames wal data = (.ok (), wal', data') →
      wal'.Flushed ∧ data' = data ++ encodeFrames crc32 frames := by
  induction frames with
  | nil =>
    intro i wal wal' data data' h hok
    obtain ⟨rfl, rfl⟩ := Prod.mk.inj (Prod.mk.inj hok).2
    exact ⟨h, (append_nil _).symm⟩
  | cons frame frames ih =>
    intro i wal wal' data data' h hok
    rw [appendPending] at hok
    cases happ : wal.append crc32 (io i) frame data with
    | mk result =>
      rw [happ] at hok
      cases result with
      | error => cases hok
      | ok _ =>
        obtain ⟨hfl, hdata⟩ := append_ok h happ
        obtain ⟨hfl, rfl⟩ := ih hfl hok
        refine ⟨hfl, ?_⟩
        rw [hdata, encodeFrames_cons, append_assoc]

theorem appendPending_done (crc32 : Bytes → UInt32) {frames : List Bytes} :
    ∀ (i : ℕ) {wal : MetaWal} (data : Bytes), wal.Flushed →
      (∀ j < frames.length, io (i + j) = .done) →
      (appendPending crc32 io i frames wal data).1 = .ok () ∧
        appendedCount crc32 io i frames wal data = frames.length := by
  induction frames with
  | nil => exact fun _ _ _ _ _ ↦ ⟨rfl, rfl⟩
  | cons frame frames ih =>
    intro i wal data h hio
    have hdone : io i = .done := hio 0 (Nat.zero_lt_succ _)
    simp only [appendPending, appendedCount, hdone, append_done h, length_cons]
    have hrest : ∀ j < frames.length, io (i + 1 + j) = .done := by
      intro j hj
      rw [Nat.add_assoc, Nat.add_comm 1 j]
      exact hio (j + 1) (Nat.succ_lt_succ hj)
    obtain ⟨hok, hcnt⟩ := @ih (i + 1)
      ⟨some [], wal.records + 1, wal.bytes + frameHeaderLen + frame.length⟩
      (data ++ encodeFrame crc32 frame) rfl hrest
    exact ⟨hok, congrArg (· + 1) hcnt⟩

/-- A recovery drains `pending`, whatever becomes of its appends. -/
theorem tryRecoverDurable_memoryOnly (hmode : n.store.mode = .memoryOnly) {result : Result Unit}
    {wal : MetaWal} {data : Bytes}
    (happ : appendPending crc32 io 0 n.store.pending n.store.wal n.disk.wal = (result, wal, data))
    (header : Bool) :
    ∃ result' n', n.tryRecoverDurable crc32 io header = (result', n') ∧ n'.store.pending = [] ∧
      n'.store.wal = wal ∧ n'.disk.wal = data ∧ (result' = .ok () → result = .ok ()) := by
  simp only [tryRecoverDurable, hmode, happ]
  cases result with
  | error => exact ⟨_, _, rfl, rfl, rfl, rfl, fun h ↦ h⟩
  | ok _ =>
    obtain ⟨hst, hwal⟩ := writeHeader_snd ⟨{ n.store with wal, pending := [], mode := .durable },
      { n.disk with wal := data }⟩ header .durable
    exact ⟨_, _, rfl, congrArg MetaStore.pending hst, congrArg MetaStore.wal hst, hwal, fun _ ↦ rfl⟩

/-- What is needed of a life for `Kept`. -/
structure Orderly (s : MetaLife) : Prop extends Settled s.node where
  pending : s.node.store.pending = s.unwritten

theorem Orderly.kept {s : MetaLife} (h : s.Orderly) : s.Kept crc32 := by
  refine ⟨h.pending, fun io header n hrec ↦ ?_⟩
  cases hmode : s.node.store.mode with
  | durable =>
    simp only [tryRecoverDurable, hmode] at hrec
    obtain rfl := (Prod.mk.inj hrec).2
    rw [← h.pending, h.durable hmode]
    exact ⟨rfl, (append_nil _).symm⟩
  | memoryOnly =>
    cases happ : appendPending crc32 io 0 s.node.store.pending s.node.store.wal
        s.node.disk.wal with
    | mk result next =>
      obtain ⟨_, _⟩ := next
      obtain ⟨_, _, hrec', hpend, -, hwal, hres⟩ := tryRecoverDurable_memoryOnly hmode happ header
      rw [hrec'] at hrec
      obtain ⟨rfl, rfl⟩ := Prod.mk.inj hrec
      obtain rfl := hres rfl
      obtain ⟨-, rfl⟩ := appendPending_ok h.flushed happ
      rw [← h.pending]
      exact ⟨hpend, hwal⟩

theorem Orderly.step {s s' : MetaLife} {a : LifeAction} (h : s.Orderly) (hok : s.AppendsCleanly a)
    (hstep : s.step crc32 codec normalize a = some s') : s'.Orderly := by
  cases a with
  | call io now c =>
    simp only [MetaLife.step, call_eq] at hstep
    obtain ⟨budget, ⟨_, hmem⟩ | ⟨hmem, -⟩⟩ := s.node.store.inMemory_cases normalize c
    · simp only [hmem, commit] at hstep
      cases hstep
      exact ⟨{ h with }, h.pending⟩
    · have hset : Settled { s.node with store := { s.node.store with
          toMetaMaps := s.node.store.toMetaMaps.apply c.op, budget
          seq := s.node.store.seq + 1 } } := { h with }
      obtain ⟨n', happ, hset, hpend⟩ :=
        hset.appendRecord crc32 codec hok ⟨s.node.store.seq + 1, now, some c.op⟩
      simp only [hmem, commit, happ] at hstep
      cases hstep
      refine ⟨hset, ?_⟩
      simp only [hpend, h.pending, writes, decide_eq_true_eq]
      rfl
  | recover io header =>
    simp only [MetaLife.step] at hstep
    cases hmode : s.node.store.mode with
    | durable =>
      simp only [hmode, tryRecoverDurable] at hstep
      cases hstep
      exact h
    | memoryOnly =>
      have hio : ∀ j < s.node.store.pending.length, io (0 + j) = .done := by
        intro j hj
        rw [Nat.zero_add]
        exact hok j hj
      obtain ⟨hdone, hcnt⟩ := appendPending_done crc32 0 s.node.disk.wal h.flushed hio
      cases happ : appendPending crc32 io 0 s.node.store.pending s.node.store.wal
          s.node.disk.wal with
      | mk result next =>
        obtain ⟨_, _⟩ := next
        obtain ⟨_, _, hrec, hpend, hwal, -⟩ := tryRecoverDurable_memoryOnly hmode happ header
        rw [happ] at hdone
        obtain rfl : result = .ok () := hdone
        simp only [hmode, hrec, hcnt] at hstep
        cases hstep
        refine ⟨⟨?_, fun _ ↦ hpend⟩, ?_⟩
        · rw [hwal]
          exact (appendPending_ok h.flushed happ).1
        · rw [hpend, ← h.pending, drop_length]
  | reopen =>
    obtain ⟨_, hopen, rfl⟩ := of_step_reopen hstep
    obtain ⟨_, _, _, -, -, -, -, rfl⟩ := MetaStore.open_eq_ok hopen
    exact ⟨⟨rfl, fun _ ↦ rfl⟩, rfl⟩

theorem orderly_initial (limit : ℕ) : (initial limit).Orderly :=
  ⟨⟨rfl, fun _ ↦ rfl⟩, rfl⟩

end

/-! ## Lives -/

/-- **In every life in which each `open` finds the mode `durable` and a WAL that ends behind its
last frame, and no snapshot reaches `2 ^ 32` bytes, everything acknowledged since an `open` is there
after the next one. In every life in which no append of a call fails while it writes and no append
of a recovery fails, the records that have not been appended are pending, and a recovery that
succeeds appends each of them once.** -/
theorem present_and_kept (crc32 : Bytes → UInt32) (codec : RecordCodec)
    (normalize : String → Result String) (limit : ℕ) (s : MetaLife) :
    (Reaches (guarded (OpensDurable crc32 codec normalize)
      (step crc32 codec normalize)) (initial limit) s →
        s.Present crc32 codec normalize) ∧
    (Reaches (guarded AppendsCleanly (step crc32 codec normalize))
      (initial limit) s → s.Kept crc32) := by
  constructor
  · intro h
    exact (h.invariant_guarded (I := Healthy crc32 codec normalize)
      (healthy_initial limit) fun _ _ _ hs ↦ hs.step).present
  · intro h
    exact (h.invariant_guarded (I := Orderly) (orderly_initial limit)
      fun _ _ _ hs ↦ hs.step).kept

/-- Two tables are created, the first one while the WAL cannot be opened. -/
def createDegraded : List LifeAction :=
  [.call ⟨.openFails, true, true, true⟩ 0 (.createSchema (timeSchema "t")),
    .call .healthy 1 (.createSchema (timeSchema "u"))]

/-- The records of both tables are pending. After a recovery and a restart a third table is there.
-/
theorem third_table_present :
    (∃ s, Reaches (guarded AppendsCleanly (step lengthCrc .plain .ok)) (initial 4096) s ∧
      s.unwritten.length = 2 ∧ s.Kept lengthCrc) ∧
    ∃ s, Reaches (guarded (OpensDurable lengthCrc .plain .ok) (step lengthCrc .plain .ok))
        (initial 4096) s ∧
      s.healthy = true ∧ s.acked = [.putSchema (some (timeSchema "v"))] ∧
      s.Present lengthCrc .plain .ok := by
  constructor
  · refine exists_reaches_of createDegraded (p := fun s ↦ s.unwritten.length = 2)
      (by decide +kernel) fun s hrch hunw ↦ ?_
    exact ⟨hunw, (present_and_kept lengthCrc .plain .ok 4096 s).2 hrch⟩
  · refine exists_reaches_of (createDegraded ++ [.recover (fun _ ↦ .done) true, .reopen 4096,
      .call .healthy 2 (.createSchema (timeSchema "v"))])
      (p := fun s ↦ s.healthy = true ∧ s.acked = [.putSchema (some (timeSchema "v"))])
      (by decide +kernel) fun s hrch ⟨hheal, hack⟩ ↦ ?_
    exact ⟨hheal, hack, (present_and_kept lengthCrc .plain .ok 4096 s).1 hrch⟩

/-- **After a restart of a degraded store a table is created on a healthy disk and lost at the next
restart. A recovery whose first append fails loses both pending records.** -/
theorem create_lost_after_degrade :
    (∃ s, Reaches (step lengthCrc .plain .ok) (initial 4096) s ∧ ¬ s.Present lengthCrc .plain .ok) ∧
    ∃ s, Reaches (step lengthCrc .plain .ok) (initial 4096) s ∧ ¬ s.Kept lengthCrc := by
  constructor
  · refine exists_reaches_of [.call ⟨.openFails, true, true, true⟩ 0
        (.createSchema (timeSchema "t")), .reopen 4096,
        .call .healthy 1 (.createSchema (timeSchema "u"))]
      (p := fun s ↦ s.healthy = true ∧
        (s.acked.foldl MetaMaps.apply s.base).schemas.lookup "u" = some (timeSchema "u") ∧
        (MetaStore.open lengthCrc .plain .ok 4096 s.node.disk).map
          (fun n ↦ n.store.schemas.lookup "u") = .ok none)
      (by decide +kernel) fun s _ ⟨hheal, hack, hopen⟩ hpres ↦ ?_
    obtain ⟨n, hn, hsame⟩ := hpres hheal 4096
    rw [hn] at hopen
    have hlost : n.store.schemas.lookup "u" = none := Except.ok.inj hopen
    rw [(hsame "u").1, hack] at hlost
    cases hlost
  · refine exists_reaches_of (createDegraded ++ [.recover (fun _ ↦ .openFails) true])
      (p := fun s ↦ s.node.store.pending = [] ∧ s.unwritten.length = 2) (by decide +kernel)
      fun s _ ⟨hpend, hunw⟩ hkept ↦ ?_
    rw [← hkept.1, hpend] at hunw
    cases hunw

end MetaLife

end MonoTS
