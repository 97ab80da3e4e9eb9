import MonoTS.Catalog.Journal
import MonoTS.Lib.Transition

/-!
# Compaction of the metadata WAL among concurrent calls

A call changes the memory, takes a sequence number and appends its record, in three steps that other
threads can come between. A compaction builds a snapshot of the memory, saves it and truncates the
WAL, again in three steps; only the append and the truncation hold the WAL lock. `MetaRace` is the
store with any number of calls and compactions under way on a healthy disk.

Whatever is on disk is the result of a list of operations: those the snapshot was built from, in the
order in which they changed the memory, and then those of the WAL. `Included` asks that every call
that has returned is in such a list, and that nothing that had returned before it started is applied
after it. It fails when a call changes the memory after a snapshot was built and appends its record
before the WAL is truncated: the record is then in neither (`set_manifest_lost_by_compaction`). In
every run without such a call, and without two compactions at the same time, it holds after every
step (`included_of_isolated`).
-/

open List Option

namespace MonoTS

open LittleEndian MetaWal Transition MetaMaps

/-! ## The machine -/

/-- How far a call has come. -/
inductive CallPhase where
  /-- The memory is changed. -/
  | updated
  | numbered (seq : ℕ)
  | appended
  /-- The call compacts before it returns. -/
  | compacting
  | returned
  deriving DecidableEq, Repr

/-- A call whose change in memory has succeeded. -/
structure MetaTask where
  op : RecordOp
  /-- The calls that had returned when this one changed the memory. -/
  after : List ℕ
  phase : CallPhase
  deriving DecidableEq, Repr

/-- How far a compaction is. -/
inductive CompactPhase where
  | built
  | saved
  | done
  deriving DecidableEq, Repr

/-- A compaction under way. -/
structure CompactTask where
  /-- The call that compacts, unless `compact` was called on its own. -/
  owner : Option ℕ
  snapshot : StoreSnapshot
  /-- The number of calls that had changed the memory when the snapshot was built. -/
  count : ℕ
  phase : CompactPhase

/-- The store, its calls in the order in which they changed the memory, and its compactions. -/
structure MetaRace where
  node : MetaNode
  calls : List MetaTask
  compactions : List CompactTask

/-- A step of a call or of a compaction. -/
inductive RaceAction where
  /-- The change of a call in memory. -/
  | update (c : MetaCall)
  | number (k : ℕ)
  | append (k : ℕ) (now : ℤ)
  /-- The call finds the WAL below the thresholds and returns. -/
  | finish (k : ℕ)
  | build (owner : Option ℕ)
  | save (j : ℕ)
  | truncate (j : ℕ)

namespace MetaRace

variable (calls : List MetaTask) (k : ℕ)

def opAt : Option RecordOp := calls[k]?.map MetaTask.op

def afterAt : List ℕ := (calls[k]?.map MetaTask.after).getD []

def phaseAt : Option CallPhase := calls[k]?.map MetaTask.phase

def setPhase (phase : CallPhase) : List MetaTask :=
  calls.modify k fun t ↦ { t with phase }

/-- The record a numbered call appends. -/
def recordAt (now : ℤ) : MetadataRecord :=
  ⟨match phaseAt calls k with
    | some (.numbered seq) => seq
    | _ => 0,
   now, opAt calls k⟩

/-- The calls that have returned. -/
def returned (calls : List MetaTask) : List ℕ :=
  (List.range calls.length).filter fun k ↦ phaseAt calls k = some .returned

section

variable (crc32 : Bytes → UInt32) (codec : RecordCodec)
  (normalize : String → Result String)

variable (s : MetaRace)

def step : RaceAction → Option MetaRace
  | .update c =>
    match s.node.store.inMemory normalize c with
    | (.error _, store) => some { s with node := { s.node with store } }
    | (.ok (), store) =>
      some { s with
        node := { s.node with store }
        calls := s.calls ++ [⟨c.op, returned s.calls, .updated⟩] }
  | .number k =>
    match phaseAt s.calls k with
    | some .updated =>
      some { s with
        node := { s.node with store := { s.node.store with seq := s.node.store.seq + 1 } }
        calls := setPhase s.calls k (.numbered (s.node.store.seq + 1)) }
    | _ => none
  | .append k now =>
    match phaseAt s.calls k with
    | some (.numbered _) =>
      let (_, wal, data) := s.node.store.wal.append crc32 .done
        (codec.encode (recordAt s.calls k now)) s.node.disk.wal
      some { s with
        node := ⟨{ s.node.store with wal }, { s.node.disk with wal := data }⟩
        calls := setPhase s.calls k .appended }
    | _ => none
  | .finish k =>
    match phaseAt s.calls k with
    | some .appended =>
      if s.node.store.wal.needsCompaction then none
      else some { s with calls := setPhase s.calls k .returned }
    | _ => none
  | .build none =>
    some { s with compactions :=
      s.compactions ++ [⟨none, s.node.store.buildSnapshot, s.calls.length, .built⟩] }
  | .build (some k) =>
    match phaseAt s.calls k with
    | some .appended =>
      if s.node.store.wal.needsCompaction then
        some { s with
          calls := setPhase s.calls k .compacting
          compactions :=
            s.compactions ++ [⟨some k, s.node.store.buildSnapshot, s.calls.length, .built⟩] }
      else none
    | _ => none
  | .save j =>
    match s.compactions[j]? with
    | some t =>
      if t.phase = .built then
        some { s with
          node := { s.node with disk := { s.node.disk with snapshot := some t.snapshot } }
          compactions := s.compactions.set j { t with phase := .saved } }
      else none
    | none => none
  | .truncate j =>
    match s.compactions[j]? with
    | some t =>
      if t.phase = .saved then
        let (_, wal, data) := s.node.store.wal.truncate true s.node.disk.wal
        some {
          node := ⟨{ s.node.store with wal }, { s.node.disk with wal := data }⟩
          calls := match t.owner with
            | some k => setPhase s.calls k .returned
            | none => s.calls
          compactions := s.compactions.set j { t with phase := .done } }
      else none
    | none => none

/-- A record is appended only if every compaction under way has built its snapshot after the call
changed the memory, and a snapshot is built only if no other compaction is under way. The length
fields of the frames have 32 bits. -/
def Isolated : RaceAction → Prop
  | .append k now =>
    (∀ t ∈ s.compactions, t.phase ≠ .done → k < t.count) ∧
      (codec.encode (recordAt s.calls k now)).length < 2 ^ 32
  | .build _ => ∀ t ∈ s.compactions, t.phase = .done
  | .save j => SnapshotFits codec (s.compactions[j]?.map CompactTask.snapshot)
  | _ => True

instance (a : RaceAction) : Decidable (s.Isolated codec a) := by
  unfold Isolated
  split <;> infer_instance

end

/-- The operations of a list of calls. -/
def opsOf (calls : List MetaTask) (ks : List ℕ) : List RecordOp := ks.filterMap (opAt calls)

/-- Opening the files gives the result of a list of operations that have changed the memory. Every
call that has returned is among them, and none that had returned before it started is applied
after it. -/
def Included (crc32 : Bytes → UInt32) (codec : RecordCodec)
    (normalize : String → Result String) (s : MetaRace) : Prop :=
  ∀ limit, ∃ n ks, MetaStore.open crc32 codec normalize limit s.node.disk = .ok n ∧
    n.store.toMetaMaps.Same ((opsOf s.calls ks).foldl apply .empty) ∧
    ∀ k, phaseAt s.calls k = some .returned →
      ∃ pre post, ks = pre ++ k :: post ∧ ∀ y ∈ post, y ∉ afterAt s.calls k

/-- A store opened on an empty directory. -/
def initial (limit : ℕ) : MetaRace := ⟨(MetaLog.opened limit 0 none []).node [], [], []⟩

/-! ## Calls and their phases -/

theorem getElem?_append_singleton_eq_some {α : Type*} {l : List α} {a b : α} {i : ℕ} :
    (l ++ [a])[i]? = some b ↔ l[i]? = some b ∨ (i = l.length ∧ a = b) := by
  rcases Nat.lt_trichotomy i l.length with h | rfl | h
  · rw [getElem?_append_left h]
    exact ⟨.inl, fun h' ↦ h'.resolve_right fun h' ↦ absurd h'.1 h.ne⟩
  · simp
  · have hle : (l ++ [a]).length ≤ i := by
      rw [length_append]
      exact h
    rw [getElem?_eq_none hle, getElem?_eq_none h.le]
    simp [h.ne']

section

variable (calls : List MetaTask) (k i : ℕ) (phase : CallPhase) (t : MetaTask)

@[simp] theorem length_setPhase : (setPhase calls k phase).length = calls.length :=
  length_modify ..

theorem getElem?_setPhase : (setPhase calls k phase)[i]?
    = calls[i]?.map fun t ↦ if k = i then { t with phase } else t := by
  rw [setPhase, getElem?_modify, Option.map_eq_map]

@[simp] theorem opAt_setPhase : opAt (setPhase calls k phase) i = opAt calls i := by
  rw [opAt, opAt, getElem?_setPhase, Option.map_map]
  congr 1
  ext u
  by_cases h : k = i <;> simp [h]

@[simp] theorem afterAt_setPhase : afterAt (setPhase calls k phase) i = afterAt calls i := by
  rw [afterAt, afterAt, getElem?_setPhase, Option.map_map]
  congr 2
  ext u
  by_cases h : k = i <;> simp [h]

theorem phaseAt_setPhase_self {old : CallPhase} (h : phaseAt calls k = some old) :
    phaseAt (setPhase calls k phase) k = some phase := by
  rw [phaseAt, map_eq_some_iff] at h
  obtain ⟨_, hu, -⟩ := h
  rw [phaseAt, getElem?_setPhase, hu]
  simp

theorem phaseAt_setPhase_ne {k i : ℕ} (h : i ≠ k) :
    phaseAt (setPhase calls k phase) i = phaseAt calls i := by
  rw [phaseAt, phaseAt, getElem?_setPhase, Option.map_map]
  congr 1
  ext u
  simp [Ne.symm h]

@[simp] theorem map_op_setPhase :
    (setPhase calls k phase).map MetaTask.op = calls.map MetaTask.op := by
  refine ext_getElem? fun i ↦ ?_
  have h := opAt_setPhase calls k i phase
  rw [opAt, opAt] at h
  rw [getElem?_map, getElem?_map, h]

theorem mem_op_setPhase {P : RecordOp → Prop} (h : ∀ t ∈ calls, P t.op) :
    ∀ t ∈ setPhase calls k phase, P t.op := by
  intro t ht
  have hmem : t.op ∈ (setPhase calls k phase).map MetaTask.op := List.mem_map_of_mem ht
  rw [map_op_setPhase] at hmem
  obtain ⟨u, hu, hop⟩ := List.mem_map.mp hmem
  exact hop ▸ h u hu

theorem opAt_append_of_lt {i : ℕ} (h : i < calls.length) :
    opAt (calls ++ [t]) i = opAt calls i := by
  rw [opAt, opAt, getElem?_append_left h]

theorem mem_afterAt {y : ℕ} : y ∈ afterAt calls i ↔ ∃ u, calls[i]? = some u ∧ y ∈ u.after := by
  rw [afterAt]
  cases calls[i]? <;> simp

theorem phaseAt_append_eq_some {i : ℕ} {phase : CallPhase} :
    phaseAt (calls ++ [t]) i = some phase ↔
      phaseAt calls i = some phase ∨ (i = calls.length ∧ t.phase = phase) := by
  simp only [phaseAt, map_eq_some_iff, getElem?_append_singleton_eq_some]
  grind

theorem lt_of_phaseAt {old : CallPhase} (h : phaseAt calls k = some old) : k < calls.length := by
  rw [phaseAt, map_eq_some_iff] at h
  obtain ⟨_, hu, -⟩ := h
  exact (List.getElem?_eq_some_iff.mp hu).1

theorem mem_returned : k ∈ returned calls ↔ phaseAt calls k = some .returned := by
  rw [returned, mem_filter, mem_range, decide_eq_true_eq]
  exact ⟨fun h ↦ h.2, fun h ↦ ⟨lt_of_phaseAt calls k h, h⟩⟩

theorem opsOf_append (ks ks' : List ℕ) :
    opsOf calls (ks ++ ks') = opsOf calls ks ++ opsOf calls ks' :=
  filterMap_append ..

theorem opsOf_cons {k : ℕ} {op : RecordOp} (h : opAt calls k = some op) (ks : List ℕ) :
    opsOf calls (k :: ks) = op :: opsOf calls ks :=
  filterMap_cons_some h

theorem opsOf_range {n : ℕ} (h : n ≤ calls.length) :
    opsOf calls (List.range n) = (calls.map MetaTask.op).take n := by
  induction n with
  | zero => rfl
  | succ n ih =>
    have hn : n < (calls.map MetaTask.op).length := by rw [length_map]; omega
    have hop : opAt calls n = some ((calls.map MetaTask.op)[n]) := by
      rw [opAt, ← getElem?_map, getElem?_eq_getElem hn]
    rw [range_succ, opsOf_append, ih (by omega), opsOf_cons calls hop,
      take_succ_eq_append_getElem hn]
    rfl

theorem map_some_opsOf {ks : List ℕ} (h : ∀ k ∈ ks, k < calls.length) :
    (opsOf calls ks).map some = ks.map (opAt calls) := by
  induction ks with
  | nil => rfl
  | cons k ks ih =>
    obtain ⟨hk, hks⟩ := forall_mem_cons.mp h
    have hop : opAt calls k = some (calls[k].op) := by
      rw [opAt, getElem?_eq_getElem hk]
      rfl
    rw [opsOf_cons calls hop, map_cons, ih hks, map_cons, hop]

theorem range_eq_append_cons {k n : ℕ} (h : k < n) :
    List.range n = List.range k ++ k :: List.range' (k + 1) (n - (k + 1)) := by
  rw [range_eq_range', range_eq_range', ← range'_succ]
  have happ := @range'_append_1 0 k (n - (k + 1) + 1)
  rw [Nat.zero_add] at happ
  rw [happ]
  congr 1
  omega

end

/-! ## The ledger

What is on disk is described by the calls whose records were removed by a truncation, the calls
whose records are in the WAL, and the number of calls the saved snapshot was built from. -/

/-- The record of a call in this phase has been appended. -/
def committed : CallPhase → Bool
  | .updated | .numbered _ => false
  | .appended | .compacting | .returned => true

theorem any_committed_setPhase {calls : List MetaTask} {k : ℕ} {old phase : CallPhase}
    (hold : phaseAt calls k = some old) (hsame : committed phase = committed old) (i : ℕ) :
    (phaseAt (setPhase calls k phase) i).any committed = (phaseAt calls i).any committed := by
  by_cases hi : i = k
  · subst hi
    rw [phaseAt_setPhase_self calls i phase hold, hold, any_some, any_some, hsame]
  · rw [phaseAt_setPhase_ne calls phase hi]

/-- The maps after the first `n` changes in memory. -/
def mapsAfter (calls : List MetaTask) (n : ℕ) : MetaMaps :=
  ((calls.map MetaTask.op).take n).foldl apply .empty

/-- A compaction that has built its snapshot and not yet truncated the WAL. -/
structure Underway (calls : List MetaTask) (wal : List ℕ) (n : ℕ) (t : CompactTask) : Prop where
  snapshot : t.snapshot.toMetaMaps = mapsAfter calls t.count
  version : t.snapshot.storeVersion = storeVersion
  count_le : t.count ≤ calls.length
  le_count : n ≤ t.count
  below : ∀ k ∈ wal, k < t.count
  saved : t.phase = .saved → n = t.count
  owner : ∀ k, t.owner = some k → phaseAt calls k = some .compacting

/-- What the files, the calls and the compactions say of one another. -/
structure Ledger (crc32 : Bytes → UInt32) (codec : RecordCodec)
    (normalize : String → Result String) (node : MetaNode) (calls : List MetaTask)
    (compactions : List CompactTask) (dropped wal : List ℕ) (records : List MetadataRecord)
    (n : ℕ) : Prop where
  flushed : node.store.wal.Flushed
  memory : node.store.toMetaMaps = mapsAfter calls calls.length
  valid : ∀ t ∈ calls, t.op.Valid normalize
  load : loadSnapshot crc32 codec node.disk.snapshot = .ok (snapshotState node.disk.snapshot)
  snapshot : (snapshotState node.disk.snapshot).1 = mapsAfter calls n
  count_le : n ≤ calls.length
  file : node.disk.wal = encodeFrames crc32 (records.map codec.encode)
  small : ∀ r ∈ records, (codec.encode r).length < 2 ^ 32
  ops : records.map MetadataRecord.op = wal.map (opAt calls)
  /-- The records that have been appended are those of the committed calls. -/
  appended : ∀ k, k ∈ dropped ++ wal ↔ (phaseAt calls k).any committed
  covered : ∀ k ∈ dropped, k < n
  /-- A call that had returned before another one started has its record in front of it. -/
  order : (dropped ++ wal).Pairwise fun a b ↦ b ∉ afterAt calls a
  after : ∀ k, ∀ y ∈ afterAt calls k, y < k ∧ phaseAt calls y = some .returned
  single : ∀ (i j : ℕ) (t u : CompactTask), compactions[i]? = some t → compactions[j]? = some u →
    t.phase ≠ .done → u.phase ≠ .done → i = j
  underway : ∀ t ∈ compactions, t.phase ≠ .done → Underway calls wal n t

variable {crc32 : Bytes → UInt32} {codec : RecordCodec}
  {normalize : String → Result String} {node : MetaNode} {calls : List MetaTask}
  {compactions : List CompactTask} {dropped wal : List ℕ} {records : List MetadataRecord} {n : ℕ}

theorem mapsAfter_append {n : ℕ} (h : n ≤ calls.length) (t : MetaTask) :
    mapsAfter (calls ++ [t]) n = mapsAfter calls n := by
  rw [mapsAfter, mapsAfter, map_append, take_append_of_le_length]
  rwa [length_map]

theorem mapsAfter_setPhase (k : ℕ) (phase : CallPhase) (n : ℕ) :
    mapsAfter (setPhase calls k phase) n = mapsAfter calls n := by
  rw [mapsAfter, mapsAfter, map_op_setPhase]

theorem valid_mapsAfter (h : ∀ t ∈ calls, t.op.Valid normalize) (n : ℕ) :
    (mapsAfter calls n).Valid normalize := by
  have key : ∀ (ops : List RecordOp) (maps : MetaMaps), maps.Valid normalize →
      (∀ op ∈ ops, op.Valid normalize) →
      (ops.foldl apply maps).Valid normalize := by
    intro ops
    induction ops with
    | nil => exact fun maps hmaps _ ↦ hmaps
    | cons op ops ih =>
      intro maps hmaps hops
      obtain ⟨hop, hops⟩ := forall_mem_cons.mp hops
      exact ih _ (hmaps.apply hop) hops
  refine key _ _ .empty fun op hop ↦ ?_
  obtain ⟨t, ht, rfl⟩ := List.mem_map.mp (mem_of_mem_take hop)
  exact h t ht

theorem Underway.setPhase {t : CompactTask} {k : ℕ} {phase : CallPhase}
    (h : Underway calls wal n t) (howner : t.owner ≠ some k) :
    Underway (setPhase calls k phase) wal n t where
  __ := h
  snapshot := by rw [mapsAfter_setPhase, h.snapshot]
  count_le := by rw [length_setPhase]; exact h.count_le
  owner i hi := by
    rw [phaseAt_setPhase_ne calls phase, h.owner i hi]
    rintro rfl
    exact howner hi

namespace Ledger

variable (h : Ledger crc32 codec normalize node calls compactions dropped wal records n)
include h

variable {k j : ℕ} {old : CallPhase} {t t' : CompactTask}

theorem lt_of_mem (hk : k ∈ dropped ++ wal) : k < calls.length := by
  obtain ⟨_, hph, -⟩ := (Option.any_eq_true ..).mp ((h.appended k).mp hk)
  exact lt_of_phaseAt calls k hph

/-- Opening the files applies the calls of the snapshot and then those of the WAL. -/
theorem replay (limit : ℕ) : ∃ m, MetaStore.open crc32 codec normalize limit node.disk
      = .ok m ∧ m.store.toMetaMaps
        = (opsOf calls (List.range n ++ wal)).foldl apply .empty := by
  have hread : decodeAllFrames crc32 node.disk.wal = .ok (records.map codec.encode) := by
    rw [h.file]
    refine decodeAllFrames_encodeFrames fun p hp ↦ ?_
    obtain ⟨r, hr, rfl⟩ := List.mem_map.mp hp
    exact h.small r hr
  have hbase : (snapshotState node.disk.snapshot).1.Valid normalize := by
    rw [h.snapshot]
    exact valid_mapsAfter h.valid n
  have hops : records.map MetadataRecord.op = (opsOf calls wal).map some := by
    rw [h.ops, map_some_opsOf calls fun k hk ↦ h.lt_of_mem (mem_append_right _ hk)]
  have hval : ∀ r ∈ records, r.Valid normalize := by
    intro r hr op hop
    have hmem : r.op ∈ records.map MetadataRecord.op := List.mem_map_of_mem hr
    rw [h.ops] at hmem
    obtain ⟨_, -, hk⟩ := List.mem_map.mp hmem
    rw [hop, opAt, map_eq_some_iff] at hk
    obtain ⟨t, ht, rfl⟩ := hk
    exact h.valid t (mem_of_getElem? ht)
  have hmaps : (records.foldl applyRecord (snapshotState node.disk.snapshot)).1
      = (opsOf calls (List.range n ++ wal)).foldl apply .empty := by
    rw [foldl_applyRecord_fst hops, h.snapshot, opsOf_append, opsOf_range calls h.count_le,
      foldl_append]
    rfl
  exact ⟨_, MetaStore.open_eq hread h.load hbase hval limit, hmaps⟩

/-- **What the ledger is for**: the files hold every call that has returned. -/
theorem included : Included crc32 codec normalize ⟨node, calls, compactions⟩ := by
  intro limit
  obtain ⟨m, hopen, hmaps⟩ := h.replay limit
  refine ⟨m, List.range n ++ wal, hopen, fun table ↦ ?_, fun k hk ↦ ?_⟩
  · rw [hmaps]
    exact ⟨rfl, rfl⟩
  · rcases mem_append.mp ((h.appended k).mpr (by rw [hk]; rfl)) with hdrop | hwal
    · -- The call is in the snapshot; what changed the memory later had not returned before.
      have hlt := h.covered k hdrop
      refine ⟨List.range k, (List.range' (k + 1) (n - (k + 1))) ++ wal, ?_, ?_⟩
      · rw [range_eq_append_cons hlt, append_assoc, cons_append]
      · intro y hy haft
        rcases mem_append.mp hy with hy | hy
        · have := (h.after k y haft).1
          obtain ⟨hy, -⟩ := mem_range'_1.mp hy
          omega
        · exact (pairwise_append.mp h.order).2.2 k hdrop y hy haft
    · obtain ⟨pre, post, rfl⟩ := append_of_mem hwal
      refine ⟨List.range n ++ pre, post, by rw [append_assoc], fun y hy ↦ ?_⟩
      have horder := (pairwise_append.mp (pairwise_append.mp h.order).2.1).2.1
      exact (pairwise_cons.mp horder).1 y hy

theorem owner_ne (hold : phaseAt calls k = some old) (hcomp : old ≠ .compacting) :
    ∀ t ∈ compactions, t.phase ≠ .done → t.owner ≠ some k := by
  intro t ht hact hk
  have howner := (h.underway t ht hact).owner k hk
  rw [hold, some_inj] at howner
  exact hcomp howner

theorem after_setPhase {phase : CallPhase} (hold : phaseAt calls k = some old)
    (hret : old ≠ .returned) :
    ∀ i, ∀ y ∈ afterAt (MetaRace.setPhase calls k phase) i,
      y < i ∧ phaseAt (MetaRace.setPhase calls k phase) y = some .returned := by
  intro i y hy
  rw [afterAt_setPhase] at hy
  obtain ⟨hlt, hy⟩ := h.after i y hy
  refine ⟨hlt, ?_⟩
  rw [phaseAt_setPhase_ne calls phase, hy]
  rintro rfl
  rw [hold, some_inj] at hy
  exact hret hy

/-- A call may go on to a later phase, as long as its record has been appended in both phases or in
none of them. -/
theorem setPhase (phase : CallPhase) (hold : phaseAt calls k = some old)
    (hret : old ≠ .returned) (hsame : committed phase = committed old)
    (howner : ∀ t ∈ compactions, t.phase ≠ .done → t.owner ≠ some k) :
    Ledger crc32 codec normalize node (setPhase calls k phase) compactions dropped wal
      records n where
  __ := h
  memory := by rw [mapsAfter_setPhase, length_setPhase, h.memory]
  valid := mem_op_setPhase calls k phase h.valid
  snapshot := by rw [mapsAfter_setPhase, h.snapshot]
  count_le := by rw [length_setPhase]; exact h.count_le
  ops := by
    rw [h.ops]
    exact map_congr_left fun i _ ↦ (opAt_setPhase calls k i phase).symm
  appended i := by
    rw [h.appended, any_committed_setPhase hold hsame]
  order := by simp only [afterAt_setPhase, h.order]
  after := h.after_setPhase hold hret
  underway t ht hph := (h.underway t ht hph).setPhase (howner t ht hph)

theorem number (hph : phaseAt calls k = some .updated) :
    Ledger crc32 codec normalize
      { node with store := { node.store with seq := node.store.seq + 1 } }
      (MetaRace.setPhase calls k (.numbered (node.store.seq + 1))) compactions dropped wal records
      n := by
  have hnum := h.setPhase (.numbered (node.store.seq + 1)) hph nofun rfl (h.owner_ne hph nofun)
  exact { hnum with }

theorem finish (hph : phaseAt calls k = some .appended) :
    Ledger crc32 codec normalize node (MetaRace.setPhase calls k .returned) compactions
      dropped wal records n :=
  h.setPhase .returned hph nofun rfl (h.owner_ne hph nofun)

theorem update {op : RecordOp} (hop : op.Valid normalize) (budget : MetaMemoryBudget) :
    Ledger crc32 codec normalize
      { node with store :=
          { node.store with toMetaMaps := node.store.toMetaMaps.apply op, budget } }
      (calls ++ [⟨op, returned calls, .updated⟩]) compactions dropped wal records n where
  __ := h
  memory := by
    rw [h.memory, mapsAfter, mapsAfter, ← length_map MetaTask.op, take_length,
      ← length_map MetaTask.op, take_length, map_append, foldl_append]
    rfl
  valid := forall_mem_append.mpr ⟨h.valid, forall_mem_singleton.mpr hop⟩
  snapshot := by rw [mapsAfter_append h.count_le, ← h.snapshot]
  count_le := by
    rw [length_append]
    exact Nat.le_add_right_of_le h.count_le
  ops := by
    rw [h.ops]
    refine map_congr_left fun k hk ↦ ?_
    rw [opAt_append_of_lt calls _ (h.lt_of_mem (mem_append_right _ hk))]
  appended k := by
    rw [h.appended, Option.any_eq_true, Option.any_eq_true]
    simp only [phaseAt_append_eq_some]
    constructor
    · rintro ⟨phase, hph, hcomm⟩
      exact ⟨phase, .inl hph, hcomm⟩
    · rintro ⟨phase, hph | ⟨-, rfl⟩, hcomm⟩
      · exact ⟨phase, hph, hcomm⟩
      · exact absurd hcomm (by decide)
  order := by
    refine h.order.imp_of_mem fun {a b} ha _ hab hb ↦ ?_
    obtain ⟨t, ht, hb⟩ := (mem_afterAt ..).mp hb
    rcases getElem?_append_singleton_eq_some.mp ht with ht | ⟨rfl, -⟩
    · exact hab ((mem_afterAt ..).mpr ⟨t, ht, hb⟩)
    · exact absurd (h.lt_of_mem ha) (Nat.lt_irrefl _)
  after k y hy := by
    obtain ⟨t, ht, hy⟩ := (mem_afterAt ..).mp hy
    rw [phaseAt_append_eq_some]
    rcases getElem?_append_singleton_eq_some.mp ht with ht | ⟨rfl, rfl⟩
    · obtain ⟨hlt, hy⟩ := h.after k y ((mem_afterAt ..).mpr ⟨t, ht, hy⟩)
      exact ⟨hlt, .inl hy⟩
    · have hy := (mem_returned calls y).mp hy
      exact ⟨lt_of_phaseAt calls y hy, .inl hy⟩
  underway t ht hph := by
    have hund := h.underway t ht hph
    refine ⟨?_, hund.version, ?_, hund.le_count, hund.below, hund.saved, fun k hk ↦ ?_⟩
    · rw [mapsAfter_append hund.count_le, hund.snapshot]
    · rw [length_append]
      exact Nat.le_add_right_of_le hund.count_le
    · exact (phaseAt_append_eq_some ..).mpr (.inl (hund.owner k hk))

theorem append {seq : ℕ} (hph : phaseAt calls k = some (.numbered seq)) (now : ℤ)
    (hbelow : ∀ t ∈ compactions, t.phase ≠ .done → k < t.count)
    (hsm : (codec.encode (recordAt calls k now)).length < 2 ^ 32) {walState : MetaWal}
    (hfl : walState.Flushed) :
    Ledger crc32 codec normalize
      ⟨{ node.store with wal := walState }, { node.disk with
        wal := node.disk.wal ++ encodeFrame crc32 (codec.encode (recordAt calls k now)) }⟩
      (MetaRace.setPhase calls k .appended) compactions dropped (wal ++ [k])
      (records ++ [recordAt calls k now]) n where
  __ := h
  flushed := hfl
  memory := by rw [mapsAfter_setPhase, length_setPhase, ← h.memory]
  valid := mem_op_setPhase calls k .appended h.valid
  snapshot := by rw [mapsAfter_setPhase, ← h.snapshot]
  count_le := by rw [length_setPhase]; exact h.count_le
  file := by
    rw [h.file, map_append, encodeFrames_append, map_singleton, encodeFrames_cons,
      encodeFrames_nil, append_nil]
  small := forall_mem_append.mpr ⟨h.small, forall_mem_singleton.mpr hsm⟩
  ops := by
    rw [map_append, h.ops, map_append, map_singleton, map_singleton, opAt_setPhase]
    congr 1
    exact map_congr_left fun i _ ↦ (opAt_setPhase calls k i .appended).symm
  appended i := by
    rw [← append_assoc, mem_append, h.appended, mem_singleton]
    by_cases hi : i = k
    · subst hi
      rw [phaseAt_setPhase_self calls i .appended hph]
      exact ⟨fun _ ↦ rfl, fun _ ↦ .inr rfl⟩
    · rw [phaseAt_setPhase_ne calls .appended hi]
      exact or_iff_left hi
  order := by
    simp only [afterAt_setPhase, ← append_assoc]
    refine pairwise_append.mpr ⟨h.order, pairwise_singleton .., ?_⟩
    intro a _ b hb haft
    obtain rfl := mem_singleton.mp hb
    have hret := (h.after a b haft).2
    rw [hph] at hret
    cases hret
  after := h.after_setPhase hph (by rintro ⟨⟩)
  underway t ht hact := by
    have howner := h.owner_ne hph (by rintro ⟨⟩) t ht hact
    have hund := h.underway t ht hact
    exact { hund.setPhase howner with
      below := forall_mem_append.mpr
        ⟨hund.below, forall_mem_singleton.mpr (hbelow t ht hact)⟩ }

theorem build (owner : Option ℕ) (hdone : ∀ t ∈ compactions, t.phase = .done)
    (howner : ∀ k, owner = some k → phaseAt calls k = some .compacting) :
    Ledger crc32 codec normalize node calls
      (compactions ++ [⟨owner, node.store.buildSnapshot, calls.length, .built⟩]) dropped wal
      records n where
  __ := h
  single i j t u ht hu htph huph := by
    rcases getElem?_append_singleton_eq_some.mp ht with ht | ⟨hi, -⟩
    · exact absurd (hdone t (mem_of_getElem? ht)) htph
    · rcases getElem?_append_singleton_eq_some.mp hu with hu | ⟨hj, -⟩
      · exact absurd (hdone u (mem_of_getElem? hu)) huph
      · rw [hi, hj]
  underway t ht hact := by
    rcases mem_append.mp ht with ht | ht
    · exact absurd (hdone t ht) hact
    · obtain rfl := mem_singleton.mp ht
      exact ⟨h.memory, rfl, le_rfl, h.count_le,
        fun k hk ↦ h.lt_of_mem (mem_append_right _ hk), (by rintro ⟨⟩), howner⟩

section

variable (hj : compactions[j]? = some t)

include hj

theorem eq_of_set {i : ℕ} {u : CompactTask} (ht : t.phase ≠ .done)
    (hi : (compactions.set j t')[i]? = some u) (hu : u.phase ≠ .done) : i = j ∧ u = t' := by
  by_cases hij : j = i
  · subst hij
    rw [getElem?_set_self (List.getElem?_eq_some_iff.mp hj).1] at hi
    exact ⟨rfl, (some.inj hi).symm⟩
  · rw [getElem?_set_ne hij] at hi
    exact absurd (h.single j i t u hj hi ht hu) hij

theorem eq_of_mem_set {u : CompactTask} (ht : t.phase ≠ .done)
    (hu : u ∈ compactions.set j t') (hph : u.phase ≠ .done) : u = t' := by
  obtain ⟨_, hi⟩ := mem_iff_getElem?.mp hu
  exact (h.eq_of_set hj ht hi hph).2

theorem single_set (ht : t.phase ≠ .done) (i i' : ℕ) (u u' : CompactTask)
    (hi : (compactions.set j t')[i]? = some u) (hi' : (compactions.set j t')[i']? = some u')
    (hu : u.phase ≠ .done) (hu' : u'.phase ≠ .done) : i = i' := by
  rw [(h.eq_of_set hj ht hi hu).1, (h.eq_of_set hj ht hi' hu').1]

theorem save (hbuilt : t.phase = .built) (hfits : SnapshotFits codec (some t.snapshot)) :
    Ledger crc32 codec normalize
      { node with disk := { node.disk with snapshot := some t.snapshot } } calls
      (compactions.set j { t with phase := .saved }) dropped wal records t.count := by
  have hact : t.phase ≠ .done := by
    rw [hbuilt]
    rintro ⟨⟩
  have hund := h.underway t (mem_of_getElem? hj) hact
  exact { h with
    load := loadSnapshot_eq (by rintro snap ⟨⟩; exact hund.version) hfits crc32
    snapshot := hund.snapshot
    count_le := hund.count_le
    covered := fun k hk ↦ (h.covered k hk).trans_le hund.le_count
    single := h.single_set hj hact
    underway := fun u hu hph ↦ by
      obtain rfl := h.eq_of_mem_set hj hact hu hph
      exact { hund with le_count := le_rfl, saved := fun _ ↦ rfl } }

/-- A compaction truncates the WAL. Its call has not returned yet. -/
theorem truncate (hsaved : t.phase = .saved) :
    Ledger crc32 codec normalize
      ⟨{ node.store with wal := ⟨none, 0, 0⟩ }, { node.disk with wal := [] }⟩ calls
      (compactions.set j { t with phase := .done }) (dropped ++ wal) [] [] n := by
  have hact : t.phase ≠ .done := by
    rw [hsaved]
    rintro ⟨⟩
  have hund := h.underway t (mem_of_getElem? hj) hact
  exact { h with
    flushed := rfl
    file := rfl
    small := by simp
    ops := rfl
    appended := by rw [append_nil]; exact h.appended
    covered := forall_mem_append.mpr ⟨h.covered, (hund.saved hsaved).symm ▸ hund.below⟩
    order := by rw [append_nil]; exact h.order
    single := h.single_set hj hact
    underway := fun u hu hph ↦ by
      obtain rfl := h.eq_of_mem_set hj hact hu hph
      exact absurd rfl hph }

end

end Ledger

/-! ## Runs -/

/-- The state has a ledger. -/
def HasLedger (crc32 : Bytes → UInt32) (codec : RecordCodec)
    (normalize : String → Result String) (s : MetaRace) : Prop :=
  ∃ dropped wal records n, Ledger crc32 codec normalize s.node s.calls s.compactions
    dropped wal records n

theorem ledger_initial (limit : ℕ) :
    Ledger crc32 codec normalize (initial limit).node [] [] [] [] [] 0 where
  flushed := rfl
  memory := rfl
  valid := by simp
  load := rfl
  snapshot := rfl
  count_le := le_rfl
  file := rfl
  small := by simp
  ops := rfl
  appended := by simp [phaseAt]
  covered := by simp
  order := .nil
  after := by simp [afterAt]
  single := by simp
  underway := by simp

section

variable {s s' : MetaRace} {k : ℕ}

theorem of_step_update {c : MetaCall} (h : s.step crc32 codec normalize (.update c) = some s') :
    ∃ budget, s' = { s with node := { s.node with store := { s.node.store with budget } } } ∨
      c.op.Valid normalize ∧ s' = { s with
        node := { s.node with store :=
          { s.node.store with toMetaMaps := s.node.store.toMetaMaps.apply c.op, budget } }
        calls := s.calls ++ [⟨c.op, returned s.calls, .updated⟩] } := by
  obtain ⟨budget, ⟨_, hmem⟩ | ⟨hmem, hval⟩⟩ := s.node.store.inMemory_cases normalize c
  · simp only [MetaRace.step, hmem] at h
    exact ⟨budget, .inl (some.inj h).symm⟩
  · simp only [MetaRace.step, hmem] at h
    exact ⟨budget, .inr ⟨hval, (some.inj h).symm⟩⟩

theorem of_step_number (h : s.step crc32 codec normalize (.number k) = some s') :
    phaseAt s.calls k = some .updated ∧ s' = { s with
      node := { s.node with store := { s.node.store with seq := s.node.store.seq + 1 } }
      calls := setPhase s.calls k (.numbered (s.node.store.seq + 1)) } := by
  simp only [MetaRace.step] at h
  split at h
  next hph => exact ⟨hph, (some.inj h).symm⟩
  next => cases h

theorem of_step_append {now : ℤ} (hfl : s.node.store.wal.Flushed)
    (h : s.step crc32 codec normalize (.append k now) = some s') :
    ∃ seq wal, phaseAt s.calls k = some (.numbered seq) ∧ wal.Flushed ∧ s' = { s with
      node := ⟨{ s.node.store with wal }, { s.node.disk with
        wal := s.node.disk.wal ++ encodeFrame crc32 (codec.encode (recordAt s.calls k now)) }⟩
      calls := setPhase s.calls k .appended } := by
  simp only [MetaRace.step, append_done hfl] at h
  split at h
  next seq hph =>
    cases h
    exact ⟨seq, ⟨some [], _, _⟩, hph, rfl, rfl⟩
  next => cases h

theorem of_step_finish (h : s.step crc32 codec normalize (.finish k) = some s') :
    phaseAt s.calls k = some .appended ∧
      s' = { s with calls := setPhase s.calls k .returned } := by
  simp only [MetaRace.step] at h
  split at h
  next hph =>
    split_ifs at h
    exact ⟨hph, (some.inj h).symm⟩
  next => cases h

end

theorem HasLedger.step {s s' : MetaRace} {a : RaceAction} (h : s.HasLedger crc32 codec normalize)
    (hok : s.Isolated codec a) (hstep : s.step crc32 codec normalize a = some s') :
    s'.HasLedger crc32 codec normalize := by
  obtain ⟨dropped, wal, records, n, h⟩ := h
  cases a with
  | update =>
    obtain ⟨budget, rfl | ⟨hval, rfl⟩⟩ := of_step_update hstep
    · exact ⟨dropped, wal, records, n, { h with }⟩
    · exact ⟨dropped, wal, records, n, h.update hval budget⟩
  | number =>
    obtain ⟨hph, rfl⟩ := of_step_number hstep
    exact ⟨dropped, wal, records, n, h.number hph⟩
  | append k now =>
    obtain ⟨_, _, hph, hfl, rfl⟩ := of_step_append h.flushed hstep
    exact ⟨dropped, wal ++ [k], _, n, h.append hph now hok.1 hok.2 hfl⟩
  | finish =>
    obtain ⟨hph, rfl⟩ := of_step_finish hstep
    exact ⟨dropped, wal, records, n, h.finish hph⟩
  | build owner =>
    cases owner with
    | none =>
      cases hstep
      exact ⟨dropped, wal, records, n, h.build none hok (by rintro k ⟨⟩)⟩
    | some k =>
      simp only [MetaRace.step] at hstep
      split at hstep
      · rename_i hph
        split_ifs at hstep
        cases hstep
        have hcomp := h.setPhase .compacting hph (by rintro ⟨⟩) rfl (h.owner_ne hph (by rintro ⟨⟩))
        have hbuilt := hcomp.build (some k) hok (by
          rintro k ⟨⟩
          exact phaseAt_setPhase_self s.calls k .compacting hph)
        rw [length_setPhase] at hbuilt
        exact ⟨dropped, wal, records, n, hbuilt⟩
      · cases hstep
  | save j =>
    simp only [MetaRace.step] at hstep
    cases hj : s.compactions[j]? with
    | none =>
      rw [hj] at hstep
      cases hstep
    | some t =>
      simp only [hj] at hstep
      split_ifs at hstep with hbuilt
      cases hstep
      rw [Isolated, hj] at hok
      exact ⟨dropped, wal, records, t.count, h.save hj hbuilt hok⟩
  | truncate j =>
    simp only [MetaRace.step] at hstep
    cases hj : s.compactions[j]? with
    | none =>
      rw [hj] at hstep
      cases hstep
    | some t =>
      simp only [hj, MetaWal.truncate, or_true, if_true] at hstep
      split_ifs at hstep with hsaved
      cases hstep
      have hact : t.phase ≠ .done := by
        rw [hsaved]
        rintro ⟨⟩
      have htrun := h.truncate hj hsaved
      have hcomp := (h.underway t (mem_of_getElem? hj) hact).owner
      refine ⟨dropped ++ wal, [], [], n, ?_⟩
      obtain ⟨owner, _, _, _⟩ := t
      cases owner with
      | none => exact htrun
      | some k =>
        refine htrun.setPhase .returned (hcomp k rfl) (by rintro ⟨⟩) rfl fun u hu hu' ↦ ?_
        -- The only compaction that was under way is done.
        obtain rfl := h.eq_of_mem_set hj hact hu hu'
        exact absurd rfl hu'

/-- **In every run without an append behind the snapshot of a compaction under way, without two
compactions at the same time and without a payload of `2 ^ 32` bytes, the files hold every call that
has returned, after every step.** -/
theorem included_of_isolated (crc32 : Bytes → UInt32) (codec : RecordCodec)
    (normalize : String → Result String) (limit : ℕ) {s : MetaRace}
    (h : Reaches (guarded (Isolated codec) (step crc32 codec normalize)) (initial limit)
      s) :
    s.Included crc32 codec normalize := by
  have hled : s.HasLedger crc32 codec normalize := by
    refine h.invariant (I := HasLedger crc32 codec normalize)
      ⟨[], [], [], 0, ledger_initial limit⟩ ?_
    intro s a s' hs hstep
    obtain ⟨hok, hstep⟩ := guarded_eq_some.mp hstep
    exact hs.step hok hstep
  obtain ⟨_, _, _, _, hled⟩ := hled
  exact hled.included

def firstFile : ParquetFileMeta := ⟨"1.parquet", 0, 0, 1, 512, 0, 0, 0, 1, 1⟩

/-- A table is created, and its first file is recorded while a compaction is under way. The call
changes the memory before the snapshot is built or after it. -/
def recordFile (before : Bool) : List RaceAction :=
  let change := [.update (.setManifest "t" [firstFile]), .number 1]
  [.update (.createSchema (timeSchema "t")), .number 0, .append 0 0, .finish 0] ++
    (if before then change ++ [.build none] else .build none :: change) ++
    [.append 1 0, .finish 1, .save 0, .truncate 0]

/-- In the snapshot. -/
theorem set_manifest_included :
    ∃ s, Reaches (guarded (Isolated .plain) (step lengthCrc .plain .ok)) (initial 4096) s ∧
      s.calls.map MetaTask.phase = [.returned, .returned] ∧
      s.Included lengthCrc .plain .ok := by
  refine exists_reaches_of (recordFile true)
    (p := fun s ↦ s.calls.map MetaTask.phase = [.returned, .returned]) (by decide +kernel)
    fun s hrch hphs ↦ ?_
  exact ⟨hphs, included_of_isolated lengthCrc .plain .ok 4096 hrch⟩

theorem lookup_foldl_setManifest {table : String} {files : List ParquetFileMeta}
    {ops : List RecordOp} (h : ∀ op ∈ ops, op = .setManifest table files) :
    ∀ maps : MetaMaps, maps.manifests.lookup table = some ⟨files⟩ →
      (ops.foldl apply maps).manifests.lookup table = some ⟨files⟩ := by
  induction ops with
  | nil => exact fun _ h ↦ h
  | cons op ops ih =>
    intro maps hmaps
    obtain ⟨rfl, hops⟩ := forall_mem_cons.mp h
    exact ih hops _ (AList.lookup_insert ..)

/-- **A file that was recorded while a compaction was under way is gone.** -/
theorem set_manifest_lost_by_compaction :
    ∃ s, Reaches (step lengthCrc .plain .ok) (initial 4096) s ∧
      ¬ s.Included lengthCrc .plain .ok := by
  refine exists_reaches_of (recordFile false)
    (p := fun s ↦ s.calls = [⟨.putSchema (some (timeSchema "t")), [], .returned⟩,
        ⟨.setManifest "t" [firstFile], [0], .returned⟩] ∧
      (MetaStore.open lengthCrc .plain .ok 4096 s.node.disk).map
        (fun n ↦ n.store.manifests.lookup "t") = .ok (some ⟨[]⟩))
    (by decide +kernel) fun s _ ⟨hcalls, hopen⟩ hincl ↦ ?_
  obtain ⟨n, _, hn, hsame, hks⟩ := hincl 4096
  rw [hn] at hopen
  obtain ⟨_, post, rfl, hpost⟩ := hks 1 (by rw [hcalls]; rfl)
  have hops : ∀ op ∈ opsOf s.calls post, op = .setManifest "t" [firstFile] := by
    intro op hop
    obtain ⟨k, hk, hop⟩ := mem_filterMap.mp hop
    have hne : k ≠ 0 := by
      rintro rfl
      exact hpost 0 hk (by rw [hcalls]; decide)
    rw [hcalls] at hop
    match k, hne, hop with
    | 1, _, hop => exact (some.inj hop).symm
  have hset : opAt s.calls 1 = some (.setManifest "t" [firstFile]) := by
    rw [hcalls]
    rfl
  have hman := (hsame "t").2
  rw [opsOf_append, foldl_append, opsOf_cons s.calls hset,
    foldl_cons, lookup_foldl_setManifest hops _ (AList.lookup_insert ..),
    show n.store.manifests.lookup "t" = some ⟨[]⟩ from Except.ok.inj hopen] at hman
  exact absurd hman (by decide)

end MetaRace

end MonoTS
