import MonoTS.Catalog.Store

/-!
# The store as a journal

On a healthy disk the files of a store are a snapshot and the records appended since it was taken,
and the maps in memory are what one gets by applying those records to that snapshot. This file
states and proves that. `MetaLog` is the store with the list of its records in place of the bytes of
the file; its calls do not mention the CRC. `MetaLog.node` writes the file out, and
`MetaLog.call_node` says that the store on its files follows the store on its journal, one call at a
time.

`MetaLog.Sound` is the invariant of a journal whose file is exactly its records. The other use of
the same calls is a store opened on a damaged file: there only what is appended afterwards is known,
and `MetaLog.run_appends` describes it.
-/

open List

namespace MonoTS

open LittleEndian MetaWal MetaMaps

/-- Make calls one after the other. Returns the operations that were acknowledged. -/
def runCalls {σ : Type*} (call : ℤ → σ → MetaCall → Result Unit × σ) :
    σ → List (ℤ × MetaCall) → σ × List RecordOp
  | s, [] => (s, [])
  | s, (now, c) :: calls =>
    match call now s c with
    | (.ok (), s') => ((runCalls call s' calls).1, c.op :: (runCalls call s' calls).2)
    | (.error _, s') => runCalls call s' calls

/-- The calls of a store on a healthy disk. -/
def MetaNode.run (crc32 : Bytes → UInt32) (codec : RecordCodec)
    (normalize : String → Result String) : MetaNode → List (ℤ × MetaCall) →
    MetaNode × List RecordOp :=
  runCalls fun now n c ↦ n.call crc32 codec normalize .healthy now c

/-! ## Valid schemas -/

section

variable (normalize : String → Result String)

/-- Every schema of the maps passes its check. -/
def MetaMaps.Valid (maps : MetaMaps) : Prop :=
  ∀ table schema, maps.schemas.lookup table = some schema →
    validateSchemaProto normalize schema = .ok ()

/-- The schema of the operation, if it has one, passes its check. -/
def RecordOp.Valid : RecordOp → Prop
  | .putSchema (some schema) => validateSchemaProto normalize schema = .ok ()
  | _ => True

/-- The record's operation is valid. -/
def MetadataRecord.Valid (record : MetadataRecord) : Prop :=
  ∀ op, record.op = some op → op.Valid normalize

variable {normalize}

theorem MetaMaps.Valid.empty : MetaMaps.empty.Valid normalize := by
  intro table schema h
  cases h

variable {maps : MetaMaps} {records : List MetadataRecord}

theorem MetaMaps.Valid.apply {op : RecordOp} (h : maps.Valid normalize)
    (hop : op.Valid normalize) : (maps.apply op).Valid normalize := by
  intro table schema hlook
  cases op with
  | putSchema s =>
    cases s with
    | none => exact h table schema hlook
    | some s =>
      by_cases htab : table = s.tableName
      · subst htab
        rw [MetaMaps.apply, MetaMaps.putSchema, AList.lookup_insert] at hlook
        cases hlook
        exact hop
      · rw [MetaMaps.apply, MetaMaps.putSchema, AList.lookup_insert_ne htab] at hlook
        exact h table schema hlook
  | setManifest => exact h table schema hlook
  | dropTable t =>
    by_cases htab : table = t
    · subst htab
      rw [MetaMaps.apply, MetaMaps.dropTable, AList.lookup_erase] at hlook
      cases hlook
    · rw [MetaMaps.apply, MetaMaps.dropTable, AList.lookup_erase_ne htab] at hlook
      exact h table schema hlook

theorem MetaMaps.Valid.foldl_applyRecord :
    ∀ {state : MetaMaps × ℕ}, state.1.Valid normalize →
      (∀ r ∈ records, r.Valid normalize) →
      (records.foldl applyRecord state).1.Valid normalize := by
  induction records with
  | nil => exact fun h _ ↦ h
  | cons r records ih =>
    intro state h hrec
    obtain ⟨hr, hrec⟩ := forall_mem_cons.mp hrec
    refine ih ?_ hrec
    rw [applyRecord]
    rcases hop : r.op with _ | op
    · exact h
    · exact h.apply (hr op hop)

theorem foldl_applyRecord_fst {ops : List RecordOp}
    (h : records.map MetadataRecord.op = ops.map some) (state : MetaMaps × ℕ) :
    (records.foldl applyRecord state).1 = ops.foldl apply state.1 := by
  induction records generalizing ops state with
  | nil =>
    obtain rfl : ops = [] := map_eq_nil_iff.mp h.symm
    rfl
  | cons r records ih =>
    obtain ⟨_, _, rfl, hop, hops⟩ := map_eq_cons_iff.mp h.symm
    rw [foldl_cons, foldl_cons, ih hops.symm, applyRecord, ← hop]

theorem validateSchemas_eq_ok {schemas : List TableSchema} :
    validateSchemas normalize schemas = .ok () ↔
      ∀ s ∈ schemas, validateSchemaProto normalize s = .ok () := by
  induction schemas with
  | nil => exact ⟨fun _ _ hs ↦ (not_mem_nil hs).elim, fun _ ↦ rfl⟩
  | cons s schemas ih =>
    rw [forall_mem_cons, ← ih, validateSchemas]
    cases hs : validateSchemaProto normalize s with
    | error =>
      constructor
      · intro h
        cases h
      · rintro ⟨h, -⟩
        cases h
    | ok => exact ⟨fun h ↦ ⟨rfl, h⟩, fun h ↦ h.2⟩

theorem MetaMaps.Valid.validateAllSchemas (h : maps.Valid normalize) :
    maps.validateAllSchemas normalize = .ok () := by
  refine validateSchemas_eq_ok.mpr fun s hs ↦ ?_
  obtain ⟨entry, hent, rfl⟩ := mem_map.mp hs
  exact h entry.1 entry.2 (AList.mem_lookup_iff.mpr hent)

theorem MetaMaps.valid_of_validateAllSchemas
    (h : maps.validateAllSchemas normalize = .ok ()) : maps.Valid normalize := by
  intro table schema hlook
  exact validateSchemas_eq_ok.mp h schema
    (mem_map.mpr ⟨⟨table, schema⟩, AList.mem_lookup_iff.mp hlook, rfl⟩)

end

/-! ## What a call does in memory -/

/-- A call that fails changes at most the budget. One that succeeds applies its operation to the
maps, and its schema has been checked. -/
theorem MetaStore.inMemory_cases (normalize : String → Result String) (store : MetaStore)
    (c : MetaCall) :
    ∃ budget,
      (∃ e, store.inMemory normalize c = (.error e, { store with budget })) ∨
      (store.inMemory normalize c
          = (.ok (), { store with toMetaMaps := store.toMetaMaps.apply c.op, budget }) ∧
        c.op.Valid normalize) := by
  cases c with
  | createSchema schema =>
    simp only [inMemory, createSchemaInMemory]
    cases hval : validateSchemaProto normalize schema with
    | error e => exact ⟨store.budget, .inl ⟨e, rfl⟩⟩
    | ok _ =>
      cases store.schemas.lookup schema.tableName with
      | some _ => exact ⟨store.budget, .inl ⟨_, rfl⟩⟩
      | none =>
        cases store.budget.tryReserve (estimateSchemaBytes schema) with
        | none => exact ⟨store.budget, .inl ⟨_, rfl⟩⟩
        | some budget => exact ⟨budget, .inr ⟨rfl, hval⟩⟩
  | putSchema schema =>
    simp only [inMemory, putSchemaInMemory]
    cases hval : validateSchemaProto normalize schema with
    | error e => exact ⟨store.budget, .inl ⟨e, rfl⟩⟩
    | ok _ =>
      dsimp only
      split_ifs
      · cases store.budget.tryReserve _ with
        | none => exact ⟨store.budget, .inl ⟨_, rfl⟩⟩
        | some budget => exact ⟨budget, .inr ⟨rfl, hval⟩⟩
      · exact ⟨_, .inr ⟨rfl, hval⟩⟩
      · exact ⟨store.budget, .inr ⟨rfl, hval⟩⟩
  | setManifest table files =>
    simp only [inMemory, setManifestInMemory]
    cases store.schemas.lookup table with
    | none => exact ⟨store.budget, .inl ⟨_, rfl⟩⟩
    | some _ =>
      dsimp only
      cases MetaMemoryBudget.tryReserve _ (estimateManifestDelta table files) with
      | none => exact ⟨_, .inl ⟨_, rfl⟩⟩
      | some budget => exact ⟨budget, .inr ⟨rfl, trivial⟩⟩
  | dropTable table =>
    simp only [inMemory, dropTableInMemory]
    cases store.schemas.lookup table with
    | none => exact ⟨store.budget, .inl ⟨_, rfl⟩⟩
    | some _ => exact ⟨_, .inr ⟨rfl, trivial⟩⟩

section

variable {crc32 : Bytes → UInt32} {codec : RecordCodec}
  {normalize : String → Result String} {io : MetaIo} {now : ℤ} {n n' : MetaNode}
  {c : MetaCall}

theorem MetaNode.maps_of_call {r : Result Unit}
    (h : n.call crc32 codec normalize io now c = (r, n')) :
    n'.store.toMetaMaps = r.toOption.elim n.store.toMetaMaps fun _ ↦
      n.store.toMetaMaps.apply c.op := by
  obtain ⟨hres, hmaps, -⟩ := memory_call crc32 codec normalize io now n c
  rw [h] at hres hmaps
  obtain ⟨_, ⟨_, hm⟩ | ⟨hm, -⟩⟩ := n.store.inMemory_cases normalize c
  all_goals
    rw [hm] at hres hmaps
    obtain rfl := hres
    exact hmaps

theorem MetaNode.maps_of_ok (h : n.call crc32 codec normalize io now c = (.ok (), n')) :
    n'.store.toMetaMaps = n.store.toMetaMaps.apply c.op :=
  maps_of_call h

end

/-! ## The store on its journal -/

/-- The state a snapshot stands for. -/
def snapshotState : Option StoreSnapshot → MetaMaps × ℕ
  | none => (.empty, 0)
  | some snap => (snap.toMetaMaps, snap.seq)

/-- A store whose WAL file is given by the records appended since the last compaction. -/
structure MetaLog where
  store : MetaStore
  snapshot : Option StoreSnapshot
  records : List MetadataRecord

namespace MetaLog

/-- The record of a call. -/
def recordOf (l : MetaLog) (now : ℤ) (c : MetaCall) : MetadataRecord :=
  ⟨l.store.seq + 1, now, some c.op⟩

section

variable (codec : RecordCodec) (normalize : String → Result String)

/-- The writer once the record of a call is in the file. -/
def grown (l : MetaLog) (now : ℤ) (c : MetaCall) : MetaWal :=
  ⟨some [], l.store.wal.records + 1,
    l.store.wal.bytes + frameHeaderLen + (codec.encode (l.recordOf now c)).length⟩

/-- The record of the call leaves the WAL below the compaction thresholds. -/
def Fits (l : MetaLog) (now : ℤ) (c : MetaCall) : Prop :=
  (l.grown codec now c).needsCompaction = false

def call (now : ℤ) (l : MetaLog) (c : MetaCall) : Result Unit × MetaLog :=
  match l.store.inMemory normalize c with
  | (.error e, store) => (.error e, { l with store })
  | (.ok (), store) =>
    let store := { store with seq := store.seq + 1, wal := l.grown codec now c }
    (.ok (),
      if store.wal.needsCompaction then
        ⟨{ store with wal := ⟨none, 0, 0⟩ }, some store.buildSnapshot, []⟩
      else ⟨store, l.snapshot, l.records ++ [l.recordOf now c]⟩)

def run : MetaLog → List (ℤ × MetaCall) → MetaLog × List RecordOp :=
  runCalls fun now l c ↦ l.call codec normalize now c

/-- Every call of the list leaves the WAL below the compaction thresholds. -/
def StaysBelow : MetaLog → List (ℤ × MetaCall) → Prop
  | _, [] => True
  | l, (now, c) :: calls =>
    l.Fits codec now c ∧ StaysBelow (l.call codec normalize now c).2 calls

end

theorem Fits.length_lt {codec : RecordCodec} {l : MetaLog} {now : ℤ} {c : MetaCall}
    (h : l.Fits codec now c) : (codec.encode (l.recordOf now c)).length < 2 ^ 32 := by
  rw [Fits, grown, needsCompaction, Bool.or_eq_false_iff, decide_eq_false_iff_not,
    decide_eq_false_iff_not, maxWalBytes] at h
  have := h.2
  dsimp only at this
  omega

/-- The store with its files, where the WAL file is given. -/
def node (file : Bytes) (l : MetaLog) : MetaNode :=
  ⟨l.store, ⟨some PersistMode.durable.asStr, file, l.snapshot⟩⟩

/-- A store that makes its changes durable, with nothing left in its writer. -/
structure Ready (l : MetaLog) : Prop where
  durable : l.store.mode = .durable
  flushed : l.store.wal.Flushed

section

variable (codec : RecordCodec) (normalize : String → Result String) {l : MetaLog}

/-- Everything a call can do: fail without an effect on the journal, append a record, or append it
and compact. -/
theorem call_cases (l : MetaLog) (now : ℤ) (c : MetaCall) :
    ∃ budget,
      (∃ e, l.store.inMemory normalize c = (.error e, { l.store with budget }) ∧
        l.call codec normalize now c = (.error e, { l with store := { l.store with budget } })) ∨
      (l.store.inMemory normalize c = (.ok (),
          { l.store with toMetaMaps := l.store.toMetaMaps.apply c.op, budget }) ∧
        c.op.Valid normalize ∧
        ((l.Fits codec now c ∧ l.call codec normalize now c = (.ok (), ⟨{ l.store with
                toMetaMaps := l.store.toMetaMaps.apply c.op, budget, seq := l.store.seq + 1,
                wal := l.grown codec now c },
              l.snapshot, l.records ++ [l.recordOf now c]⟩)) ∨
          (¬ l.Fits codec now c ∧ l.call codec normalize now c = (.ok (), ⟨{ l.store with
                toMetaMaps := l.store.toMetaMaps.apply c.op, budget, seq := l.store.seq + 1,
                wal := ⟨none, 0, 0⟩ },
              some { l.store.toMetaMaps.apply c.op with
                storeVersion, seq := l.store.seq + 1 }, []⟩)))) := by
  obtain ⟨budget, ⟨e, h⟩ | ⟨h, hval⟩⟩ := l.store.inMemory_cases normalize c
  · exact ⟨budget, .inl ⟨e, h, by simp only [call, h]⟩⟩
  · refine ⟨budget, .inr ⟨h, hval, ?_⟩⟩
    by_cases hfits : l.Fits codec now c
    · refine .inl ⟨hfits, ?_⟩
      rw [Fits] at hfits
      simp only [call, h, hfits, Bool.false_eq_true, if_false]
    · refine .inr ⟨hfits, ?_⟩
      rw [Fits, Bool.not_eq_false] at hfits
      simp only [call, h, hfits, if_true]
      rfl

theorem Ready.call (h : l.Ready) (now : ℤ) (c : MetaCall) :
    (l.call codec normalize now c).2.Ready := by
  obtain ⟨_, ⟨_, -, hcall⟩ | ⟨-, -, ⟨-, hcall⟩ | ⟨-, hcall⟩⟩⟩ :=
    call_cases codec normalize l now c <;> rw [hcall]
  · exact { h with }
  · exact ⟨h.durable, rfl⟩
  · exact ⟨h.durable, rfl⟩

/-- The WAL file after a call. -/
def fileAfter (crc32 : Bytes → UInt32) (now : ℤ) (c : MetaCall) (l : MetaLog) (file : Bytes) :
    Bytes :=
  match l.store.inMemory normalize c with
  | (.error _, _) => file
  | (.ok (), _) =>
    if (l.grown codec now c).needsCompaction then []
    else file ++ encodeFrame crc32 (codec.encode (l.recordOf now c))

/-- **The store on its files follows the store on its journal.** -/
theorem call_node (h : l.Ready) (crc32 : Bytes → UInt32) (now : ℤ) (c : MetaCall) (file : Bytes) :
    (l.node file).call crc32 codec normalize .healthy now c
      = ((l.call codec normalize now c).1, (l.call codec normalize now c).2.node
            (l.fileAfter codec normalize crc32 now c file)) := by
  obtain ⟨_, ⟨_, hmem, hcall⟩ | ⟨hmem, -, hcase⟩⟩ := call_cases codec normalize l now c
  · rw [MetaNode.call_eq, hcall, fileAfter]
    simp only [node, hmem, MetaNode.commit]
  · rw [MetaNode.call_eq, fileAfter]
    simp only [node, hmem, MetaNode.commit, MetaNode.appendRecord, h.durable, MetaIo.healthy,
      append_done h.flushed]
    obtain ⟨hfits, hcall⟩ | ⟨hfits, hcall⟩ := hcase
    · rw [Fits, grown, recordOf] at hfits
      rw [hcall, grown, recordOf, hfits]
      simp only [Bool.false_eq_true, if_false, h.durable]
    · rw [Fits, Bool.not_eq_false, grown, recordOf] at hfits
      rw [hcall, grown, recordOf, hfits]
      simp only [if_true, MetaNode.compact, truncate, or_true, MetaNode.writeHeader, h.durable]
      rfl

end

variable {codec : RecordCodec} {normalize : String → Result String} {l : MetaLog}

/-- A record that was just made applies its operation and takes over its sequence number. -/
theorem applyRecord_recordOf (l : MetaLog) (now : ℤ) (c : MetaCall) :
    applyRecord (l.store.toMetaMaps, l.store.seq) (l.recordOf now c)
      = (l.store.toMetaMaps.apply c.op, l.store.seq + 1) := by
  rw [applyRecord, recordOf]
  dsimp only
  rw [if_pos (Nat.lt_succ_self _)]

theorem valid_recordOf {c : MetaCall} (h : c.op.Valid normalize) (l : MetaLog) (now : ℤ) :
    (l.recordOf now c).Valid normalize := by
  intro op hop
  cases hop
  exact h

/-! ## A journal that is its file -/

variable (crc32 : Bytes → UInt32)

/-- The WAL file of a journal. -/
def file (codec : RecordCodec) (l : MetaLog) : Bytes :=
  encodeFrames crc32 (l.records.map codec.encode)

/-- The maps are the records applied to the snapshot, everything in the journal is valid, and the
counters of the writer agree with the file. -/
structure Sound (codec : RecordCodec) (normalize : String → Result String)
    (l : MetaLog) : Prop extends Ready l where
  state : l.records.foldl applyRecord (snapshotState l.snapshot)
    = (l.store.toMetaMaps, l.store.seq)
  version : ∀ snap, l.snapshot = some snap → snap.storeVersion = storeVersion
  base : (snapshotState l.snapshot).1.Valid normalize
  valid : ∀ r ∈ l.records, r.Valid normalize
  count : l.store.wal.records = l.records.length
  bytes : l.store.wal.bytes = framesLength (l.records.map codec.encode)
  below : l.store.wal.needsCompaction = false

theorem framesLength_append (payloads payloads' : List Bytes) :
    framesLength (payloads ++ payloads') = framesLength payloads + framesLength payloads' := by
  rw [framesLength, map_append, sum_append, framesLength, framesLength]

theorem framesLength_append_singleton (payloads : List Bytes) (payload : Bytes) :
    framesLength (payloads ++ [payload])
      = framesLength payloads + frameHeaderLen + payload.length := by
  rw [framesLength_append, framesLength_cons, ← Nat.add_assoc, ← Nat.add_assoc]
  rfl

theorem Sound.call (h : l.Sound codec normalize) (now : ℤ) (c : MetaCall) :
    (l.call codec normalize now c).2.Sound codec normalize := by
  have hrdy := h.toReady.call codec normalize now c
  obtain ⟨_, ⟨_, -, hcall⟩ | ⟨-, hval, ⟨hfits, hcall⟩ | ⟨-, hcall⟩⟩⟩ :=
    call_cases codec normalize l now c <;> rw [hcall] at hrdy ⊢
  · exact ⟨hrdy, h.state, h.version, h.base, h.valid, h.count, h.bytes, h.below⟩
  · refine ⟨hrdy, ?_, h.version, h.base, ?_, ?_, ?_, hfits⟩
    · rw [foldl_append, h.state, foldl_cons, applyRecord_recordOf, foldl_nil]
    · exact forall_mem_append.mpr ⟨h.valid, forall_mem_singleton.mpr (valid_recordOf hval l now)⟩
    · rw [length_append, ← h.count]
      rfl
    · rw [map_append, map_singleton, framesLength_append_singleton, ← h.bytes]
      rfl
  · refine ⟨hrdy, rfl, ?_, ?_, by simp, rfl, rfl, rfl⟩
    · rintro snap ⟨⟩
      rfl
    · have hmaps : l.store.toMetaMaps.Valid normalize := by
        have hfold := MetaMaps.Valid.foldl_applyRecord h.base h.valid
        rwa [h.state] at hfold
      exact hmaps.apply hval

theorem fileAfter_file (l : MetaLog) (crc32 : Bytes → UInt32) (now : ℤ) (c : MetaCall) :
    l.fileAfter codec normalize crc32 now c (l.file crc32 codec)
      = (l.call codec normalize now c).2.file crc32 codec := by
  obtain ⟨_, ⟨_, hmem, hcall⟩ | ⟨hmem, -, ⟨hfits, hcall⟩ | ⟨hfits, hcall⟩⟩⟩ :=
    call_cases codec normalize l now c <;>
    simp only [MetaLog.fileAfter, hmem, hcall]
  · rfl
  · rw [if_neg (by rw [show _ = false from hfits]; decide), file, file, map_append,
      encodeFrames_append, map_singleton, encodeFrames_cons, encodeFrames_nil,
      append_nil]
  · rw [if_pos (Bool.not_eq_false _ |>.mp hfits)]
    rfl

variable (calls : List (ℤ × MetaCall))

/-- **Every run of a sound journal is sound, and the store on its files follows it.** -/
theorem Sound.run : ∀ {l : MetaLog}, l.Sound codec normalize →
      (l.run codec normalize calls).1.Sound codec normalize ∧
      (l.node (l.file crc32 codec)).run crc32 codec normalize calls
        = ((l.run codec normalize calls).1.node ((l.run codec normalize calls).1.file crc32 codec),
          (l.run codec normalize calls).2) := by
  induction calls with
  | nil => exact fun h ↦ ⟨h, rfl⟩
  | cons call calls ih =>
    obtain ⟨now, c⟩ := call
    intro l h
    have hstep := call_node codec normalize h.toReady crc32 now c (l.file crc32 codec)
    rw [fileAfter_file] at hstep
    obtain ⟨hsnd, hrun⟩ := ih (h.call now c)
    rw [MetaNode.run] at hrun ⊢
    rw [MetaLog.run] at hsnd hrun ⊢
    simp only [runCalls, hstep]
    cases hcall : l.call codec normalize now c with
    | mk result =>
      rw [hcall] at hsnd hrun
      cases result with
      | ok =>
        simp only [hrun]
        exact ⟨hsnd, trivial⟩
      | error => exact ⟨hsnd, hrun⟩

/-! ## What is appended to a file -/

/-- `l'` is `l` after the records `new`, which carry the operations `ops`. -/
structure Appends (codec : RecordCodec) (normalize : String → Result String)
    (l l' : MetaLog) (ops : List RecordOp) (new : List MetadataRecord) : Prop extends Ready l' where
  snapshot : l'.snapshot = l.snapshot
  ops : new.map MetadataRecord.op = ops.map some
  state : new.foldl applyRecord (l.store.toMetaMaps, l.store.seq)
    = (l'.store.toMetaMaps, l'.store.seq)
  valid : ∀ r ∈ new, r.Valid normalize
  bytes : l'.store.wal.bytes = l.store.wal.bytes + framesLength (new.map codec.encode)
  below : l'.store.wal.needsCompaction = false

/-- **Calls that stay below the compaction thresholds append their records to the file, whatever it
holds.** The records do not depend on the CRC. -/
theorem run_appends : ∀ {l : MetaLog}, l.Ready → l.store.wal.needsCompaction = false →
      l.StaysBelow codec normalize calls →
      ∃ new, Appends codec normalize l (l.run codec normalize calls).1
          (l.run codec normalize calls).2 new ∧
        ∀ crc32 file, (l.node file).run crc32 codec normalize calls
          = ((l.run codec normalize calls).1.node
              (file ++ encodeFrames crc32 (new.map codec.encode)),
            (l.run codec normalize calls).2) := by
  induction calls with
  | nil =>
    intro l h hwal _
    refine ⟨[], ⟨h, rfl, rfl, rfl, by simp, rfl, hwal⟩, fun crc32 file ↦ ?_⟩
    rw [map_nil, encodeFrames_nil, append_nil]
    rfl
  | cons call calls ih =>
    obtain ⟨now, c⟩ := call
    intro l h hwal hbelow
    obtain ⟨hfits, hbelow⟩ := hbelow
    have hwal' : (l.call codec normalize now c).2.store.wal.needsCompaction = false := by
      obtain ⟨budget, ⟨e, -, hcall⟩ | ⟨-, -, ⟨-, hcall⟩ | ⟨hnot, -⟩⟩⟩ :=
        call_cases codec normalize l now c
      · rw [hcall]
        exact hwal
      · rw [hcall]
        exact hfits
      · exact absurd hfits hnot
    have hstep := fun crc32 file ↦ call_node codec normalize h crc32 now c file
    obtain ⟨new, happ, hrun⟩ := ih (h.call codec normalize now c) hwal' hbelow
    simp only [MetaNode.run, MetaLog.run, runCalls, hstep] at hrun happ ⊢
    obtain ⟨_, ⟨_, hmem, hcall⟩ | ⟨hmem, hval, ⟨-, hcall⟩ | ⟨hnot, -⟩⟩⟩ :=
      call_cases codec normalize l now c
    · simp only [hcall, fileAfter, hmem] at happ hrun ⊢
      exact ⟨new, { happ with }, hrun⟩
    · rw [Fits] at hfits
      simp only [hcall, fileAfter, hmem, hfits, Bool.false_eq_true, if_false] at happ hrun ⊢
      refine ⟨l.recordOf now c :: new,
        ⟨happ.toReady, happ.snapshot, ?_, ?_, ?_, ?_, happ.below⟩, ?_⟩
      · rw [map_cons, happ.ops, map_cons]
        rfl
      · rw [foldl_cons, applyRecord_recordOf, happ.state]
      · exact forall_mem_cons.mpr ⟨valid_recordOf hval l now, happ.valid⟩
      · rw [happ.bytes, map_cons, framesLength_cons, grown]
        dsimp only
        omega
      · intro crc32 file
        rw [hrun, map_cons, encodeFrames_cons, append_assoc]
    · exact absurd hfits hnot

end MetaLog

/-! ## Opening -/

variable (codec : RecordCodec)

theorem replayRecords_encode (records : List MetadataRecord) :
    ∀ state, replayRecords codec state (records.map codec.encode)
      = .ok (records.foldl applyRecord state) := by
  induction records with
  | nil => exact fun state ↦ rfl
  | cons r records ih =>
    intro state
    rw [map_cons, replayRecords, codec.decode_encode]
    exact ih _

variable (snapshot : Option StoreSnapshot)

/-- The length field of the frame can hold the length of the snapshot. -/
def SnapshotFits : Prop :=
  ∀ snap ∈ snapshot, (codec.encodeSnapshot snap).length < 2 ^ 32

instance : Decidable (SnapshotFits codec snapshot) :=
  inferInstanceAs (Decidable (∀ snap ∈ snapshot, _))

theorem loadSnapshot_eq {codec : RecordCodec} {snapshot : Option StoreSnapshot}
    (hver : ∀ snap, snapshot = some snap → snap.storeVersion = storeVersion)
    (hfits : SnapshotFits codec snapshot) (crc32 : Bytes → UInt32) :
    loadSnapshot crc32 codec snapshot = .ok (snapshotState snapshot) := by
  cases snapshot with
  | none => rfl
  | some snap =>
    have hread : decodeFramedPayload crc32 (framed crc32 snapMagic (codec.encodeSnapshot snap))
        = .ok (codec.encodeSnapshot snap) := by
      rw [decodeFramedPayload, ← append_nil (framed ..),
        readFramed_framed (by decide) (hfits snap rfl)]
    simp only [loadSnapshot, hread, bind, Except.bind, codec.decode_encodeSnapshot]
    rw [if_neg (not_not.mpr (hver snap rfl))]
    rfl

/-- The store that is opened on a snapshot and records, from a file of the given length. -/
def MetaStore.opened (limit bytes : ℕ) (mode : PersistMode) (state : MetaMaps × ℕ)
    (records : ℕ) : MetaStore :=
  { state.1 with
    seq := state.2
    budget := (MetaMemoryBudget.new limit).reset (estimateDashmapBytes state.1)
    mode
    wal := ⟨none, records, bytes⟩
    pending := [] }

section

variable {crc32 : Bytes → UInt32} {codec : RecordCodec}
  {normalize : String → Result String} {disk : MetaDisk}

/-- Opening replays the payloads that are read from the file on top of the snapshot. -/
theorem MetaStore.open_of_replay {payloads : List Bytes} {base state : MetaMaps × ℕ}
    (hread : decodeAllFrames crc32 disk.wal = .ok payloads)
    (hload : loadSnapshot crc32 codec disk.snapshot = .ok base)
    (hrep : replayRecords codec base payloads = .ok state)
    (hval : state.1.Valid normalize) (limit : ℕ) :
    MetaStore.open crc32 codec normalize limit disk
      = .ok ⟨.opened limit disk.wal.length (headerMode disk.header) state
          payloads.length, { disk with header := some (headerMode disk.header).asStr }⟩ := by
  simp only [MetaStore.open, MetaWal.open, hread, hload, hrep,
    hval.validateAllSchemas, bind, Except.bind, pure, Except.pure]
  rfl

theorem MetaStore.open_eq {records : List MetadataRecord}
    (hread : decodeAllFrames crc32 disk.wal = .ok (records.map codec.encode))
    (hload : loadSnapshot crc32 codec disk.snapshot = .ok (snapshotState disk.snapshot))
    (hbase : (snapshotState disk.snapshot).1.Valid normalize)
    (hval : ∀ r ∈ records, r.Valid normalize) (limit : ℕ) :
    MetaStore.open crc32 codec normalize limit disk
      = .ok ⟨.opened limit disk.wal.length (headerMode disk.header)
          (records.foldl applyRecord (snapshotState disk.snapshot)) records.length,
        { disk with header := some (headerMode disk.header).asStr }⟩ := by
  rw [open_of_replay hread hload (replayRecords_encode ..)
    (MetaMaps.Valid.foldl_applyRecord hbase hval), length_map]

theorem MetaStore.open_of_error {e : TsdbError}
    (hread : decodeAllFrames crc32 disk.wal = .error e) (limit : ℕ) :
    MetaStore.open crc32 codec normalize limit disk = .error e := by
  simp only [MetaStore.open, MetaWal.open, hread, bind, Except.bind]

/-- What an `open` that succeeds has read. -/
theorem MetaStore.open_eq_ok {limit : ℕ} {n : MetaNode}
    (h : MetaStore.open crc32 codec normalize limit disk = .ok n) :
    ∃ payloads base state, decodeAllFrames crc32 disk.wal = .ok payloads ∧
      loadSnapshot crc32 codec disk.snapshot = .ok base ∧
      replayRecords codec base payloads = .ok state ∧
      state.1.Valid normalize ∧
      n = ⟨.opened limit disk.wal.length (headerMode disk.header) state
        payloads.length, { disk with header := some (headerMode disk.header).asStr }⟩ := by
  have hopen := h
  obtain ⟨_, -, h⟩ := Result.bind_eq_ok.mp h
  obtain ⟨base, hload, h⟩ := Result.bind_eq_ok.mp h
  obtain ⟨payloads, hread, h⟩ := Result.bind_eq_ok.mp h
  obtain ⟨state, hrep, h⟩ := Result.bind_eq_ok.mp h
  obtain ⟨_, hchk, -⟩ := Result.bind_eq_ok.mp h
  have hval := valid_of_validateAllSchemas hchk
  rw [open_of_replay hread hload hrep hval] at hopen
  exact ⟨payloads, base, state, hread, hload, hrep, hval, (Except.ok.inj hopen).symm⟩

end

/-- The journal of an opened store. -/
def MetaLog.opened (limit bytes : ℕ) (snapshot : Option StoreSnapshot)
    (records : List MetadataRecord) : MetaLog :=
  ⟨.opened limit bytes .durable (records.foldl applyRecord (snapshotState snapshot))
    records.length, snapshot, records⟩

theorem MetaLog.sound_opened_nil (codec : RecordCodec) (normalize : String → Result String)
    (limit : ℕ) : (MetaLog.opened limit 0 none []).Sound codec normalize :=
  ⟨⟨rfl, rfl⟩, rfl, by simp [MetaLog.opened], MetaMaps.Valid.empty, by simp [MetaLog.opened], rfl,
    rfl, rfl⟩

theorem MetaStore.open_empty (crc32 : Bytes → UInt32) (codec : RecordCodec)
    (normalize : String → Result String) (limit : ℕ) :
    MetaStore.open crc32 codec normalize limit .empty
      = .ok ((MetaLog.opened limit 0 none []).node
          ((MetaLog.opened limit 0 none []).file crc32 codec)) := by
  have h := MetaLog.sound_opened_nil codec normalize limit
  have hread : decodeAllFrames crc32 MetaDisk.empty.wal
      = .ok (([] : List MetadataRecord).map codec.encode) := rfl
  exact MetaStore.open_eq hread rfl h.base h.valid limit

end MonoTS
