import MonoTS.Catalog.Wal
import MonoTS.DashMap
import MonoTS.Lib.Codec

/-!
# The metadata store

`MetaStore` keeps the schemas and the manifests of all tables in memory and makes every change
durable by a record in the metadata WAL. When the WAL has grown, the maps are written out as a
snapshot and the WAL is removed. `MetaStore.open` loads the snapshot and applies the records of the
WAL to it.

A call changes the maps first, then takes a sequence number, then appends its record. An append that
fails does not fail the call: the store switches to `MemoryOnly`, keeps the record in `pending`, and
writes the mode into the header file, from which the next `open` restores it.

The files of the store are `MetaDisk`. The snapshot and the header are replaced by a rename, so they
are kept as values; the WAL is the byte string of the file. A snapshot is read from the frame that
`save` writes, whose length field has 32 bits. Protobuf is the structure `RecordCodec`, of which
only "decode inverts encode" is assumed. Whether a type name is valid is decided by
`normalizeTypeName`, an arbitrary function here.
-/

namespace MonoTS

open Codec (string int)

open LittleEndian

/-! ## Records -/

/-- A column as it was declared. -/
structure ColumnDef where
  name : String
  dataType : String
  nullable : Bool
  deriving DecidableEq, Repr

/-- An SST in a manifest. -/
structure ParquetFileMeta where
  filePath : String
  minTs : ℤ
  maxTs : ℤ
  rowCount : ℕ
  fileSize : ℕ
  creationTimeMs : ℤ
  innerCompactionCount : ℕ
  crossCompactionCount : ℕ
  baseLsn : ℕ
  maxLsn : ℕ
  deriving DecidableEq, Repr

/-- The definition of a table. -/
structure TableSchema where
  tableName : String
  columns : List ColumnDef
  dataDir : String
  deriving DecidableEq, Repr

/-- The SSTs of a table. -/
structure TableManifest where
  files : List ParquetFileMeta
  deriving DecidableEq, Repr

/-- The operation of a record. -/
inductive RecordOp where
  | putSchema (schema : Option TableSchema)
  | setManifest (table : String) (files : List ParquetFileMeta)
  | dropTable (table : String)
  deriving DecidableEq, Repr

/-- An entry of the metadata WAL. -/
structure MetadataRecord where
  seq : ℕ
  timestampMs : ℤ
  op : Option RecordOp

/-! ## The maps -/

/-- What the store knows: the schema and the manifest of every table. -/
structure MetaMaps where
  schemas : DashMap TableSchema
  manifests : DashMap TableManifest

namespace MetaMaps

def empty : MetaMaps := ⟨∅, ∅⟩

variable (maps : MetaMaps)

def putSchema (schema : TableSchema) : MetaMaps :=
  ⟨maps.schemas.insert schema.tableName schema, maps.manifests.orDefault schema.tableName ⟨[]⟩⟩

def setManifest (table : String) (files : List ParquetFileMeta) : MetaMaps :=
  ⟨maps.schemas, maps.manifests.insert table ⟨files⟩⟩

def dropTable (table : String) : MetaMaps :=
  ⟨maps.schemas.erase table, maps.manifests.erase table⟩

/-- The effect of an operation on the maps. -/
def apply : RecordOp → MetaMaps
  | .putSchema (some schema) => maps.putSchema schema
  | .putSchema none => maps
  | .setManifest table files => maps.setManifest table files
  | .dropTable table => maps.dropTable table

/-- The two maps hold the same tables with the same schemas and manifests. -/
def Same (a b : MetaMaps) : Prop :=
  ∀ table, a.schemas.lookup table = b.schemas.lookup table ∧
    a.manifests.lookup table = b.manifests.lookup table

end MetaMaps

/-- `apply_record` on the maps and the sequence number. -/
def applyRecord (state : MetaMaps × ℕ) (record : MetadataRecord) : MetaMaps × ℕ :=
  (match record.op with
    | some op => state.1.apply op
    | none => state.1,
   if state.2 < record.seq then record.seq else state.2)

/-! ## The memory budget -/

/-- The bytes the maps may take. -/
structure MetaMemoryBudget where
  limitBytes : ℕ
  usedBytes : ℕ

namespace MetaMemoryBudget

def new (limitBytes : ℕ) : MetaMemoryBudget := ⟨max limitBytes 1, 0⟩

variable (budget : MetaMemoryBudget) (bytes : ℕ)

def tryReserve : Option MetaMemoryBudget :=
  if bytes = 0 then some budget
  else if budget.limitBytes < saturatingAdd budget.usedBytes bytes then none
  else some { budget with usedBytes := budget.usedBytes + bytes }

/-- `fetch_sub` wraps around. -/
def release : MetaMemoryBudget :=
  { budget with usedBytes := (budget.usedBytes + (2 ^ 64 - bytes % 2 ^ 64)) % 2 ^ 64 }

def reset : MetaMemoryBudget :=
  { budget with usedBytes := bytes }

end MetaMemoryBudget

def estimateSchemaBytes (schema : TableSchema) : ℕ :=
  schema.tableName.utf8ByteSize + schema.dataDir.utf8ByteSize + 48 +
    (schema.columns.map fun c ↦ c.name.utf8ByteSize + c.dataType.utf8ByteSize + 16).sum

def estimateManifestDelta (table : String) (files : List ParquetFileMeta) : ℕ :=
  table.utf8ByteSize + 32 + (files.map fun f ↦ f.filePath.utf8ByteSize + 64).sum

def estimateDashmapBytes (maps : MetaMaps) : ℕ :=
  64 + (maps.schemas.entries.map fun entry ↦
      entry.1.utf8ByteSize + 32 + (entry.2.tableName.utf8ByteSize + entry.2.dataDir.utf8ByteSize) +
        (entry.2.columns.map fun c ↦ c.name.utf8ByteSize + c.dataType.utf8ByteSize + 16).sum).sum +
    (maps.manifests.entries.map fun entry ↦
      entry.1.utf8ByteSize + 32 + (entry.2.files.map fun f ↦ f.filePath.utf8ByteSize + 64).sum).sum

/-! ## Validation -/

def timestampColumn : String := "time"

/-- The schema of a table that has only its time column. -/
def timeSchema (tableName : String) : TableSchema :=
  ⟨tableName, [⟨timestampColumn, "Int64", false⟩], tableName⟩

section

variable (normalize : String → Result String)

def validateColumns : List String → List ColumnDef → Result Unit
  | _, [] => .ok ()
  | seen, col :: cols =>
    if isBlank col.name then .error (.schema "column name cannot be empty")
    else if col.name ∈ seen then .error (.schema s!"duplicate column name: {col.name}")
    else
      match normalize col.dataType with
      | .error e => .error e
      | .ok _ => validateColumns (col.name :: seen) cols

def validateSchemaProto (schema : TableSchema) : Result Unit :=
  if isBlank schema.tableName then .error (.schema "table name cannot be empty")
  else if schema.columns = [] then .error (.schema "table must have at least one column")
  else
    match validateColumns normalize [] schema.columns with
    | .error e => .error e
    | .ok () =>
      if schema.columns.any fun c ↦ c.name = timestampColumn then .ok ()
      else .error (.schema s!"table must include a time column named `{timestampColumn}`")

def validateSchemas : List TableSchema → Result Unit
  | [] => .ok ()
  | schema :: schemas =>
    match validateSchemaProto normalize schema with
    | .error e => .error e
    | .ok () => validateSchemas schemas

/-- `validate_all_schemas`. -/
def MetaMaps.validateAllSchemas (maps : MetaMaps) : Result Unit :=
  validateSchemas normalize (maps.schemas.entries.map Sigma.snd)

end

/-! ## The store and its files -/

/-- Whether calls are logged. -/
inductive PersistMode where
  | durable
  | memoryOnly
  deriving DecidableEq, Repr

def PersistMode.asStr : PersistMode → String
  | .durable => "durable"
  | .memoryOnly => "memory_only"

def PersistMode.fromStr (s : String) : PersistMode :=
  if s = "memory_only" then .memoryOnly else .durable

/-- The mode a header file asks for; without one the store starts durable. -/
def headerMode : Option String → PersistMode
  | some text => PersistMode.fromStr text
  | none => .durable

def storeVersion : ℕ := 1

/-- The maps as a compaction saves them. -/
structure StoreSnapshot extends MetaMaps where
  storeVersion : ℕ
  seq : ℕ

/-- The protobuf codec of a record and of a snapshot. -/
structure RecordCodec where
  encode : MetadataRecord → Bytes
  decode : Bytes → Except String MetadataRecord
  decode_encode : ∀ r, decode (encode r) = .ok r
  encodeSnapshot : StoreSnapshot → Bytes
  decodeSnapshot : Bytes → Except String StoreSnapshot
  decode_encodeSnapshot : ∀ snap, decodeSnapshot (encodeSnapshot snap) = .ok snap

variable {α : Type}

/-- Read a value off the front. -/
def readWhole (codec : Codec α) (bytes : Bytes) : Except String α :=
  match codec.decode bytes with
  | some (x, _) => .ok x
  | none => .error "invalid message"

theorem readWhole_encode (codec : Codec α) (x : α) : readWhole codec (codec.encode x) = .ok x := by
  have h := codec.decode_append x []
  rw [List.append_nil] at h
  rw [readWhole, h]

/-- A map as the list of its entries. -/
def DashMap.codec (a : Codec α) : Codec (DashMap α) :=
  ((string.pair a).iso (fun e : Sigma fun _ : String ↦ α ↦ (e.1, e.2)) (fun x ↦ ⟨x.1, x.2⟩)
    fun _ ↦ rfl).list.iso AList.entries
    (fun l ↦ if h : (l.map Sigma.fst).Nodup then ⟨l, h⟩ else ∅) fun m ↦ dif_pos m.nodupKeys

/-- A codec that writes field by field. -/
def RecordCodec.plain : RecordCodec :=
  let column : Codec ColumnDef := (string.pair (string.pair Codec.bool)).iso
    (fun c ↦ (c.name, c.dataType, c.nullable)) (fun x ↦ ⟨x.1, x.2.1, x.2.2⟩) fun _ ↦ rfl
  let schema : Codec TableSchema := (string.pair (column.list.pair string)).iso
    (fun s ↦ (s.tableName, s.columns, s.dataDir)) (fun x ↦ ⟨x.1, x.2.1, x.2.2⟩) fun _ ↦ rfl
  let bounds : Codec (ℕ × ℕ) := Codec.nat.pair Codec.nat
  let file : Codec ParquetFileMeta :=
    (string.pair ((int.pair int).pair (bounds.pair (int.pair
      (bounds.pair bounds))))).iso
    (fun f ↦ (f.filePath, (f.minTs, f.maxTs), (f.rowCount, f.fileSize), f.creationTimeMs,
      (f.innerCompactionCount, f.crossCompactionCount), f.baseLsn, f.maxLsn))
    (fun (path, (minTs, maxTs), (rows, size), created, (inner, cross), base, max) ↦
      ⟨path, minTs, maxTs, rows, size, created, inner, cross, base, max⟩) fun _ ↦ rfl
  let op : Codec RecordOp :=
    (schema.option.sum ((string.pair file.list).sum string)).iso
      (fun
        | .putSchema schema => .inl schema
        | .setManifest table files => .inr (.inl (table, files))
        | .dropTable table => .inr (.inr table))
      (fun
        | .inl schema => .putSchema schema
        | .inr (.inl (table, files)) => .setManifest table files
        | .inr (.inr table) => .dropTable table)
      fun x ↦ by cases x <;> rfl
  let record : Codec MetadataRecord := (Codec.nat.pair (int.pair op.option)).iso
    (fun r ↦ (r.seq, r.timestampMs, r.op)) (fun x ↦ ⟨x.1, x.2.1, x.2.2⟩) fun _ ↦ rfl
  let snapshot : Codec StoreSnapshot := ((DashMap.codec schema).pair ((DashMap.codec (file.list.iso
      TableManifest.files TableManifest.mk fun _ ↦ rfl)).pair (Codec.nat.pair Codec.nat))).iso
    (fun s ↦ (s.schemas, s.manifests, s.storeVersion, s.seq))
    (fun x ↦ ⟨⟨x.1, x.2.1⟩, x.2.2.1, x.2.2.2⟩) fun _ ↦ rfl
  { encode := record.encode
    decode := readWhole record
    decode_encode := readWhole_encode record
    encodeSnapshot := snapshot.encode
    decodeSnapshot := readWhole snapshot
    decode_encodeSnapshot := readWhole_encode snapshot }

/-- The files under `meta/`. Of the header only the persist mode is ever read. -/
structure MetaDisk where
  header : Option String
  wal : Bytes
  /-- The snapshot that was saved last; the file is its frame. -/
  snapshot : Option StoreSnapshot

/-- The directory before the first `open`. -/
def MetaDisk.empty : MetaDisk := ⟨none, [], none⟩

/-- The store in memory. -/
structure MetaStore extends MetaMaps where
  seq : ℕ
  budget : MetaMemoryBudget
  mode : PersistMode
  wal : MetaWal
  pending : List Bytes

/-- A running store with its files. -/
structure MetaNode where
  store : MetaStore
  disk : MetaDisk

/-- What the system does with the file operations of one call. -/
structure MetaIo where
  append : AppendIo
  /-- `snapshot.save` succeeds. -/
  save : Bool
  /-- The WAL file can be removed. -/
  truncate : Bool
  /-- `write_header` succeeds. -/
  header : Bool
  deriving DecidableEq, Repr

def MetaIo.healthy : MetaIo := ⟨.done, true, true, true⟩

/-! ## Opening -/

def snapMagic : ℕ := 0x50414E53

variable (crc32 : Bytes → UInt32)

def decodeFramedPayload (data : Bytes) : Result Bytes :=
  match MetaWal.readFramed crc32 snapMagic data with
  | .item payload _ => .ok payload
  | .stop .endOfFile | .stop .trailingGarbage => .error (.storage "framed payload too small")
  | .stop (.invalidMagic _ magic) => .error (.storage s!"invalid frame magic: {hexString magic}")
  | .stop .partialRecord => .error (.storage "truncated framed payload")
  | .stop .crcMismatch => .error (.storage "frame crc mismatch")

/-- The maps and the sequence number of the snapshot, which is read from its frame. -/
def loadSnapshot (codec : RecordCodec) : Option StoreSnapshot → Result (MetaMaps × ℕ)
  | none => .ok (.empty, 0)
  | some saved => do
    let payload ← decodeFramedPayload crc32
      (MetaWal.framed crc32 snapMagic (codec.encodeSnapshot saved))
    match codec.decodeSnapshot payload with
    | .error e => .error (.storage s!"decode snapshot: {e}")
    | .ok snap =>
      if snap.storeVersion ≠ storeVersion then
        .error (.storage (s!"unsupported metadata store_version {snap.storeVersion}, " ++
            s!"expected {storeVersion}"))
      else .ok (snap.toMetaMaps, snap.seq)

/-- Decode the frames of the WAL and apply them one after the other. -/
def replayRecords (codec : RecordCodec) : MetaMaps × ℕ → List Bytes → Result (MetaMaps × ℕ)
  | state, [] => .ok state
  | state, frame :: frames =>
    match codec.decode frame with
    | .error e => .error (.storage s!"wal record decode: {e}")
    | .ok record => replayRecords codec (applyRecord state record) frames

namespace MetaStore

def «open» (crc32 : Bytes → UInt32) (codec : RecordCodec)
    (normalize : String → Result String) (memoryLimitBytes : ℕ) (disk : MetaDisk) :
    Result MetaNode := do
  let wal ← MetaWal.open crc32 disk.wal
  let base ← loadSnapshot crc32 codec disk.snapshot
  let frames ← MetaWal.decodeAllFrames crc32 disk.wal
  let (maps, seq) ← replayRecords codec base frames
  let budget := (MetaMemoryBudget.new memoryLimitBytes).reset (estimateDashmapBytes maps)
  maps.validateAllSchemas normalize
  let mode := headerMode disk.header
  return ⟨{ maps with seq, budget, mode, wal, pending := [] },
    { disk with header := some mode.asStr }⟩

def buildSnapshot (store : MetaStore) : StoreSnapshot :=
  { store.toMetaMaps with storeVersion, seq := store.seq }

/-! ## The changes in memory

Each is the part of a call in front of its sequence number. -/

section

variable (normalize : String → Result String) (store : MetaStore) (schema : TableSchema)

def putSchemaInMemory : Result Unit × MetaStore :=
  match validateSchemaProto normalize schema with
  | .error e => (.error e, store)
  | .ok () =>
    let newBytes := estimateSchemaBytes schema
    let oldBytes := ((store.schemas.lookup schema.tableName).map estimateSchemaBytes).getD 0
    let maps := store.toMetaMaps.putSchema schema
    if oldBytes < newBytes then
      match store.budget.tryReserve (newBytes - oldBytes) with
      | none =>
        (.error (.storage s!"metadata memory budget exceeded ({store.budget.limitBytes} bytes)"),
          store)
      | some budget => (.ok (), { store with toMetaMaps := maps, budget })
    else if newBytes < oldBytes then
      (.ok (), { store with
        toMetaMaps := maps, budget := store.budget.release (oldBytes - newBytes) })
    else (.ok (), { store with toMetaMaps := maps })

def createSchemaInMemory : Result Unit × MetaStore :=
  match validateSchemaProto normalize schema with
  | .error e => (.error e, store)
  | .ok () =>
    match store.schemas.lookup schema.tableName with
    | some _ => (.error (.schema s!"table {schema.tableName} already exists"), store)
    | none =>
      match store.budget.tryReserve (estimateSchemaBytes schema) with
      | none =>
        (.error (.storage s!"metadata memory budget exceeded ({store.budget.limitBytes} bytes)"),
          store)
      | some budget =>
        (.ok (), { store with toMetaMaps := store.toMetaMaps.putSchema schema, budget })

/-- The bytes of the old manifest are released before the new ones are reserved, and stay released
when that fails. -/
def setManifestInMemory (table : String) (files : List ParquetFileMeta) : Result Unit × MetaStore :=
  match store.schemas.lookup table with
  | none => (.error (.tableNotFound table), store)
  | some _ =>
    let budget := match store.manifests.lookup table with
      | some old => store.budget.release (estimateManifestDelta table old.files)
      | none => store.budget
    match budget.tryReserve (estimateManifestDelta table files) with
    | none =>
      (.error (.storage s!"metadata memory budget exceeded for manifest on {table}"),
        { store with budget })
    | some budget =>
      (.ok (), { store with toMetaMaps := store.toMetaMaps.setManifest table files, budget })

def dropTableInMemory (table : String) : Result Unit × MetaStore :=
  match store.schemas.lookup table with
  | none => (.error (.tableNotFound table), store)
  | some schema =>
    let manifestBytes :=
      ((store.manifests.lookup table).map fun m ↦ estimateManifestDelta table m.files).getD 0
    (.ok (), { store with
      toMetaMaps := store.toMetaMaps.dropTable table,
      budget := (store.budget.release (estimateSchemaBytes schema)).release manifestBytes })

end

end MetaStore

/-! ## Making a change durable -/

namespace MetaNode

def writeHeader (written : Bool) (mode : PersistMode) (n : MetaNode) : Result Unit × MetaNode :=
  if written then (.ok (), { n with disk := { n.disk with header := some mode.asStr } })
  else (.error MetaWal.ioError, n)

def compact (io : MetaIo) (n : MetaNode) : Result Unit × MetaNode :=
  if io.save then
    match n.store.wal.truncate io.truncate n.disk.wal with
    | (.error e, wal, data) =>
      (.error e, ⟨{ n.store with wal },
        { n.disk with wal := data, snapshot := some n.store.buildSnapshot }⟩)
    | (.ok (), wal, data) =>
      writeHeader io.header n.store.mode ⟨{ n.store with wal },
        { n.disk with wal := data, snapshot := some n.store.buildSnapshot }⟩
  else (.error MetaWal.ioError, n)

section

variable (crc32 : Bytes → UInt32) (codec : RecordCodec)

/-- Append a record. A failed append degrades the store, a failed compaction is only logged; the
call succeeds in either case. -/
def appendRecord (io : MetaIo) (record : MetadataRecord) (n : MetaNode) : Result Unit × MetaNode :=
  let bytes := codec.encode record
  match n.store.mode with
  | .memoryOnly =>
    (.ok (), { n with store := { n.store with pending := n.store.pending ++ [bytes] } })
  | .durable =>
    match n.store.wal.append crc32 io.append bytes n.disk.wal with
    | (.ok (), wal, data) =>
      let n' : MetaNode := ⟨{ n.store with wal }, { n.disk with wal := data }⟩
      (.ok (), if wal.needsCompaction then (n'.compact io).2 else n')
    | (.error _, wal, data) =>
      let n' : MetaNode :=
        ⟨{ n.store with wal, mode := .memoryOnly, pending := n.store.pending ++ [bytes] },
          { n.disk with wal := data }⟩
      (.ok (), (n'.writeHeader io.header .memoryOnly).2)

/-- The rest of a call whose change in memory is given: take a sequence number and append the
record. -/
def commit (io : MetaIo) (now : ℤ) (memory : Result Unit × MetaStore) (op : RecordOp)
    (n : MetaNode) : Result Unit × MetaNode :=
  match memory with
  | (.error e, store) => (.error e, { n with store })
  | (.ok (), store) =>
    let seq := store.seq + 1
    appendRecord crc32 codec io ⟨seq, now, some op⟩ { n with store := { store with seq } }

variable (normalize : String → Result String)

def putSchema (io : MetaIo) (now : ℤ) (schema : TableSchema) (n : MetaNode) :
    Result Unit × MetaNode :=
  n.commit crc32 codec io now (n.store.putSchemaInMemory normalize schema)
    (.putSchema (some schema))

def createSchema (io : MetaIo) (now : ℤ) (schema : TableSchema) (n : MetaNode) :
    Result Unit × MetaNode :=
  n.commit crc32 codec io now (n.store.createSchemaInMemory normalize schema)
    (.putSchema (some schema))

def setManifest (io : MetaIo) (now : ℤ) (table : String) (files : List ParquetFileMeta)
    (n : MetaNode) : Result Unit × MetaNode :=
  n.commit crc32 codec io now (n.store.setManifestInMemory table files) (.setManifest table files)

def dropTable (io : MetaIo) (now : ℤ) (table : String) (n : MetaNode) : Result Unit × MetaNode :=
  n.commit crc32 codec io now (n.store.dropTableInMemory table) (.dropTable table)

/-- Append the pending records, one after the other. -/
def appendPending (io : ℕ → AppendIo) : ℕ → List Bytes → MetaWal → Bytes →
    Result Unit × MetaWal × Bytes
  | _, [], wal, data => (.ok (), wal, data)
  | i, frame :: frames, wal, data =>
    match wal.append crc32 (io i) frame data with
    | (.error e, wal, data) => (.error e, wal, data)
    | (.ok (), wal, data) => appendPending io (i + 1) frames wal data

/-- `try_recover_durable`. The records are taken out of `pending` before the first one is
written. -/
def tryRecoverDurable (io : ℕ → AppendIo) (header : Bool) (n : MetaNode) : Result Unit × MetaNode :=
  match n.store.mode with
  | .durable => (.ok (), n)
  | .memoryOnly =>
    match appendPending crc32 io 0 n.store.pending n.store.wal n.disk.wal with
    | (.error e, wal, data) =>
      (.error e, ⟨{ n.store with wal, pending := [] }, { n.disk with wal := data }⟩)
    | (.ok (), wal, data) =>
      writeHeader header .durable
        ⟨{ n.store with wal, pending := [], mode := .durable }, { n.disk with wal := data }⟩

end

end MetaNode

/-! ## Calls -/

/-- A call of the store's interface. -/
inductive MetaCall where
  | createSchema (schema : TableSchema)
  | putSchema (schema : TableSchema)
  | setManifest (table : String) (files : List ParquetFileMeta)
  | dropTable (table : String)

/-- The operation a call records. -/
def MetaCall.op : MetaCall → RecordOp
  | .createSchema schema => .putSchema (some schema)
  | .putSchema schema => .putSchema (some schema)
  | .setManifest table files => .setManifest table files
  | .dropTable table => .dropTable table

section

variable (crc32 : Bytes → UInt32) (codec : RecordCodec)
  (normalize : String → Result String)

/-- The change of a call in memory. -/
def MetaStore.inMemory (store : MetaStore) : MetaCall → Result Unit × MetaStore
  | .createSchema schema => store.createSchemaInMemory normalize schema
  | .putSchema schema => store.putSchemaInMemory normalize schema
  | .setManifest table files => store.setManifestInMemory table files
  | .dropTable table => store.dropTableInMemory table

def MetaNode.call (io : MetaIo) (now : ℤ) (n : MetaNode) : MetaCall → Result Unit × MetaNode
  | .createSchema schema => n.createSchema crc32 codec normalize io now schema
  | .putSchema schema => n.putSchema crc32 codec normalize io now schema
  | .setManifest table files => n.setManifest crc32 codec io now table files
  | .dropTable table => n.dropTable crc32 codec io now table

theorem MetaNode.call_eq (io : MetaIo) (now : ℤ) (n : MetaNode) (c : MetaCall) :
    n.call crc32 codec normalize io now c
      = n.commit crc32 codec io now (n.store.inMemory normalize c) c.op := by
  cases c <;> rfl

end

/-! ## Maps by their lookups -/

namespace RecordOp

/-- The schema of a table after the operation. -/
def schemaAt (table : String) (old : Option TableSchema) : RecordOp → Option TableSchema
  | .putSchema (some schema) => if table = schema.tableName then some schema else old
  | .putSchema none => old
  | .setManifest _ _ => old
  | .dropTable t => if table = t then none else old

/-- The manifest of a table after the operation. -/
def manifestAt (table : String) (old : Option TableManifest) : RecordOp → Option TableManifest
  | .putSchema (some schema) =>
    if table = schema.tableName then some (old.getD ⟨[]⟩) else old
  | .putSchema none => old
  | .setManifest t files => if table = t then some ⟨files⟩ else old
  | .dropTable t => if table = t then none else old

end RecordOp

namespace MetaMaps

variable (maps : MetaMaps) (op : RecordOp) (table : String)

theorem lookup_schemas_apply :
    (maps.apply op).schemas.lookup table = op.schemaAt table (maps.schemas.lookup table) := by
  cases op with
  | putSchema s =>
    cases s with
    | none => rfl
    | some s =>
      rw [RecordOp.schemaAt]
      split_ifs with h
      · subst h
        exact AList.lookup_insert _
      · exact AList.lookup_insert_ne h
  | setManifest => rfl
  | dropTable =>
    rw [RecordOp.schemaAt]
    split_ifs with h
    · subst h
      exact AList.lookup_erase ..
    · exact AList.lookup_erase_ne h

theorem lookup_manifests_apply :
    (maps.apply op).manifests.lookup table = op.manifestAt table (maps.manifests.lookup table) := by
  cases op with
  | putSchema s =>
    cases s with
    | none => rfl
    | some s => exact DashMap.lookup_orDefault maps.manifests s.tableName ⟨[]⟩ table
  | setManifest =>
    rw [RecordOp.manifestAt]
    split_ifs with h
    · subst h
      exact AList.lookup_insert _
    · exact AList.lookup_insert_ne h
  | dropTable =>
    rw [RecordOp.manifestAt]
    split_ifs with h
    · subst h
      exact AList.lookup_erase ..
    · exact AList.lookup_erase_ne h

end MetaMaps

/-! ## What a call does in memory -/

namespace MetaNode

theorem store_writeHeader (n : MetaNode) (written : Bool) (mode : PersistMode) :
    (n.writeHeader written mode).2.store = n.store := by
  rw [writeHeader]
  split_ifs <;> rfl

theorem memory_compact (n : MetaNode) (io : MetaIo) :
    (n.compact io).2.store.toMetaMaps = n.store.toMetaMaps ∧
      (n.compact io).2.store.budget = n.store.budget := by
  rw [compact]
  split_ifs
  · split
    · exact ⟨rfl, rfl⟩
    · rw [store_writeHeader]
      exact ⟨rfl, rfl⟩
  · exact ⟨rfl, rfl⟩

theorem memory_appendRecord (crc32 : Bytes → UInt32) (codec : RecordCodec) (io : MetaIo)
    (record : MetadataRecord) (n : MetaNode) :
    let r := n.appendRecord crc32 codec io record
    r.1 = .ok () ∧ r.2.store.toMetaMaps = n.store.toMetaMaps ∧
      r.2.store.budget = n.store.budget := by
  rw [appendRecord]
  split
  · exact ⟨rfl, rfl, rfl⟩
  · dsimp only
    split
    · refine ⟨rfl, ?_⟩
      split_ifs
      · exact memory_compact _ io
      · exact ⟨rfl, rfl⟩
    · refine ⟨rfl, ?_⟩
      rw [store_writeHeader]
      exact ⟨rfl, rfl⟩

variable (crc32 : Bytes → UInt32) (codec : RecordCodec)
  (normalize : String → Result String)

/-- A call has the result of its change in memory, and its effect on the maps and the budget. -/
theorem memory_call (io : MetaIo) (now : ℤ) (n : MetaNode) (c : MetaCall) :
    let r := n.call crc32 codec normalize io now c
    let m := n.store.inMemory normalize c
    r.1 = m.1 ∧ r.2.store.toMetaMaps = m.2.toMetaMaps ∧ r.2.store.budget = m.2.budget := by
  intro r m
  simp only [r, call_eq]
  rw [commit.eq_def]
  split
  · next e store hm => exact ⟨(congrArg Prod.fst hm).symm, congrArg (·.2.toMetaMaps) hm.symm,
      congrArg (·.2.budget) hm.symm⟩
  · next store hm =>
    obtain ⟨hok, hmaps, hbud⟩ := memory_appendRecord crc32 codec io
      ⟨store.seq + 1, now, some c.op⟩ { n with store := { store with seq := store.seq + 1 } }
    refine ⟨hok.trans (congrArg Prod.fst hm).symm, hmaps.trans ?_, hbud.trans ?_⟩
    · exact congrArg (·.2.toMetaMaps) hm.symm
    · exact congrArg (·.2.budget) hm.symm

end MetaNode

end MonoTS
