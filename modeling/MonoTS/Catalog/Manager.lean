import MonoTS.Catalog.Journal
import MonoTS.Lib.Path

/-!
# The catalog manager

`CatalogManager` is the catalog as the engine sees it: the metadata store, and the Arrow schemas of
the tables, which are built from the column definitions whenever these change. `create_table` checks
the columns, makes the directory of the table and creates its schema in the store; `add_column`
replaces the schema by one with a further column.

Column types are the structure `ColumnTypes`: how a type name is read and written back, and which
types a time column may have. An Arrow field is a name, a type and whether it may be null.
-/

namespace MonoTS

open LittleEndian MetaNode

/-! ## Columns -/

/-- The type names of the catalog. -/
structure ColumnTypes (τ : Type) where
  parse : String → Result τ
  toCanonical : τ → String
  /-- BIGINT or TIMESTAMP. -/
  isTime : τ → Bool

/-- An Arrow field. -/
structure Field (τ : Type) where
  name : String
  dataType : τ
  nullable : Bool
  deriving DecidableEq, Repr

namespace ColumnTypes

variable {τ : Type} (types : ColumnTypes τ)

def normalizeTypeName (typeName : String) : Result String :=
  (types.parse typeName).map types.toCanonical

def normalize (col : ColumnDef) : Result ColumnDef :=
  (types.normalizeTypeName col.dataType).map fun dataType ↦ { col with dataType }

def buildArrowSchema : List ColumnDef → Result (List (Field τ))
  | [] => .ok []
  | col :: cols =>
    match types.parse col.dataType with
    | .error e => .error e
    | .ok ty => (buildArrowSchema cols).map (⟨col.name, ty, col.nullable⟩ :: ·)

theorem length_buildArrowSchema {columns : List ColumnDef} {schema : List (Field τ)}
    (h : types.buildArrowSchema columns = .ok schema) : schema.length = columns.length := by
  induction columns generalizing schema with
  | nil => exact Except.ok.inj h ▸ rfl
  | cons col cols ih =>
    rw [buildArrowSchema] at h
    split at h
    · cases h
    · rcases hrest : types.buildArrowSchema cols with e | rest
      · rw [hrest] at h
        cases h
      · rw [hrest] at h
        rw [← Except.ok.inj h, List.length_cons, List.length_cons, ih hrest]

/-- The loop of `validate_and_normalize_columns`. -/
def normalizeColumns : List String → List ColumnDef → Result (List ColumnDef)
  | _, [] => .ok []
  | seen, col :: cols =>
    if isBlank col.name then .error (.schema "column name cannot be empty")
    else if col.name ∈ seen then .error (.schema s!"duplicate column name: {col.name}")
    else
      match types.normalize col with
      | .error e => .error e
      | .ok col' => (normalizeColumns (col.name :: seen) cols).map (col' :: ·)

def validateAndNormalizeColumns (columns : List ColumnDef) : Result (List ColumnDef) :=
  if columns = [] then .error (.schema "table must have at least one column")
  else
    match types.normalizeColumns [] columns with
    | .error e => .error e
    | .ok normalized =>
      match normalized.find? fun c ↦ c.name = timestampColumn with
      | none => .error (.schema s!"table must include a time column named `{timestampColumn}`")
      | some ts =>
        match types.parse ts.dataType with
        | .error e => .error e
        | .ok tsType =>
          if types.isTime tsType then
            .ok (normalized.map fun c ↦
              if c.name = timestampColumn then { c with nullable := false } else c)
          else .error (.schema "time column must be BIGINT or TIMESTAMP (s/ms/us/ns)")

/-- Every type name is its own type, and every type may be that of the time column. -/
def verbatim : ColumnTypes String := ⟨.ok, id, fun _ ↦ true⟩

end ColumnTypes

/-! ## The manager -/

/-- The store, and the Arrow schemas built from it. -/
structure CatalogManager (τ : Type) where
  store : MetaNode
  arrowSchemas : DashMap (List (Field τ))

namespace CatalogManager

variable {τ : Type} (crc32 : Bytes → UInt32) (codec : RecordCodec) (types : ColumnTypes τ)

variable (c : CatalogManager τ) (tableName : String)

/-- The schema that the store has of a table. -/
def getTable : Option TableSchema :=
  c.store.store.schemas.lookup tableName

/-- The catalog of an empty data directory. -/
def new (memoryLimitBytes : ℕ) : CatalogManager τ :=
  ⟨(MetaLog.opened memoryLimitBytes 0 none []).node [], ∅⟩

def getSchema : Option (List (Field τ)) :=
  c.arrowSchemas.lookup tableName

/-- `mkdir` is the result of `create_dir_all`. -/
def createTable (mkdir : Result Unit) (io : MetaIo) (now : ℤ) (tableName : String)
    (columns : List ColumnDef) (baseDataDir : String) (c : CatalogManager τ) :
    Result Unit × CatalogManager τ :=
  if (c.getTable tableName).isSome then
    (.error (.schema s!"table {tableName} already exists"), c)
  else
    match types.validateAndNormalizeColumns columns with
    | .error e => (.error e, c)
    | .ok columns =>
      match mkdir with
      | .error e => (.error e, c)
      | .ok () =>
        match types.buildArrowSchema columns with
        | .error e => (.error e, c)
        | .ok schema =>
          let dataDir := Path.join baseDataDir tableName
          match c.store.call crc32 codec types.normalizeTypeName io now
            (.createSchema ⟨tableName, columns, dataDir⟩) with
          | (.error e, store) => (.error e, { c with store })
          | (.ok (), store) => (.ok (), ⟨store, c.arrowSchemas.insert tableName schema⟩)

/-- Appended columns may be null, since the rows before them have no value. -/
def addColumn (io : MetaIo) (now : ℤ) (tableName : String) (newCol : ColumnDef)
    (c : CatalogManager τ) : Result Unit × CatalogManager τ :=
  match c.getTable tableName with
  | none => (.error (.tableNotFound tableName), c)
  | some schema =>
    match types.normalize newCol with
    | .error e => (.error e, c)
    | .ok newCol =>
      if schema.columns.any fun col ↦ col.name = newCol.name then
        (.error (.schema s!"column {newCol.name} already exists"), c)
      else
        let columns := schema.columns ++ [{ newCol with nullable := true }]
        match types.buildArrowSchema columns with
        | .error e => (.error e, c)
        | .ok newSchema =>
          match c.store.call crc32 codec types.normalizeTypeName io now
            (.putSchema { schema with columns }) with
          | (.error e, store) => (.error e, { c with store })
          | (.ok (), store) => (.ok (), ⟨store, c.arrowSchemas.insert tableName newSchema⟩)

def updateRuntime (io : MetaIo) (now : ℤ) (tableName : String) (files : List ParquetFileMeta)
    (c : CatalogManager τ) : Result Unit × CatalogManager τ :=
  let r := c.store.call crc32 codec types.normalizeTypeName io now (.setManifest tableName files)
  (r.1, { c with store := r.2 })

def dropTable (io : MetaIo) (now : ℤ) (tableName : String) (c : CatalogManager τ) :
    Result Unit × CatalogManager τ :=
  match c.store.call crc32 codec types.normalizeTypeName io now (.dropTable tableName) with
  | (.error e, store) => (.error e, { c with store })
  | (.ok (), store) => (.ok (), ⟨store, c.arrowSchemas.erase tableName⟩)

/-! ## What the calls do to the tables -/

variable {c : CatalogManager τ}

theorem getTable_congr {node : MetaNode}
    (h : node.store.toMetaMaps = c.store.store.toMetaMaps) (schemas : DashMap (List (Field τ)))
    (table : String) : getTable ⟨node, schemas⟩ table = c.getTable table := by
  rw [getTable, getTable, h]

theorem getTable_apply {node : MetaNode} {op : RecordOp}
    (h : node.store.toMetaMaps = c.store.store.toMetaMaps.apply op)
    (schemas : DashMap (List (Field τ))) (table : String) :
    getTable ⟨node, schemas⟩ table = op.schemaAt table (c.getTable table) := by
  rw [getTable, h, MetaMaps.lookup_schemas_apply, getTable]

variable (c) (io : MetaIo) (now : ℤ) (tableName : String)

theorem getTable_createTable (mkdir : Result Unit) (columns : List ColumnDef)
    (baseDataDir : String) :
    let c' := (c.createTable crc32 codec types mkdir io now tableName columns baseDataDir).2
    (∀ table, c'.getTable table = c.getTable table) ∨
      ∃ columns, ∀ table, c'.getTable table = if table = tableName then
        some ⟨tableName, columns, Path.join baseDataDir tableName⟩ else c.getTable table := by
  rw [createTable]
  split_ifs
  · exact .inl fun _ ↦ rfl
  split
  · exact .inl fun _ ↦ rfl
  split
  · exact .inl fun _ ↦ rfl
  split
  · exact .inl fun _ ↦ rfl
  dsimp only
  split
  · next hr => exact .inl (getTable_congr (maps_of_call hr) _)
  · next hr => exact .inr ⟨_, getTable_apply (maps_of_ok hr) _⟩

/-- A column is added to the schema of the table, in the store and in Arrow, or nothing changes. -/
theorem addColumn_cases (newCol : ColumnDef) :
    (∃ e c', c.addColumn crc32 codec types io now tableName newCol = (.error e, c') ∧
      (∀ table, c'.getTable table = c.getTable table) ∧ c'.arrowSchemas = c.arrowSchemas) ∨
    ∃ tableMeta col schema c',
      c.addColumn crc32 codec types io now tableName newCol = (.ok (), c') ∧
      c.getTable tableName = some tableMeta ∧
      types.buildArrowSchema (tableMeta.columns ++ [col]) = .ok schema ∧
      c'.arrowSchemas = c.arrowSchemas.insert tableName schema ∧
      ∀ table, c'.getTable table = if table = tableMeta.tableName then
        some { tableMeta with columns := tableMeta.columns ++ [col] } else c.getTable table := by
  rw [addColumn]
  split
  · exact .inl ⟨_, _, rfl, fun _ ↦ rfl, rfl⟩
  next tableMeta hmeta =>
    split
    · exact .inl ⟨_, _, rfl, fun _ ↦ rfl, rfl⟩
    split_ifs
    · exact .inl ⟨_, _, rfl, fun _ ↦ rfl, rfl⟩
    dsimp only
    split
    · exact .inl ⟨_, _, rfl, fun _ ↦ rfl, rfl⟩
    next hbuild =>
      split
      · next hr => exact .inl ⟨_, _, rfl, getTable_congr (maps_of_call hr) _, rfl⟩
      · next hr =>
        exact .inr ⟨tableMeta, _, _, _, rfl, hmeta, hbuild, rfl, getTable_apply (maps_of_ok hr) _⟩

theorem getTable_updateRuntime (files : List ParquetFileMeta) (table : String) :
    (c.updateRuntime crc32 codec types io now tableName files).2.getTable table
      = c.getTable table := by
  rw [updateRuntime]
  rcases hr : c.store.call crc32 codec types.normalizeTypeName io now
    (.setManifest tableName files) with ⟨_ | _, node⟩
  · exact getTable_congr (maps_of_call hr) _ table
  · exact getTable_apply (maps_of_ok hr) _ table

theorem getTable_dropTable :
    let c' := (c.dropTable crc32 codec types io now tableName).2
    (∀ table, c'.getTable table = c.getTable table) ∨
      ∀ table, c'.getTable table = if table = tableName then none else c.getTable table := by
  rw [dropTable]
  split
  · next hr => exact .inl (getTable_congr (maps_of_call hr) _)
  · next hr => exact .inr (getTable_apply (maps_of_ok hr) _)

end CatalogManager

end MonoTS
