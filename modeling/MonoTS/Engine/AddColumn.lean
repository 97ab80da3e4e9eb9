import MonoTS.Catalog.Manager
import MonoTS.Lib.Transition

/-!
# Adding a column to a running table

A loaded table has its schema in several places: the columns and the Arrow schema of the catalog,
the `LsmTable` with its mutable memtable, the compactor, and the provider under which queries know
the table. `ALTER TABLE .. ADD COLUMN` changes them one after the other. The catalog comes first.
Then the memtables are flushed, the table gets the new schema and an empty memtable, the files of
the flush are recorded in the catalog, and the provider is registered anew.

Every step behind the first can fail, and nothing is undone. So the schemas agree after a failed
call only if it was the catalog that refused the column (`addColumn_atomic_iff`). After any other
failure they do not: when the flush fails, later writes are aligned to a schema that the memtable
does not accept, and the column cannot be added again, since the catalog has it
(`failed_flush_divides_schemas`).

The model is of one table. What the steps that are not modelled return is given by `AddColumnIo`.
Flushing replaces the memtable by one of the same schema.
-/

open Transition LittleEndian

namespace MonoTS

open CatalogManager

/-- The schemas in an `LsmTable`. -/
structure TableSchemas (τ : Type) where
  schema : List (Field τ)
  /-- The schema of the mutable memtable. -/
  mutable : List (Field τ)
  deriving DecidableEq, Repr

/-- The owners of a copy of a table's schema. -/
structure SchemaOwners (τ : Type) where
  catalog : CatalogManager τ
  /-- The table, if it is loaded. -/
  table : Option (TableSchemas τ)
  compactor : Option (List (Field τ))
  /-- The provider that is registered for queries. -/
  provider : Option (List (Field τ))

/-- The results of the steps of `add_column`. -/
structure AddColumnIo where
  /-- `LsmTable::open_with_options`, if the table is not loaded. -/
  load : Result Unit
  /-- The first registration of the provider. -/
  mount : Result Unit
  catalog : MetaIo
  now : ℤ
  /-- `update_runtime`, if files have been flushed. -/
  manifest : MetaIo
  updatedAt : ℤ
  /-- `flush_all`, with the number of files it has written. -/
  flush : Result ℕ
  ensureWritable : Result Unit
  nextId : Result Unit
  rotate : Result Unit
  /-- The file index behind the flush. -/
  files : List ParquetFileMeta
  unregister : Result Unit
  register : Result Unit

namespace TableSchemas

variable {τ : Type}

/-- The WAL is rotated first; the memory changes only after that has succeeded. -/
def applySchemaEvolution (io : AddColumnIo) (newSchema : List (Field τ)) :
    Result (TableSchemas τ) := do
  io.ensureWritable
  io.nextId
  io.rotate
  .ok ⟨newSchema, newSchema⟩

/-- `insert_for_table`, of a batch of the given length and schema. -/
def insertForTable [DecidableEq τ] (table : TableSchemas τ) (numRows : ℕ)
    (schema : List (Field τ)) : Result Unit :=
  if numRows = 0 then .ok ()
  else if schema ≠ table.mutable then
    .error (.schema "memtable batch schema mismatch with table schema")
  else .ok ()

end TableSchemas

open TableSchemas

namespace SchemaOwners

variable {τ : Type} (crc32 : Bytes → UInt32) (codec : RecordCodec) (types : ColumnTypes τ)
  (tableName : String)

variable (io : AddColumnIo) (s : SchemaOwners τ)

def ensureTableLoaded : Result Unit × SchemaOwners τ :=
  match s.table, s.catalog.getTable tableName with
  | none, some _ =>
    match s.catalog.getSchema tableName with
    | none => (.error (.schema s!"missing schema for {tableName}"), s)
    | some schema =>
      match io.load with
      | .error e => (.error e, s)
      | .ok () =>
        match io.mount with
        | .error e => (.error e, { s with table := some ⟨schema, schema⟩ })
        | .ok () => (.ok (), ⟨s.catalog, some ⟨schema, schema⟩, some schema, some schema⟩)
  | _, _ => (.ok (), s)

/-- The file index is recorded if files have been flushed. -/
def recordFlushed (flushed : ℕ) (catalog : CatalogManager τ) : Result Unit × CatalogManager τ :=
  if flushed = 0 then (.ok (), catalog)
  else catalog.updateRuntime crc32 codec types io.manifest io.updatedAt tableName io.files

variable (newSchema : List (Field τ))

/-- The steps behind the change of the catalog. -/
def evolve (s : SchemaOwners τ) : Result Unit × SchemaOwners τ :=
  match io.flush with
  | .error e => (.error e, s)
  | .ok flushed =>
    match applySchemaEvolution io newSchema with
    | .error e => (.error e, s)
    | .ok table =>
      match recordFlushed crc32 codec types tableName io flushed s.catalog with
      | (.error e, catalog) => (.error e, { s with table := some table, catalog })
      | (.ok (), catalog) =>
        match io.unregister with
        | .error e => (.error e, ⟨catalog, some table, some newSchema, s.provider⟩)
        | .ok () =>
          match io.register with
          | .error e => (.error e, ⟨catalog, some table, some newSchema, none⟩)
          | .ok () => (.ok (), ⟨catalog, some table, some newSchema, some newSchema⟩)

/-- The block of `add_column` under the write lock of the loaded table. -/
def alterLocked (column : ColumnDef) (s : SchemaOwners τ) : Result Unit × SchemaOwners τ :=
  match s.catalog.addColumn crc32 codec types io.catalog io.now tableName column with
  | (.error e, catalog) => (.error e, { s with catalog })
  | (.ok (), catalog) =>
    match catalog.getSchema tableName with
    | none => (.error (.schema "schema missing after add column"), { s with catalog })
    | some newSchema => evolve crc32 codec types tableName io newSchema { s with catalog }

/-- `TsdbEngine::add_column`. -/
def addColumn (io : AddColumnIo) (column : ColumnDef) (s : SchemaOwners τ) :
    Result Unit × SchemaOwners τ :=
  match s.ensureTableLoaded tableName io with
  | (.error e, s) => (.error e, s)
  | (.ok (), s) =>
    match s.table with
    | some _ => s.alterLocked crc32 codec types tableName io column
    | none =>
      let r := s.catalog.addColumn crc32 codec types io.catalog io.now tableName column
      (r.1, { s with catalog := r.2 })

/-- `write_batches`, of one batch that has been aligned to the schema of the catalog. -/
def writeBatch [DecidableEq τ] (io : AddColumnIo) (numRows : ℕ) (s : SchemaOwners τ) :
    Result Unit :=
  match s.ensureTableLoaded tableName io with
  | (.error e, _) => .error e
  | (.ok (), s) =>
    match s.catalog.getSchema tableName, s.table with
    | some schema, some table => table.insertForTable numRows schema
    | _, _ => .error (.tableNotFound tableName)

/-! ## The agreement of the schemas -/

/-- The columns of the catalog and its Arrow schema agree. If the table is loaded, then its schema,
its memtable and the provider agree with them, and else there is no provider. -/
def Consistent : Prop :=
  ∃ schema tableMeta, s.catalog.getSchema tableName = some schema ∧
    s.catalog.getTable tableName = some tableMeta ∧ tableMeta.tableName = tableName ∧
    types.buildArrowSchema tableMeta.columns = .ok schema ∧
    (s.table = none ∧ s.provider = none ∨
      s.table = some ⟨schema, schema⟩ ∧ s.provider = some schema)

/-- If the call has failed, the schemas agree, and a loaded table accepts every write. -/
def AllOrNothing [DecidableEq τ] (r : Result Unit × SchemaOwners τ) : Prop :=
  ∀ e, r.1 = .error e → r.2.Consistent types tableName ∧
    ∀ io numRows, (r.2.ensureTableLoaded tableName io).1 = .ok () →
      r.2.writeBatch tableName io numRows = .ok ()

variable (catalog : CatalogManager τ)

/-- The steps behind the change of the catalog succeed. -/
def Succeeds : Prop :=
  (∃ flushed ∈ io.flush.toOption,
    (recordFlushed crc32 codec types tableName io flushed catalog).1 = .ok ()) ∧
  (io.ensureWritable = .ok () ∧ io.nextId = .ok () ∧ io.rotate = .ok ()) ∧
  io.unregister = .ok () ∧ io.register = .ok ()

variable (call : AddColumnIo × ColumnDef)

/-- The table cannot be opened, the catalog refuses the column, or every step succeeds. -/
def Undivided : Prop :=
  let r := s.catalog.addColumn crc32 codec types call.1.catalog call.1.now tableName call.2
  s.table = none ∧ call.1.load ≠ .ok () ∨
  (s.table = none → call.1.mount = .ok ()) ∧
    (r.1 ≠ .ok () ∨ Succeeds crc32 codec types tableName call.1 r.2)

instance : Decidable (Succeeds crc32 codec types tableName io catalog) :=
  inferInstanceAs (Decidable ((∃ flushed ∈ _, _) ∧ _))

instance [DecidableEq τ] (s : SchemaOwners τ) (call : AddColumnIo × ColumnDef) :
    Decidable (Undivided crc32 codec types tableName s call) :=
  inferInstanceAs (Decidable (_ ∧ _ ∨ _ ∧ _))

/-- One call, whatever it returns. -/
def step : Option (SchemaOwners τ) :=
  some (s.addColumn crc32 codec types tableName call.1 call.2).2

/-! ## One call -/

theorem applySchemaEvolution_cases :
    ((io.ensureWritable = .ok () ∧ io.nextId = .ok () ∧ io.rotate = .ok ()) ∧
      applySchemaEvolution io newSchema = .ok ⟨newSchema, newSchema⟩) ∨
    (¬(io.ensureWritable = .ok () ∧ io.nextId = .ok () ∧ io.rotate = .ok ()) ∧
      ∃ e, applySchemaEvolution io newSchema = .error e) := by
  rw [applySchemaEvolution]
  rcases io.ensureWritable with e | _
  · exact .inr ⟨nofun, e, rfl⟩
  rcases io.nextId with e | _
  · exact .inr ⟨nofun, e, rfl⟩
  rcases io.rotate with e | _
  · exact .inr ⟨nofun, e, rfl⟩
  · exact .inl ⟨⟨rfl, rfl, rfl⟩, rfl⟩

theorem catalog_recordFlushed (flushed : ℕ) (catalog : CatalogManager τ) :
    let r := recordFlushed crc32 codec types tableName io flushed catalog
    (∀ table, r.2.getTable table = catalog.getTable table) ∧
      r.2.arrowSchemas = catalog.arrowSchemas := by
  rw [recordFlushed]
  split
  · exact ⟨fun _ ↦ rfl, rfl⟩
  · exact ⟨getTable_updateRuntime crc32 codec types _ _ _ _ _, rfl⟩

/-- The provider is the last to get the new schema, and gets it when all steps succeed. -/
theorem evolve_cases (s : SchemaOwners τ) :
    let r := s.evolve crc32 codec types tableName io newSchema
    (∀ table, r.2.catalog.getTable table = s.catalog.getTable table) ∧
    r.2.catalog.arrowSchemas = s.catalog.arrowSchemas ∧
    ((Succeeds crc32 codec types tableName io s.catalog ∧ r.1 = .ok () ∧
        r.2.table = some ⟨newSchema, newSchema⟩ ∧ r.2.provider = some newSchema) ∨
      (¬Succeeds crc32 codec types tableName io s.catalog ∧ (∃ e, r.1 = .error e) ∧
        (s.table ≠ none → r.2.table ≠ none) ∧
        (r.2.provider = s.provider ∨ r.2.provider = none))) := by
  rw [evolve, Succeeds]
  rcases io.flush with e | flushed
  · exact ⟨fun _ ↦ rfl, rfl, .inr ⟨nofun, ⟨e, rfl⟩, id, .inl rfl⟩⟩
  dsimp only
  obtain ⟨hev, hr⟩ | ⟨hev, e, hr⟩ := applySchemaEvolution_cases io newSchema
  swap
  · rw [hr]
    exact ⟨fun _ ↦ rfl, rfl, .inr ⟨fun h ↦ hev h.2.1, ⟨e, rfl⟩, id, .inl rfl⟩⟩
  obtain ⟨htab, hsch⟩ := catalog_recordFlushed crc32 codec types tableName io flushed s.catalog
  rw [hr]
  rcases hrec : recordFlushed crc32 codec types tableName io flushed s.catalog with ⟨e | _, catalog⟩
  all_goals rw [hrec] at htab hsch
  · refine ⟨htab, hsch, .inr ⟨fun h ↦ ?_, ⟨e, rfl⟩, fun _ ↦ nofun, .inl rfl⟩⟩
    obtain ⟨⟨_, hfl, hok⟩, -⟩ := h
    rw [← Option.some.inj hfl, hrec] at hok
    cases hok
  rcases io.unregister with e | _
  · exact ⟨htab, hsch, .inr ⟨nofun, ⟨e, rfl⟩, fun _ ↦ nofun, .inl rfl⟩⟩
  rcases io.register with e | _
  · exact ⟨htab, hsch, .inr ⟨nofun, ⟨e, rfl⟩, fun _ ↦ nofun, .inr rfl⟩⟩
  · refine ⟨htab, hsch, .inl ⟨⟨⟨flushed, rfl, ?_⟩, hev, rfl, rfl⟩, rfl, rfl, rfl⟩⟩
    rw [hrec]

variable {crc32 codec types tableName} {s : SchemaOwners τ}

/-- Loading a table succeeds and keeps the agreement; the table cannot be opened, and nothing
changes; or it is opened, and there is no provider for it. -/
theorem Consistent.ensureTableLoaded_cases (h : s.Consistent types tableName) (io : AddColumnIo) :
    let r := s.ensureTableLoaded tableName io
    (s.table = none ∧ io.load ≠ .ok () ∧ (∃ e, r.1 = .error e) ∧ r.2 = s) ∨
    (s.table = none ∧ io.load = .ok () ∧ io.mount ≠ .ok () ∧ (∃ e, r.1 = .error e) ∧
      r.2.table ≠ none ∧ r.2.provider = none) ∨
    (¬(s.table = none ∧ io.load ≠ .ok ()) ∧ (s.table = none → io.mount = .ok ()) ∧
      r.1 = .ok () ∧ r.2.catalog = s.catalog ∧ r.2.Consistent types tableName ∧
      r.2.table ≠ none) := by
  obtain ⟨schema, tableMeta, hsch, hmeta, hname, hbuild, ⟨htab, hprov⟩ | ⟨htab, hp⟩⟩ := h
  · rw [ensureTableLoaded, htab, hmeta]
    dsimp only
    rw [hsch]
    rcases io.load with e | _
    · exact .inl ⟨rfl, nofun, ⟨e, rfl⟩, rfl⟩
    rcases io.mount with e | _
    · exact .inr (.inl ⟨rfl, rfl, nofun, ⟨e, rfl⟩, nofun, hprov⟩)
    · exact .inr (.inr ⟨fun h ↦ h.2 rfl, fun _ ↦ rfl, rfl, rfl,
        ⟨schema, tableMeta, hsch, hmeta, hname, hbuild, .inr ⟨rfl, rfl⟩⟩, nofun⟩)
  · have hload : s.table ≠ none := by rw [htab]; nofun
    have hr : s.ensureTableLoaded tableName io = (.ok (), s) := by rw [ensureTableLoaded, htab]
    rw [hr]
    exact .inr (.inr ⟨fun h ↦ hload h.1, fun h ↦ absurd h hload, rfl, rfl,
      ⟨schema, tableMeta, hsch, hmeta, hname, hbuild, .inr ⟨htab, hp⟩⟩, hload⟩)

theorem Consistent.writeBatch [DecidableEq τ] (h : s.Consistent types tableName) {io : AddColumnIo}
    (hload : (s.ensureTableLoaded tableName io).1 = .ok ()) (numRows : ℕ) :
    s.writeBatch tableName io numRows = .ok () := by
  rw [SchemaOwners.writeBatch]
  obtain ⟨-, -, ⟨_, he⟩, -⟩ | ⟨-, -, -, ⟨_, he⟩, -⟩ | ⟨-, -, -, -, hs, htab⟩ :=
    h.ensureTableLoaded_cases io
  · cases he.symm.trans hload
  · cases he.symm.trans hload
  rcases hr : s.ensureTableLoaded tableName io with ⟨r, _⟩
  rw [hr] at hload hs htab
  obtain ⟨_, _, hsch, -, -, -, hloaded⟩ := hs
  obtain ⟨htab, -⟩ := hloaded.resolve_left fun h ↦ htab h.1
  obtain rfl : r = .ok () := hload
  dsimp only at hsch htab ⊢
  rw [hsch, htab]
  dsimp only
  rw [insertForTable, if_neg (not_not.mpr rfl), ite_self]

variable (crc32 codec)

/-- Under the write lock the schemas agree afterwards exactly if the catalog refuses the column or
all steps succeed. -/
theorem Consistent.alterLocked_cases (h : s.Consistent types tableName) (htab : s.table ≠ none)
    (io : AddColumnIo) (column : ColumnDef) :
    let r := s.alterLocked crc32 codec types tableName io column
    let added := s.catalog.addColumn crc32 codec types io.catalog io.now tableName column
    ((added.1 ≠ .ok () ∨ Succeeds crc32 codec types tableName io added.2) ∧
      r.2.Consistent types tableName) ∨
    (¬(added.1 ≠ .ok () ∨ Succeeds crc32 codec types tableName io added.2) ∧
      (∃ e, r.1 = .error e) ∧ ¬r.2.Consistent types tableName) := by
  obtain ⟨schema, tableMeta, hsch, hmeta, hname, hbuild, hload⟩ := h
  obtain ⟨htab, hprov⟩ := hload.resolve_left fun h ↦ htab h.1
  rw [alterLocked]
  obtain ⟨e, catalog, hadd, hget, hsame⟩ | ⟨tableMeta', col, newSchema, catalog, hadd, hmeta',
    hbuil', hsame, hget⟩ :=
    addColumn_cases crc32 codec types s.catalog io.catalog io.now tableName column
  · rw [hadd]
    refine .inl ⟨.inl nofun, schema, tableMeta, ?_, (hget tableName).trans hmeta, hname, hbuild,
      .inr ⟨htab, hprov⟩⟩
    rw [getSchema, hsame]
    exact hsch
  obtain rfl : tableMeta = tableMeta' := Option.some.inj (hmeta.symm.trans hmeta')
  have hlook : catalog.getSchema tableName = some newSchema := by
    rw [getSchema, hsame, AList.lookup_insert]
  have hcols : catalog.getTable tableName
      = some { tableMeta with columns := tableMeta.columns ++ [col] } := by
    rw [hget, if_pos hname.symm]
  rw [hadd]
  dsimp only
  rw [hlook]
  obtain ⟨hget', hsame', ⟨hok, -, ht, hp⟩ | ⟨hfail, he, ht, hp⟩⟩ :=
    evolve_cases crc32 codec types tableName io newSchema { s with catalog }
  · refine .inl ⟨.inr hok, newSchema, _, ?_, (hget' tableName).trans hcols, hname, hbuil',
      .inr ⟨ht, hp⟩⟩
    rw [getSchema, hsame']
    exact hlook
  · refine .inr ⟨fun h ↦ h.elim (fun h ↦ h rfl) hfail, he, fun h ↦ ?_⟩
    -- the new schema is longer than the one that the provider had
    obtain ⟨schema', -, hsch', -, -, -, hload⟩ := h
    rw [getSchema, hsame'] at hsch'
    obtain rfl : newSchema = schema' := Option.some.inj (hlook.symm.trans hsch')
    have hne : schema ≠ newSchema := by
      rintro rfl
      have hlen := types.length_buildArrowSchema hbuil'
      rw [types.length_buildArrowSchema hbuild, List.length_append] at hlen
      exact absurd hlen (Nat.succ_ne_self _).symm
    obtain ⟨-, hp'⟩ := hload.resolve_left fun h ↦ ht (htab ▸ nofun) h.1
    rcases hp with hp | hp
    · exact hne (Option.some.inj ((hprov.symm.trans hp.symm).trans hp'))
    · cases hp.symm.trans hp'

/-- The schemas agree behind a call exactly if it is undivided. -/
theorem Consistent.addColumn_cases (h : s.Consistent types tableName) (io : AddColumnIo)
    (column : ColumnDef) :
    let r := s.addColumn crc32 codec types tableName io column
    (Undivided crc32 codec types tableName s (io, column) ∧ r.2.Consistent types tableName) ∨
    (¬Undivided crc32 codec types tableName s (io, column) ∧ (∃ e, r.1 = .error e) ∧
      ¬r.2.Consistent types tableName) := by
  have hcases := h.ensureTableLoaded_cases io
  rw [addColumn]
  rcases hr : s.ensureTableLoaded tableName io with ⟨_, _⟩
  rw [hr] at hcases
  obtain ⟨hnone, hload, ⟨e, rfl⟩, rfl⟩ | ⟨hnone, hload, hmount, ⟨e, rfl⟩, htab, hprov⟩ |
    ⟨hload, hmount, rfl, hcat, hs, htab⟩ := hcases
  · exact .inl ⟨.inl ⟨hnone, hload⟩, h⟩
  · refine .inr ⟨fun hu ↦ ?_, ⟨e, rfl⟩, fun hs ↦ ?_⟩
    · rcases hu with hu | hu
      · exact hu.2 hload
      · exact hmount (hu.1 hnone)
    · obtain ⟨_, _, -, -, -, -, ⟨hs, -⟩ | ⟨-, hs⟩⟩ := hs
      · exact htab hs
      · cases hprov.symm.trans hs
  · obtain ⟨_, htab'⟩ := Option.ne_none_iff_exists'.mp htab
    have halter := hs.alterLocked_cases crc32 codec htab io column
    dsimp only at hcat htab' halter ⊢
    rw [hcat] at halter
    rw [htab', Undivided]
    obtain ⟨hu, hs⟩ | ⟨hu, hfail⟩ := halter
    · exact .inl ⟨.inr ⟨hmount, hu⟩, hs⟩
    · exact .inr ⟨fun h ↦ h.elim hload fun h ↦ hu h.2, hfail⟩

/-- **Atomicity.** After a failed call the schemas agree, and later writes are accepted, exactly if
the table could not be opened, the catalog refused the column, or no step failed. -/
theorem addColumn_atomic_iff [DecidableEq τ] (h : s.Consistent types tableName) (io : AddColumnIo)
    (column : ColumnDef) :
    AllOrNothing types tableName (s.addColumn crc32 codec types tableName io column) ↔
      Undivided crc32 codec types tableName s (io, column) := by
  constructor
  · intro hr
    by_contra hu
    obtain ⟨hu', -⟩ | ⟨-, ⟨e, he⟩, hs⟩ := h.addColumn_cases crc32 codec io column
    · exact hu hu'
    · exact hs (hr e he).1
  · intro hu e _
    obtain ⟨-, hs⟩ | ⟨hu', -⟩ := h.addColumn_cases crc32 codec io column
    · exact ⟨hs, fun _ numRows hload ↦ hs.writeBatch hload numRows⟩
    · exact absurd hu hu'

/-! ## Every run -/

theorem consistent_of_reaches [DecidableEq τ] {init : SchemaOwners τ}
    (hinit : init.Consistent types tableName)
    (h : Reaches (guarded (Undivided crc32 codec types tableName)
      (step crc32 codec types tableName)) init s) : s.Consistent types tableName := by
  refine h.invariant hinit fun s call s' hs hstep ↦ ?_
  obtain ⟨hu, hstep⟩ := guarded_eq_some.mp hstep
  cases hstep
  obtain ⟨-, hs'⟩ | ⟨hu', -⟩ := hs.addColumn_cases crc32 codec call.1 call.2
  · exact hs'
  · exact absurd hu hu'

end SchemaOwners

/-- Every step succeeds, and the flush has nothing to write. -/
def AddColumnIo.healthy : AddColumnIo :=
  ⟨.ok (), .ok (), .healthy, 0, .healthy, 0, .ok 0, .ok (), .ok (), .ok (), [], .ok (), .ok ()⟩

namespace SchemaOwners

/-- A table that has been created with only its time column and is not yet loaded. -/
def created : SchemaOwners String :=
  ⟨((new 4096).createTable lengthCrc .plain .verbatim (.ok ()) .healthy 0 "cpu"
    [⟨timestampColumn, "Int64", false⟩] "/srv/data").2, none, none, none⟩

theorem consistent_created : created.Consistent .verbatim "cpu" := by
  refine ⟨[⟨timestampColumn, "Int64", false⟩],
    ⟨"cpu", [⟨timestampColumn, "Int64", false⟩], "/srv/data/cpu"⟩, ?_⟩
  decide +kernel

theorem added_consistent : ∃ s, Reaches (guarded (Undivided lengthCrc .plain .verbatim "cpu")
    (step lengthCrc .plain .verbatim "cpu")) created s ∧ s.table ≠ none ∧
      s.Consistent .verbatim "cpu" :=
  exists_reaches_of [(.healthy, ⟨"value", "Float64", true⟩)] (p := fun s ↦ s.table ≠ none)
    (by decide +kernel) fun _ hs hp ↦ ⟨hp, consistent_of_reaches _ _ consistent_created hs⟩

/-- A column that is already there is refused, and nothing changes. -/
theorem duplicate_column_refused :
    (created.addColumn lengthCrc .plain .verbatim "cpu" .healthy ⟨"time", "Int64", true⟩).1
      = .error (.schema "column time already exists") ∧
    AllOrNothing .verbatim "cpu"
      (created.addColumn lengthCrc .plain .verbatim "cpu" .healthy ⟨"time", "Int64", true⟩) := by
  constructor
  · decide +kernel
  · refine (addColumn_atomic_iff lengthCrc .plain consistent_created _ _).mpr ?_
    decide +kernel

/-- The flush fails behind the change of the catalog. The memtable then refuses every batch of the
new schema, and the column cannot be added again. -/
theorem failed_flush_divides_schemas :
    let column : ColumnDef := ⟨"value", "Float64", true⟩
    let failing : AddColumnIo := { AddColumnIo.healthy with flush := .error (.storage "ENOSPC") }
    let r := created.addColumn lengthCrc .plain .verbatim "cpu" failing column
    r.1 = .error (.storage "ENOSPC") ∧ ¬AllOrNothing .verbatim "cpu" r ∧
    r.2.writeBatch "cpu" .healthy 1
      = .error (.schema "memtable batch schema mismatch with table schema") ∧
    (r.2.addColumn lengthCrc .plain .verbatim "cpu" .healthy column).1
      = .error (.schema "column value already exists") := by
  intro column failing r
  have hwr : r.2.writeBatch "cpu" .healthy 1
      = .error (.schema "memtable batch schema mismatch with table schema") := by
    decide +kernel
  have hfail : r.1 = .error (.storage "ENOSPC") := by decide +kernel
  refine ⟨hfail, fun h ↦ ?_, hwr, by decide +kernel⟩
  have hok := (h _ hfail).2 .healthy 1 (by decide +kernel)
  cases hwr.symm.trans hok

end SchemaOwners

end MonoTS
