import MonoTS.Catalog.Manager
import MonoTS.Lib.Transition

/-!
# Table directories

The data directory of the engine holds the directories of its tables and a few of its own: the
catalog, the definitions, checkpoints and progress of the streams, the files captured for them, and
what queries spill. A table gets the directory that its name, joined to the data directory, leads
to, and `DROP TABLE` removes that directory with everything in it.

Nothing is asked of the name but that it is not blank. A table named `meta` has the directory of the
catalog, a table `a/b` lies in the directory of `a`, and `..` or an absolute name leads out of the
data directory altogether (`drop_removes_catalog`). So whether a drop touches its own table only
depends on where the names lead: `dropsOwn_iff_separate` says which sets of names are safe, and for
names of one component `separate_iff_of_plain` that they must not be those of the engine.

A file is the place where it lies. The directories on the way exist, since `create_dir_all` has made
them, and there are no symbolic links. Flushing and unloading the table before it is dropped touches
only files in its directory and is left out.
-/

open Transition Path LittleEndian List Option

namespace MonoTS

/-- The engine's own directories: the catalog; the definitions, the checkpoints and the progress of
streams; captured files; spilled queries. -/
def engineDirs : List String :=
  ["meta", "streams", "sync_checkpoints", "stream", "cdc_streams", "query_spill"]

/-- `fs::remove_dir_all`. -/
def removeDirAll (dir : Place) (files : List Place) : List Place :=
  files.filter fun p ↦ ¬dir <+: p

namespace CatalogManager

variable {τ : Type}

/-- Where the directory of a table is. -/
def place (cwd : Place) (c : CatalogManager τ) (table : String) : Option Place :=
  (c.getTable table).map fun schema ↦ resolve cwd schema.dataDir

end CatalogManager

/-- The catalog with the files on the disk. -/
structure DataDir (τ : Type) where
  catalog : CatalogManager τ
  files : List Place

section

variable {τ : Type} (crc32 : Bytes → UInt32) (codec : RecordCodec) (types : ColumnTypes τ)
  (cwd : Place)

/-- `TsdbEngine::drop_table`. -/
def DataDir.dropTable (io : MetaIo) (now : ℤ) (tableName : String) (ifExists : Bool)
    (d : DataDir τ) : Result Unit × DataDir τ :=
  match d.catalog.getTable tableName with
  | none => (if ifExists then .ok () else .error (.tableNotFound tableName), d)
  | some schema =>
    match d.catalog.dropTable crc32 codec types io now tableName with
    | (.error e, catalog) => (.error e, { d with catalog })
    | (.ok (), catalog) => (.ok (), ⟨catalog, removeDirAll (resolve cwd schema.dataDir) d.files⟩)

/-- A call of the catalog. -/
inductive CatalogCall where
  | createTable (mkdir : Result Unit) (tableName : String) (columns : List ColumnDef)
  | addColumn (tableName : String) (newCol : ColumnDef)
  | updateRuntime (tableName : String) (files : List ParquetFileMeta)
  | dropTable (tableName : String)

/-- A call, with what the disk of the catalog does and the time. -/
def CatalogManager.step (baseDataDir : String) (c : CatalogManager τ) :
    MetaIo × ℤ × CatalogCall → Option (CatalogManager τ)
  | (io, now, .createTable mkdir tableName columns) =>
    some (c.createTable crc32 codec types mkdir io now tableName columns baseDataDir).2
  | (io, now, .addColumn tableName newCol) =>
    some (c.addColumn crc32 codec types io now tableName newCol).2
  | (io, now, .updateRuntime tableName files) =>
    some (c.updateRuntime crc32 codec types io now tableName files).2
  | (io, now, .dropTable tableName) => some (c.dropTable crc32 codec types io now tableName).2

/-- Dropping a table touches nothing but that table. -/
structure DropsOwn (baseDataDir : String) (c : CatalogManager τ) : Prop where
  inside : ∀ table dir, c.place cwd table = some dir →
    resolve cwd baseDataDir <+: dir ∧ dir ≠ resolve cwd baseDataDir
  apart : ∀ table table' dir dir', table ≠ table' → c.place cwd table = some dir →
    c.place cwd table' = some dir' → ∀ p, ¬(dir <+: p ∧ dir' <+: p)
  engine : ∀ table dir, c.place cwd table = some dir → ∀ own ∈ engineDirs,
    ∀ p, ¬(dir <+: p ∧ resolve cwd baseDataDir ++ [own] <+: p)
  /-- What a drop removes is in the data directory, and neither the engine's nor another table's. -/
  removes : ∀ (files : List Place) (io : MetaIo) (now : ℤ) (table : String) (ifExists : Bool),
    ∀ p ∈ files, p ∉ ((⟨c, files⟩ : DataDir τ).dropTable crc32 codec types cwd io now table
      ifExists).2.files →
    resolve cwd baseDataDir <+: p ∧ (∀ own ∈ engineDirs, ¬resolve cwd baseDataDir ++ [own] <+: p) ∧
      ∀ table' dir', table' ≠ table → c.place cwd table' = some dir' → ¬dir' <+: p

end

/-- The names of the tables lead into the data directory, not to a directory of the engine, and none
of them to another one or below it. -/
def Separate {τ : Type} (cwd : Place) (baseDataDir : String) (c : CatalogManager τ) : Prop :=
  ∀ table, (c.getTable table).isSome →
    (∃ name rest, resolve (resolve cwd baseDataDir) table
      = resolve cwd baseDataDir ++ name :: rest ∧ name ∉ engineDirs) ∧
    ∀ table', (c.getTable table').isSome → table' ≠ table →
      ¬resolve (resolve cwd baseDataDir) table <+: resolve (resolve cwd baseDataDir) table'

namespace CatalogManager

variable {τ : Type} {crc32 : Bytes → UInt32} {codec : RecordCodec} {types : ColumnTypes τ}
  {cwd : Place} {baseDataDir : String} {c c' : CatalogManager τ}

/-- Every table has the directory of its name. -/
def Placed (baseDataDir : String) (c : CatalogManager τ) : Prop :=
  ∀ table schema, c.getTable table = some schema →
    schema.tableName = table ∧ schema.dataDir = join baseDataDir table

theorem placed_new (memoryLimitBytes : ℕ) :
    (new memoryLimitBytes : CatalogManager τ).Placed baseDataDir := by
  intro table schema h
  cases h

section

variable (h : c.Placed baseDataDir)

include h

theorem Placed.congr (hsame : ∀ t, c'.getTable t = c.getTable t) : c'.Placed baseDataDir :=
  fun table schema hs ↦ h table schema ((hsame table).symm.trans hs)

theorem Placed.update {name : String} {new : Option TableSchema}
    (hset : ∀ t, c'.getTable t = if t = name then new else c.getTable t)
    (hnew : ∀ schema ∈ new, schema.tableName = name ∧ schema.dataDir = join baseDataDir name) :
    c'.Placed baseDataDir := by
  intro table schema hs
  rw [hset] at hs
  by_cases ht : table = name
  · rw [if_pos ht] at hs
    rw [ht]
    exact hnew schema hs
  · rw [if_neg ht] at hs
    exact h table schema hs

theorem Placed.step {a : MetaIo × ℤ × CatalogCall}
    (hstep : c.step crc32 codec types baseDataDir a = some c') : c'.Placed baseDataDir := by
  obtain ⟨io, now, call⟩ := a
  cases call with
  | createTable mkdir tableName columns =>
    cases hstep
    obtain hsame | ⟨columns, hset⟩ :=
      getTable_createTable crc32 codec types c io now tableName mkdir columns baseDataDir
    · exact h.congr hsame
    · refine h.update hset fun schema hs ↦ ?_
      cases hs
      exact ⟨rfl, rfl⟩
  | addColumn tableName newCol =>
    obtain ⟨_, _, hr, hsame, -⟩ | ⟨schema, _, -, _, hr, hsch, -, -, hset⟩ :=
      addColumn_cases crc32 codec types c io now tableName newCol
    · rw [CatalogManager.step, hr] at hstep
      exact some.inj hstep ▸ h.congr hsame
    · rw [CatalogManager.step, hr] at hstep
      cases hstep
      obtain ⟨rfl, hdir⟩ := h tableName schema hsch
      refine h.update hset fun schema' hs ↦ ?_
      cases hs
      exact ⟨rfl, hdir⟩
  | updateRuntime tableName files =>
    cases hstep
    exact h.congr (getTable_updateRuntime crc32 codec types c io now tableName files)
  | dropTable tableName =>
    cases hstep
    obtain hsame | hset := getTable_dropTable crc32 codec types c io now tableName
    · exact h.congr hsame
    · exact h.update hset nofun

end

theorem placed_of_reaches {memoryLimitBytes : ℕ}
    (h : Reaches (step crc32 codec types baseDataDir) (new memoryLimitBytes) c) :
    c.Placed baseDataDir :=
  h.invariant (placed_new memoryLimitBytes) fun _ _ _ hc hstep ↦ hc.step hstep

variable {table : String} {p : Place}

theorem Placed.place_eq (h : c.Placed baseDataDir) (cwd : Place) (ht : (c.getTable table).isSome) :
    c.place cwd table = some (resolve (resolve cwd baseDataDir) table) := by
  obtain ⟨schema, hs⟩ := isSome_iff_exists.mp ht
  rw [place, hs, map_some, (h table schema hs).2, resolve_join]

/-! ## Which names are safe -/

theorem mem_removeDirAll {dir : Place} {files : List Place} (hp : p ∈ files)
    (hnot : p ∉ removeDirAll dir files) : dir <+: p := by
  by_contra hno
  exact hnot (mem_filter.mpr ⟨hp, decide_eq_true hno⟩)

theorem below_of_removed {files : List Place} {io : MetaIo} {now : ℤ} {ifExists : Bool}
    (hp : p ∈ files)
    (hnot : p ∉ ((⟨c, files⟩ : DataDir τ).dropTable crc32 codec types cwd io now table
      ifExists).2.files) : ∃ dir, c.place cwd table = some dir ∧ dir <+: p := by
  rw [DataDir.dropTable] at hnot
  split at hnot
  · exact absurd hp hnot
  next schema hs =>
    split at hnot
    · exact absurd hp hnot
    · refine ⟨resolve cwd schema.dataDir, ?_, mem_removeDirAll hp hnot⟩
      exact congrArg (Option.map _) hs

/-- A place in the data directory has no place in common with a directory of the engine, unless it
lies in it. -/
theorem not_below_engine {base rest : Place} {name own : String} (hne : name ≠ own)
    (hdir : base ++ name :: rest <+: p) : ¬base ++ [own] <+: p := by
  intro hown
  rcases prefix_or_prefix_of_prefix hdir hown with h | h
  · exact hne (cons_prefix_cons.mp ((prefix_append_right_inj base).mp h)).1
  · exact hne (cons_prefix_cons.mp ((prefix_append_right_inj base).mp h)).1.symm

theorem isSome_of_place {dir : Place} (h : c.place cwd table = some dir) :
    (c.getTable table).isSome := by
  rw [place, map_eq_some_iff] at h
  obtain ⟨_, hs, -⟩ := h
  rw [hs]
  rfl

theorem Placed.dropsOwn_of_separate (h : c.Placed baseDataDir) (hsep : Separate cwd baseDataDir c) :
    DropsOwn crc32 codec types cwd baseDataDir c := by
  have hplace : ∀ {table dir}, c.place cwd table = some dir →
      dir = resolve (resolve cwd baseDataDir) table ∧ (c.getTable table).isSome := by
    intro table dir hd
    have ht := isSome_of_place hd
    exact ⟨some.inj (hd.symm.trans (h.place_eq cwd ht)), ht⟩
  have hin : ∀ {table dir}, c.place cwd table = some dir →
      ∃ name rest, dir = resolve cwd baseDataDir ++ name :: rest ∧ name ∉ engineDirs := by
    intro table dir hd
    obtain ⟨rfl, ht⟩ := hplace hd
    exact (hsep table ht).1
  have heng : ∀ {table dir}, c.place cwd table = some dir → ∀ own ∈ engineDirs,
      ∀ p, dir <+: p → ¬resolve cwd baseDataDir ++ [own] <+: p := by
    intro table dir hd own hown p hp
    obtain ⟨name, rest, rfl, hname⟩ := hin hd
    have hne : name ≠ own := by
      rintro rfl
      exact hname hown
    exact not_below_engine hne hp
  have hapart : ∀ {table table' dir dir'}, table ≠ table' → c.place cwd table = some dir →
      c.place cwd table' = some dir' → ∀ p, ¬(dir <+: p ∧ dir' <+: p) := by
    intro table table' dir dir' hne hd hd'
    obtain ⟨rfl, ht⟩ := hplace hd
    obtain ⟨rfl, ht'⟩ := hplace hd'
    exact forall_not_below_iff.mpr ⟨(hsep table ht).2 table' ht' hne.symm,
      (hsep table' ht').2 table ht hne⟩
  refine ⟨fun table dir hd ↦ ?_, fun _ _ _ _ ↦ hapart,
    fun table dir hd own hown p hp ↦ heng hd own hown p hp.1 hp.2, ?_⟩
  · obtain ⟨name, rest, rfl, -⟩ := hin hd
    refine ⟨prefix_append _ _, fun heq ↦ ?_⟩
    exact cons_ne_nil name rest (append_right_eq_self.mp heq)
  · intro files io now table ifExists p hp hnot
    obtain ⟨_, hd, hbelow⟩ := below_of_removed hp hnot
    refine ⟨?_, fun own hown ↦ heng hd own hown p hbelow, fun table' dir' hne hd' hp' ↦ ?_⟩
    · obtain ⟨_, _, rfl, -⟩ := hin hd
      exact (prefix_append _ _).trans hbelow
    · exact hapart hne hd' hd p ⟨hp', hbelow⟩

theorem Placed.separate_of_dropsOwn (h : c.Placed baseDataDir)
    (hown : DropsOwn crc32 codec types cwd baseDataDir c) : Separate cwd baseDataDir c := by
  intro table ht
  have hd := h.place_eq cwd ht
  constructor
  · obtain ⟨hbase, hne⟩ := hown.inside table _ hd
    obtain ⟨rest, hrest⟩ := hbase
    rcases rest with _ | ⟨name, rest⟩
    · exact absurd (hrest.symm.trans (append_nil _)) hne
    · refine ⟨name, rest, hrest.symm, fun hname ↦ ?_⟩
      refine hown.engine table _ hd name hname _ ⟨prefix_rfl, ?_⟩
      rw [← hrest]
      exact (prefix_append_right_inj _).mpr ⟨rest, rfl⟩
  · intro table' ht' hne hbelow
    exact hown.apart table table' _ _ hne.symm hd (h.place_eq cwd ht') _ ⟨hbelow, prefix_rfl⟩

/-- A name of one component that leads into the directory of that name. -/
def Plain (name : String) : Prop :=
  '/' ∉ name.toList ∧ name ≠ "" ∧ name ≠ "." ∧ name ≠ ".."

/-- Names of one component are safe when they are not those of the engine's directories. -/
theorem separate_iff_of_plain (hpl : ∀ table, (c.getTable table).isSome → Plain table) :
    Separate cwd baseDataDir c ↔ ∀ table, (c.getTable table).isSome → table ∉ engineDirs := by
  have hres : ∀ table, (c.getTable table).isSome →
      resolve (resolve cwd baseDataDir) table = resolve cwd baseDataDir ++ [table] := by
    intro table ht
    obtain ⟨hslash, hemp, hdot, hdots⟩ := hpl table ht
    exact resolve_name _ hslash hemp hdot hdots
  constructor
  · intro h table ht
    obtain ⟨_, _, heq, _⟩ := (h table ht).1
    rw [hres table ht] at heq
    rwa [(List.cons.inj (append_cancel_left heq)).1]
  · intro h table ht
    refine ⟨⟨table, [], hres table ht, h table ht⟩, fun table' ht' hne hbelow ↦ ?_⟩
    rw [hres table ht, hres table' ht', prefix_append_right_inj] at hbelow
    exact hne (cons_prefix_cons.mp hbelow).1.symm

/-- **Dropping a table touches only that table** exactly when the names of the tables lead into the
data directory, to no directory of the engine, and not into one another. -/
theorem dropsOwn_iff_separate {memoryLimitBytes : ℕ}
    (h : Reaches (step crc32 codec types baseDataDir) (new memoryLimitBytes) c) :
    DropsOwn crc32 codec types cwd baseDataDir c ↔ Separate cwd baseDataDir c := by
  have hpl := placed_of_reaches h
  exact ⟨hpl.separate_of_dropsOwn, hpl.dropsOwn_of_separate⟩

/-- Create a table that has only its time column, on a healthy disk. -/
def create (table : String) : MetaIo × ℤ × CatalogCall :=
  (.healthy, 0, .createTable (.ok ()) table [⟨timestampColumn, "Int64", false⟩])

theorem two_tables_drop_own :
    ∃ c : CatalogManager String,
      Reaches (step lengthCrc .plain .verbatim "/srv/data") (new 4096) c ∧
      c.store.store.schemas.keys = ["mem", "cpu"] ∧
      DropsOwn lengthCrc .plain .verbatim [] "/srv/data" c := by
  refine exists_reaches_of [create "cpu", create "mem"]
    (p := fun c ↦ c.store.store.schemas.keys = ["mem", "cpu"]) (by decide +kernel)
    fun c hrch hkeys ↦ ?_
  have hnames : ∀ table ∈ c.store.store.schemas.keys, Plain table ∧ table ∉ engineDirs := by
    rw [hkeys]
    unfold Plain
    decide
  have hsafe (table : String) (ht : (c.getTable table).isSome) : Plain table ∧ table ∉ engineDirs :=
    hnames table (AList.mem_keys.mp (AList.lookup_isSome.mp ht))
  refine ⟨hkeys, (dropsOwn_iff_separate hrch).mpr ?_⟩
  exact (separate_iff_of_plain fun table ht ↦ (hsafe table ht).1).mpr fun table ht ↦
    (hsafe table ht).2

/-- The files that are left when a table is dropped. -/
def leftAfterDrop (c : CatalogManager String) (table : String) (files : List Place) : List Place :=
  ((⟨c, files⟩ : DataDir String).dropTable lengthCrc .plain .verbatim [] .healthy 0 table
    false).2.files

/-- All four names are accepted. Dropping `meta` removes the WAL of the catalog, dropping `cpu` a
file of `cpu/hot`, and dropping `..` what lies beside the data directory. -/
theorem drop_removes_catalog :
    ∃ c : CatalogManager String,
      Reaches (step lengthCrc .plain .verbatim "/srv/data") (new 4096) c ∧
      leftAfterDrop c "meta" [["srv", "data", "meta", "wal", "metadata.wal"]] = [] ∧
      leftAfterDrop c "cpu" [["srv", "data", "cpu", "hot", "1.parquet"]] = [] ∧
      leftAfterDrop c ".." [["srv", "backup"]] = [] ∧
      ¬DropsOwn lengthCrc .plain .verbatim [] "/srv/data" c := by
  refine exists_reaches_of [create "meta", create "cpu", create "cpu/hot", create ".."]
    (p := fun c ↦ leftAfterDrop c "meta" [["srv", "data", "meta", "wal", "metadata.wal"]] = [] ∧
      leftAfterDrop c "cpu" [["srv", "data", "cpu", "hot", "1.parquet"]] = [] ∧
      leftAfterDrop c ".." [["srv", "backup"]] = [])
    (by decide +kernel) fun c _ ⟨hmeta, hcpu, hup⟩ ↦ ?_
  refine ⟨hmeta, hcpu, hup, fun hown ↦ ?_⟩
  have hrem : ["srv", "data", "meta", "wal", "metadata.wal"] ∉ leftAfterDrop c "meta"
      [["srv", "data", "meta", "wal", "metadata.wal"]] := by
    rw [hmeta]
    exact not_mem_nil
  have hkept := (hown.removes _ .healthy 0 "meta" false _ (mem_singleton_self _) hrem).2.1
  exact hkept "meta" (by decide) (by decide)

end CatalogManager

end MonoTS
