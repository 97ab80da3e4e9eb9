import MonoTS.Wal.BulkLoad

/-!
# Bulk loads that fail

A bulk load writes its files under staging names first. Then, under the write lock, it flushes the
memtables and gives each file its LSN: the file is renamed to the name that carries the LSN, enters
the index, and is recorded in the BulkLoad WAL. If a step fails the call returns the error after
removing files. Nothing is taken out of the index again.

What is removed is decided by the names noted down before. A single load removes the sealed file or
the staged one, also when the sealed one is in the index by then. A load of several files removes
the staging names, which the files that were renamed do not have any more; and when writing one of
the staged files fails it removes nothing. `failed_load_unchanged_iff` says which failures leave the
table as it was after the flush.

Names of staged files contain a fresh UUID. That the sealed metadata passes its own check is left
out: the fields are those that the name was made of.
-/

open List

namespace MonoTS

open SstIdentity Passes

variable {ρ : Type*}

/-! ## The table and its directory -/

/-- A file that is written and has no LSN yet. -/
structure StagedSst (ρ : Type*) extends SortedRows ρ where
  uuid : String
  minTs : ℤ
  maxTs : ℤ
  rowCount : ℕ
  fileSize : ℕ
  bounded : ∀ x ∈ rows, minTs ≤ x.1 ∧ x.1 ≤ maxTs

/-- The SST with the given LSN. -/
def StagedSst.sealed (staged : StagedSst ρ) (nowMs : ℤ) (lsn : ℕ) (path : String) : SstFile ρ where
  toSstMeta := .fromIdentity (.freshFlush nowMs lsn lsn) path staged.minTs staged.maxTs
    staged.rowCount staged.fileSize
  toSortedRows := staged.toSortedRows
  bounded := staged.bounded
  span_le := by
    rw [SstMeta.fromIdentity, freshFlush, fromParts, if_pos le_rfl]

theorem StagedSst.maxLsn_sealed (staged : StagedSst ρ) (nowMs : ℤ) (lsn : ℕ) (path : String) :
    (staged.sealed nowMs lsn path).maxLsn = lsn := by
  change (freshFlush nowMs lsn lsn).maxLsn = lsn
  rw [freshFlush, fromParts, if_pos le_rfl]

/-- A table that files are loaded into. -/
structure LoadTable (ρ : Type*) where
  dataDir : String
  index : List (SstFile ρ)
  disk : List DiskFile
  /-- The UUIDs of the files under `.bulk_tmp`. -/
  staging : List String
  /-- What the capturer was notified of. -/
  captured : List (SstFile ρ)
  bulkWal : BulkLoadWal ρ
  /-- Whether the replication handle is attached. -/
  replication : Bool

/-- What becomes of the record in the BulkLoad WAL. -/
inductive RecordIo where
  | done
  | linkFails (e : TsdbError)
  /-- The link is there, and the event cannot be appended. -/
  | appendFails (e : TsdbError)

/-- What happens to one file of a load. -/
structure FileIo (ρ : Type*) where
  /-- The result of `write_bulk_parquet`; if it fails, its guard removes what was written. -/
  staged : Result (StagedSst ρ)
  /-- What the allocator returns. -/
  lsn : Result ℕ
  nowMs : ℤ
  rename : Result Unit
  record : RecordIo

/-- What happens outside of the files. -/
structure LoadIo (ρ : Type*) where
  ensureWritable : Result Unit
  /-- The SSTs that the flush of the memtables writes. -/
  flushed : List (SstFile ρ)
  flush : Result Unit

namespace LoadTable

variable (search : BinarySearch)

def insert (t : LoadTable ρ) (file : SstFile ρ) : LoadTable ρ :=
  { t with index := FileIndex.insert search t.index file }

variable (t : LoadTable ρ) (file : SstFile ρ)

/-- The SST is written by a flush. -/
def flushFile : LoadTable ρ :=
  { t.insert search file with disk := .sst file.filePath :: t.disk }

def flushMemtables (io : LoadIo ρ) : LoadTable ρ :=
  io.flushed.foldl (flushFile search) t

def stage (staged : StagedSst ρ) : LoadTable ρ :=
  { t with staging := staged.uuid :: t.staging }

def removeSst (path : String) : LoadTable ρ :=
  { t with disk := t.disk.filter (· ≠ .sst path) }

def removeStaging (uuid : String) : LoadTable ρ :=
  { t with staging := t.staging.filter (· ≠ uuid) }

/-! ## One file -/

/-- The largest LSN in the index. -/
def sstFrontier : ℕ := (t.index.map fun f ↦ f.maxLsn).foldr max 0

variable (io : FileIo ρ)

def allocateBulkLsn : Result ℕ :=
  if t.replication = false then
    .error (.storage
      "LSN required: attach replication before bulk load (engine.register_table does this)")
  else
    match io.lsn with
    | .error e => .error e
    | .ok lsn =>
      let frontier := t.sstFrontier
      if lsn ≤ frontier then
        .error (.storage
          s!"bulk-load LSN {lsn} must be strictly after flushed SST frontier {frontier}")
      else .ok lsn

/-- The name of the file once it has its LSN. -/
def sealedPath (nowMs : ℤ) (lsn : ℕ) : String :=
  t.dataDir ++ "/" ++ (freshFlush nowMs lsn lsn).filename

def sealBulkSstIdentity (lsn : ℕ) (staged : StagedSst ρ) : Result (SstFile ρ) × LoadTable ρ :=
  let path := t.sealedPath io.nowMs lsn
  if .sst path ∈ t.disk then (.error (.storage s!"SST already exists: {path}"), t)
  else
    match io.rename with
    | .error e => (.error e, t)
    | .ok () =>
      (.ok (staged.sealed io.nowMs lsn path),
        { t.removeStaging staged.uuid with disk := .sst path :: t.disk })

/-- Notifying the capturer never fails. -/
def linkAndCaptureBulkLoad : LoadTable ρ :=
  { t with captured := t.captured ++ [file] }

def publishBulkLoad (io : RecordIo) (file : SstFile ρ) : Result Unit × LoadTable ρ :=
  let linked := { t with disk := .link file.maxLsn file.filePath :: t.disk }
  match io with
  | .linkFails e => (.error e, t)
  | .appendFails e => (.error e, linked)
  | .done => (.ok (), { linked with bulkWal := t.bulkWal.record file })

/-- What both loads do with a staged file. Besides the result, whether the file was sealed. -/
def commitFile (staged : StagedSst ρ) : Result (SstFile ρ) × Option String × LoadTable ρ :=
  match t.allocateBulkLsn io with
  | .error e => (.error e, none, t)
  | .ok lsn =>
    match t.sealBulkSstIdentity io lsn staged with
    | (.error e, t) => (.error e, none, t)
    | (.ok file, t) =>
      match ((t.linkAndCaptureBulkLoad file).insert search file).publishBulkLoad io.record file with
      | (.error e, t) => (.error e, some file.filePath, t)
      | (.ok (), t) => (.ok file, some file.filePath, t)

/-! ## The two loads -/

variable (load : LoadIo ρ)

/-- `bulk_load_parquet_async`. -/
def bulkLoadParquet (io : FileIo ρ) : Result (SstFile ρ) × LoadTable ρ :=
  match load.ensureWritable with
  | .error e => (.error e, t)
  | .ok () =>
    match io.staged with
    | .error e => (.error e, t)
    | .ok staged =>
      let t := (t.stage staged).flushMemtables search load
      match load.flush with
      | .error e => (.error e, t.removeStaging staged.uuid)
      | .ok () =>
        match t.commitFile search io staged with
        | (.ok file, _, t) => (.ok file, t)
        | (.error e, some path, t) => (.error e, t.removeSst path)
        | (.error e, none, t) => (.error e, t.removeStaging staged.uuid)

/-- Write the staged files one after the other. If one fails, those before it stay. -/
def stageAll (t : LoadTable ρ) :
    List (FileIo ρ) → Result (List (FileIo ρ × StagedSst ρ)) × LoadTable ρ
  | [] => (.ok [], t)
  | io :: ios =>
    match io.staged with
    | .error e => (.error e, t)
    | .ok staged =>
      match (t.stage staged).stageAll ios with
      | (.error e, t) => (.error e, t)
      | (.ok files, t) => (.ok ((io, staged) :: files), t)

def commitAll (t : LoadTable ρ) :
    List (FileIo ρ × StagedSst ρ) → Result (List (SstFile ρ)) × LoadTable ρ
  | [] => (.ok [], t)
  | (io, staged) :: files =>
    match t.commitFile search io staged with
    | (.error e, _, t) => (.error e, t)
    | (.ok file, _, t) =>
      match t.commitAll files with
      | (.error e, t) => (.error e, t)
      | (.ok loaded, t) => (.ok (file :: loaded), t)

/-- The staging names are removed, whether or not the files still have them. -/
def cleanup (files : List (FileIo ρ × StagedSst ρ)) : LoadTable ρ :=
  files.foldl (fun t file ↦ t.removeStaging file.2.uuid) t

/-- `bulk_load_parquet_paths_async`, with what happens to each of the files that it has collected,
in their order. -/
def bulkLoadParquetPaths
    (collected : Result (List (FileIo ρ))) : Result (List (SstFile ρ)) × LoadTable ρ :=
  match load.ensureWritable, collected with
  | .error e, _ => (.error e, t)
  | .ok (), .error e => (.error e, t)
  | .ok (), .ok ios =>
    match t.stageAll ios with
    | (.error e, t) => (.error e, t)
    | (.ok files, t) =>
      let t := t.flushMemtables search load
      match load.flush with
      | .error e => (.error e, t.cleanup files)
      | .ok () =>
        match t.commitAll search files with
        | (.ok loaded, t) => (.ok loaded, t)
        | (.error e, t) => (.error e, t.cleanup files)

/-! ## What a failure should leave -/

/-- Compared with a table, nothing has changed in the index, every file of the index is there, and
there is no further file. -/
structure Unchanged (t t' : LoadTable ρ) : Prop where
  index : t'.index = t.index
  onDisk : ∀ f ∈ t'.index, .sst f.filePath ∈ t'.disk
  noSst : ∀ f ∈ t'.disk, f ∈ t.disk
  noStaging : ∀ uuid ∈ t'.staging, uuid ∈ t.staging

/-- The table as it is after the flush of the memtables, if the call has come to that. -/
def afterFlush (reached : Bool) : LoadTable ρ :=
  if reached then t.flushMemtables search load else t

/-- All staged files could be written. -/
def stagesAll : Result (List (FileIo ρ)) → Bool
  | .error _ => false
  | .ok ios => ios.all fun io ↦ io.staged.isOk

/-- With this frontier and these files on disk, the file gets the LSN and the name that goes with
it. -/
structure SealsAt (t : LoadTable ρ) (frontier : ℕ) (disk : List DiskFile) (io : FileIo ρ)
    (lsn : ℕ) : Prop where
  replication : t.replication = true
  allocated : io.lsn = .ok lsn
  lt : frontier < lsn
  fresh : .sst (t.sealedPath io.nowMs lsn) ∉ disk
  renamed : io.rename = .ok ()

/-- The file gets an LSN and its name. -/
def Seals : Prop :=
  ∃ lsn, t.SealsAt t.sstFrontier t.disk io lsn

/-- All files get their LSNs and names and are recorded. -/
def Commits (t : LoadTable ρ) (frontier : ℕ) (disk : List DiskFile) : List (FileIo ρ) → Prop
  | [] => True
  | io :: ios => ∃ lsn, t.SealsAt frontier disk io lsn ∧ io.record = .done ∧
      t.Commits lsn (.sst (t.sealedPath io.nowMs lsn) :: disk) ios

/-! ## The flush and the staging directory -/

variable {t : LoadTable ρ} {load : LoadIo ρ} {io : FileIo ρ}

section

variable (t : LoadTable ρ)

theorem flushMemtables_eq (load : LoadIo ρ) : t.flushMemtables search load =
      { t with
        index := load.flushed.foldl (FileIndex.insert search) t.index
        disk := (load.flushed.map fun f ↦ DiskFile.sst f.filePath).reverse ++ t.disk } := by
  rw [flushMemtables]
  induction load.flushed generalizing t with
  | nil => rfl
  | cons file files ih =>
    rw [foldl_cons, ih, map_cons, reverse_cons, append_assoc]
    rfl

theorem flushMemtables_staging (load : LoadIo ρ) (names : List String) :
    ({ t with staging := names ++ t.staging } : LoadTable ρ).flushMemtables search load =
      { t.flushMemtables search load with
        staging := names ++ (t.flushMemtables search load).staging } := by
  rw [flushMemtables_eq, flushMemtables_eq]

theorem seals_staging (io : FileIo ρ) (names : List String) :
    ({ t with staging := names } : LoadTable ρ).Seals io ↔ t.Seals io := by
  constructor
  all_goals
    rintro ⟨lsn, h⟩
    exact ⟨lsn, h.replication, h.allocated, h.lt, h.fresh, h.renamed⟩

end

/-! ## One file -/

variable {lsn : ℕ}

theorem allocateBulkLsn_eq_ok :
    t.allocateBulkLsn io = .ok lsn ↔
      t.replication = true ∧ io.lsn = .ok lsn ∧ t.sstFrontier < lsn := by
  rw [allocateBulkLsn]
  split
  next hrep => simp [hrep]
  next hrep =>
    rw [Bool.not_eq_false] at hrep
    cases io.lsn with
    | error => simp
    | ok n =>
      by_cases hle : n ≤ t.sstFrontier
      · simp only [if_pos hle, reduceCtorEq, false_iff, not_and, Except.ok.injEq]
        rintro _ rfl
        exact Nat.not_lt.mpr hle
      · simp only [if_neg hle, hrep, Except.ok.injEq, true_and]
        exact ⟨fun h ↦ ⟨h, h ▸ Nat.lt_of_not_le hle⟩, And.left⟩

theorem commitFile_of_not_seals (h : ¬ t.Seals io) (staged : StagedSst ρ) :
    ∃ e, t.commitFile search io staged = (.error e, none, t) := by
  rw [commitFile]
  cases halloc : t.allocateBulkLsn io with
  | error e => exact ⟨e, rfl⟩
  | ok lsn =>
    obtain ⟨hrep, hlsn, hfron⟩ := allocateBulkLsn_eq_ok.mp halloc
    by_cases hpath : .sst (t.sealedPath io.nowMs lsn) ∈ t.disk
    · refine ⟨.storage s!"SST already exists: {t.sealedPath io.nowMs lsn}", ?_⟩
      simp only [sealBulkSstIdentity, if_pos hpath]
    · cases hren : io.rename with
      | error e =>
        refine ⟨e, ?_⟩
        simp only [sealBulkSstIdentity, if_neg hpath, hren]
      | ok => exact absurd ⟨lsn, hrep, hlsn, hfron, hpath, hren⟩ h

/-- The table with the file in the index, before it is recorded. -/
def indexed (t : LoadTable ρ) (io : FileIo ρ) (lsn : ℕ) (staged : StagedSst ρ) : LoadTable ρ :=
  let file := staged.sealed io.nowMs lsn (t.sealedPath io.nowMs lsn)
  { t.removeStaging staged.uuid with
    index := FileIndex.insert search t.index file
    disk := .sst (t.sealedPath io.nowMs lsn) :: t.disk
    captured := t.captured ++ [file] }

theorem commitFile_of_sealsAt (h : t.SealsAt t.sstFrontier t.disk io lsn) (staged : StagedSst ρ) :
    t.commitFile search io staged =
      let path := t.sealedPath io.nowMs lsn
      let file := staged.sealed io.nowMs lsn path
      match (t.indexed search io lsn staged).publishBulkLoad io.record file with
      | (.error e, t') => (.error e, some path, t')
      | (.ok (), t') => (.ok file, some path, t') := by
  have halloc := allocateBulkLsn_eq_ok.mpr ⟨h.replication, h.allocated, h.lt⟩
  simp only [commitFile, halloc, sealBulkSstIdentity, if_neg h.fresh, h.renamed]
  rfl

/-- The record decides whether the file is committed; it is in the index in any case. -/
theorem commitFile_spec (h : t.Seals io) (staged : StagedSst ρ) :
    ∃ r path file t', t.commitFile search io staged = (r, some path, t') ∧
      t'.index = FileIndex.insert search t.index file ∧
      ((∃ file, r = .ok file) ↔ io.record = .done) := by
  obtain ⟨_, h⟩ := h
  rw [commitFile_of_sealsAt search h]
  cases io.record with
  | done | linkFails | appendFails => exact ⟨_, _, _, _, rfl, rfl, by simp⟩

theorem length_insert (files : List (SstFile ρ)) (file : SstFile ρ) :
    (FileIndex.insert search files file).length = files.length + 1 :=
  (FileIndex.insert_perm search files file).length_eq

theorem length_index_commitFile (t : LoadTable ρ) (io : FileIo ρ) (staged : StagedSst ρ) :
    t.index.length ≤ (t.commitFile search io staged).2.2.index.length := by
  by_cases h : t.Seals io
  · obtain ⟨_, _, _, _, hcom, hidx, -⟩ := commitFile_spec search h staged
    rw [hcom, hidx, length_insert]
    exact Nat.le_succ _
  · obtain ⟨_, hcom⟩ := commitFile_of_not_seals search h staged
    rw [hcom]

/-! ## A single file -/

/-- The files of the index are on the disk. -/
def Tidy (t : LoadTable ρ) : Prop := ∀ f ∈ t.index, .sst f.filePath ∈ t.disk

theorem Tidy.flushMemtables (htidy : t.Tidy) (load : LoadIo ρ) :
    (t.flushMemtables search load).Tidy := by
  rw [LoadTable.flushMemtables]
  induction load.flushed generalizing t with
  | nil => exact htidy
  | cons file files ih =>
    refine ih fun f hf ↦ ?_
    rcases FileIndex.mem_insert.mp hf with rfl | hf
    · exact mem_cons_self
    · exact mem_cons_of_mem _ (htidy f hf)

variable {search}

theorem not_unchanged_of_length {t' : LoadTable ρ} (h : t.index.length < t'.index.length) :
    ¬ Unchanged t t' := fun hsame ↦ by
  rw [hsame.index] at h
  exact lt_irrefl _ h

section

variable (htidy : t.Tidy)

include htidy

theorem Unchanged.refl : Unchanged t t :=
  ⟨rfl, htidy, fun _ ↦ id, fun _ ↦ id⟩

/-- Only the staging directory is not what it was. -/
theorem unchanged_staging_iff {names : List String} :
    Unchanged t { t with staging := names } ↔ ∀ uuid ∈ names, uuid ∈ t.staging :=
  ⟨fun h ↦ h.noStaging, fun h ↦ ⟨rfl, htidy, fun _ ↦ id, h⟩⟩

theorem unchanged_removeStaging (uuid : String) :
    Unchanged t (removeStaging { t with staging := [uuid] ++ t.staging } uuid) := by
  refine (unchanged_staging_iff htidy).mpr fun name hname ↦ ?_
  obtain ⟨hmem, hne⟩ := mem_filter.mp hname
  exact (mem_cons.mp hmem).resolve_left (of_decide_eq_true hne)

theorem bulkLoadParquet_unchanged_iff : ((∃ e, (t.bulkLoadParquet search load io).1 = .error e) →
        Unchanged (t.afterFlush search load (load.ensureWritable.isOk && io.staged.isOk))
          (t.bulkLoadParquet search load io).2) ↔
      (load.ensureWritable = .ok () → io.staged.isOk → load.flush = .ok () →
        (t.flushMemtables search load).Seals io → io.record = .done) := by
  rw [bulkLoadParquet]
  cases load.ensureWritable with
  | error => exact iff_of_true (fun _ ↦ .refl htidy) nofun
  | ok _ =>
  cases io.staged with
  | error => exact iff_of_true (fun _ ↦ .refl htidy) nofun
  | ok staged =>
  have htidy' := Tidy.flushMemtables search htidy load
  have hstage : (t.stage staged).flushMemtables search load =
      { t.flushMemtables search load with
        staging := [staged.uuid] ++ (t.flushMemtables search load).staging } :=
    flushMemtables_staging search t load [staged.uuid]
  change (_ → Unchanged (t.flushMemtables search load) _) ↔ _
  simp only [hstage]
  cases load.flush with
  | error => exact iff_of_true (fun _ ↦ unchanged_removeStaging htidy' _) nofun
  | ok _ =>
  by_cases hseal : (t.flushMemtables search load).Seals io
  · obtain ⟨r, _, file, t', hcom, hidx, hok⟩ := commitFile_spec search
      ((seals_staging _ io _).mpr hseal) staged
    rw [hcom]
    cases r with
    | ok file => exact iff_of_true nofun fun _ _ _ _ ↦ hok.mp ⟨file, rfl⟩
    | error e =>
      refine iff_of_false (fun h ↦ not_unchanged_of_length ?_ (h ⟨e, rfl⟩)) fun h ↦ ?_
      · change _ < t'.index.length
        rw [hidx, length_insert]
        exact Nat.lt_succ_self _
      · obtain ⟨_, ⟨⟩⟩ := hok.mpr (h trivial rfl rfl hseal)
  · obtain ⟨_, hcom⟩ := commitFile_of_not_seals search ((seals_staging _ io _).not.mpr hseal) staged
    rw [hcom]
    exact iff_of_true (fun _ ↦ unchanged_removeStaging htidy' _) fun _ _ _ h ↦ absurd h hseal

end

/-! ## Several files -/

variable {ios : List (FileIo ρ)}

section

variable (t : LoadTable ρ)

theorem stageAll_of_ok (h : ∀ io ∈ ios, io.staged.isOk) :
    ∃ files : List (FileIo ρ × StagedSst ρ), files.map Prod.fst = ios ∧
      t.stageAll ios = (.ok files,
        { t with staging := (files.map fun file ↦ file.2.uuid).reverse ++ t.staging }) := by
  induction ios generalizing t with
  | nil => exact ⟨[], rfl, rfl⟩
  | cons io ios ih =>
    obtain ⟨hio, hios⟩ := forall_mem_cons.mp h
    rw [stageAll]
    cases hstage : io.staged with
    | error => rw [hstage] at hio; exact nomatch hio
    | ok staged =>
      obtain ⟨files, hfst, hall⟩ := ih (t.stage staged) hios
      refine ⟨(io, staged) :: files, by rw [map_cons, hfst], ?_⟩
      simp only [hall, map_cons, reverse_cons, append_assoc]
      rfl

theorem stageAll_of_error (h : ¬ ∀ io ∈ ios, io.staged.isOk) : ∃ e names io, io ∈ ios.head? ∧
      t.stageAll ios = (.error e, { t with staging := names ++ t.staging }) ∧
      ((∃ e, io.staged = .error e) ∧ names = [] ∨
        ∃ staged, io.staged = .ok staged ∧ staged.uuid ∈ names) := by
  induction ios generalizing t with
  | nil => exact absurd (forall_mem_nil _) h
  | cons io ios ih =>
    rw [stageAll]
    cases hstage : io.staged with
    | error e => exact ⟨e, [], io, rfl, rfl, .inl ⟨⟨e, hstage⟩, rfl⟩⟩
    | ok staged =>
      have hios : ¬ ∀ io ∈ ios, io.staged.isOk := fun hios ↦
        h (forall_mem_cons.mpr ⟨by rw [hstage]; rfl, hios⟩)
      obtain ⟨e, names, -, -, hall, -⟩ := ih (t.stage staged) hios
      refine ⟨e, names ++ [staged.uuid], io, rfl, ?_, .inr ⟨staged, hstage, by simp⟩⟩
      simp only [hall, append_assoc]
      rfl

theorem cleanup_eq (files : List (FileIo ρ × StagedSst ρ)) : t.cleanup files =
      { t with staging := t.staging.filter fun uuid ↦ ∀ file ∈ files, uuid ≠ file.2.uuid } := by
  rw [cleanup]
  induction files generalizing t with
  | nil => simp
  | cons file files ih =>
    rw [foldl_cons, ih, removeStaging]
    simp only [filter_filter]
    congr 1
    refine filter_congr fun uuid _ ↦ ?_
    rw [← Bool.decide_and, decide_eq_decide, forall_mem_cons, and_comm]

end

theorem unchanged_cleanup (htidy : t.Tidy) (files : List (FileIo ρ × StagedSst ρ)) :
    Unchanged t (cleanup
      { t with staging := (files.map fun file ↦ file.2.uuid).reverse ++ t.staging } files) := by
  rw [cleanup_eq]
  refine (unchanged_staging_iff htidy).mpr fun uuid huuid ↦ ?_
  obtain ⟨hmem, hne⟩ := mem_filter.mp huuid
  refine (mem_append.mp hmem).resolve_left fun hname ↦ ?_
  obtain ⟨file, hfile, rfl⟩ := mem_map.mp (mem_reverse.mp hname)
  exact of_decide_eq_true hne file hfile rfl

theorem commits_congr {t u : LoadTable ρ} (hrep : t.replication = u.replication)
    (hdir : t.dataDir = u.dataDir) {disk disk' : List DiskFile}
    (hdisk : ∀ path, .sst path ∈ disk ↔ .sst path ∈ disk') (frontier : ℕ) (ios : List (FileIo ρ)) :
    t.Commits frontier disk ios ↔ u.Commits frontier disk' ios := by
  induction ios generalizing frontier disk disk' with
  | nil => exact Iff.rfl
  | cons io ios ih =>
    have hpath (lsn : ℕ) : t.sealedPath io.nowMs lsn = u.sealedPath io.nowMs lsn := by
      rw [sealedPath, sealedPath, hdir]
    refine exists_congr fun lsn ↦ and_congr ⟨fun h ↦ ?_, fun h ↦ ?_⟩ (and_congr_right fun _ ↦ ?_)
    · exact ⟨hrep ▸ h.replication, h.allocated, h.lt, (hdisk _).not.mp (hpath lsn ▸ h.fresh),
        h.renamed⟩
    · exact ⟨hrep ▸ h.replication, h.allocated, h.lt, (hdisk _).not.mpr (hpath lsn ▸ h.fresh),
        h.renamed⟩
    · refine ih (fun path ↦ ?_) lsn
      rw [mem_cons, mem_cons, hdisk path, hpath lsn]

/-- The table after a file was committed with an LSN. -/
def committed (search : BinarySearch) (t : LoadTable ρ) (io : FileIo ρ) (lsn : ℕ)
    (staged : StagedSst ρ) : LoadTable ρ :=
  ((t.indexed search io lsn staged).publishBulkLoad .done
    (staged.sealed io.nowMs lsn (t.sealedPath io.nowMs lsn))).2

theorem sstFrontier_committed (h : t.sstFrontier < lsn) (staged : StagedSst ρ) :
    (t.committed search io lsn staged).sstFrontier = lsn := by
  change ((FileIndex.insert search t.index _).map _).foldr max 0 = lsn
  rw [((FileIndex.insert_perm search t.index _).map _).foldr_eq, map_cons, foldr_cons,
    StagedSst.maxLsn_sealed]
  exact max_eq_left h.le

/-- The link that is added on disk is not an SST. -/
theorem commits_committed (h : t.sstFrontier < lsn) (staged : StagedSst ρ) (ios : List (FileIo ρ)) :
    (t.committed search io lsn staged).Commits (t.committed search io lsn staged).sstFrontier
        (t.committed search io lsn staged).disk ios ↔
      t.Commits lsn (.sst (t.sealedPath io.nowMs lsn) :: t.disk) ios := by
  rw [sstFrontier_committed h]
  have hdisk (path : String) : .sst path ∈ (t.committed search io lsn staged).disk ↔
      .sst path ∈ DiskFile.sst (t.sealedPath io.nowMs lsn) :: t.disk :=
    mem_cons.trans (or_iff_right nofun)
  exact commits_congr (t := t.committed search io lsn staged) (u := t) rfl rfl hdisk lsn ios

section

variable (t : LoadTable ρ) (files : List (FileIo ρ × StagedSst ρ))

/-- All files are committed exactly if each of them gets its LSN and its name and is recorded. -/
theorem commitAll_isOk_iff : (t.commitAll search files).1.isOk ↔
      t.Commits t.sstFrontier t.disk (files.map Prod.fst) := by
  induction files generalizing t with
  | nil => exact iff_of_true rfl trivial
  | cons file files ih =>
    obtain ⟨io, staged⟩ := file
    rw [commitAll]
    by_cases hseal : t.Seals io
    · obtain ⟨lsn, hseal⟩ := hseal
      have hcoms : t.Commits t.sstFrontier t.disk (((io, staged) :: files).map Prod.fst) ↔
          io.record = .done ∧ (t.committed search io lsn staged).Commits
            (t.committed search io lsn staged).sstFrontier
            (t.committed search io lsn staged).disk (files.map Prod.fst) := by
        rw [commits_committed hseal.lt]
        constructor
        · rintro ⟨_, hseal', h⟩
          obtain rfl := Except.ok.inj (hseal.allocated.symm.trans hseal'.allocated)
          exact h
        · exact fun h ↦ ⟨lsn, hseal, h⟩
      rw [hcoms, ← ih, commitFile_of_sealsAt search hseal]
      cases io.record with
      | linkFails | appendFails => exact iff_of_false nofun nofun
      | done =>
        change (match (t.committed search io lsn staged).commitAll search files with
          | (.error e, t) => ((.error e : Result (List (SstFile ρ))), t)
          | (.ok loaded, t) => (.ok (_ :: loaded), t)).1.isOk ↔ _
        rw [and_iff_right rfl]
        rcases (t.committed search io lsn staged).commitAll search files with ⟨e | _, _⟩
        · exact Iff.rfl
        · exact Iff.rfl
    · obtain ⟨_, hcom⟩ := commitFile_of_not_seals search hseal staged
      rw [hcom]
      exact iff_of_false nofun fun ⟨lsn, h, _⟩ ↦ hseal ⟨lsn, h⟩

theorem commitAll_cons_snd (io : FileIo ρ) (staged : StagedSst ρ)
    (files : List (FileIo ρ × StagedSst ρ)) :
    (t.commitAll search ((io, staged) :: files)).2 =
      match t.commitFile search io staged with
      | (.error _, _, t') => t'
      | (.ok _, _, t') => (t'.commitAll search files).2 := by
  rw [commitAll]
  rcases t.commitFile search io staged with ⟨e | loaded, _, t'⟩
  · rfl
  · dsimp only
    rcases t'.commitAll search files with ⟨_ | _, _⟩ <;> rfl

theorem length_index_commitAll : t.index.length ≤ (t.commitAll search files).2.index.length := by
  induction files generalizing t with
  | nil => exact le_rfl
  | cons file files ih =>
    have hlen := length_index_commitFile search t file.1 file.2
    rw [commitAll_cons_snd]
    rcases hcom : t.commitFile search file.1 file.2 with ⟨_ | _, _, t'⟩ <;> rw [hcom] at hlen
    · exact hlen
    · exact hlen.trans (ih t')

end

variable (search) in
theorem length_index_lt_of_seals {file : FileIo ρ × StagedSst ρ} (h : t.Seals file.1)
    (files : List (FileIo ρ × StagedSst ρ)) :
    t.index.length < (t.commitAll search (file :: files)).2.index.length := by
  obtain ⟨r, _, _, t', hcom, hidx, -⟩ := commitFile_spec search h file.2
  have hlt : t.index.length < t'.index.length := by
    rw [hidx, length_insert]
    exact Nat.lt_succ_self _
  rw [commitAll_cons_snd, hcom]
  cases r with
  | error => exact hlt
  | ok => exact hlt.trans_le (length_index_commitAll t' files)

variable (search) in
theorem commitAll_unchanged_iff (htidy : t.Tidy) (files : List (FileIo ρ × StagedSst ρ))
    {u : LoadTable ρ}
    (hu : u = { t with staging := (files.map fun file ↦ file.2.uuid).reverse ++ t.staging }) :
    ((∃ e, (u.commitAll search files).1 = .error e) →
        Unchanged t ((u.commitAll search files).2.cleanup files)) ↔
      ((∀ io ∈ (files.map Prod.fst).head?, t.Seals io) →
        t.Commits t.sstFrontier t.disk (files.map Prod.fst)) := by
  have hok : (u.commitAll search files).1.isOk ↔
      t.Commits t.sstFrontier t.disk (files.map Prod.fst) := by
    rw [commitAll_isOk_iff, show u.sstFrontier = t.sstFrontier by rw [hu]; rfl]
    exact commits_congr (by rw [hu]) (by rw [hu]) (fun path ↦ by rw [hu]) _ _
  by_cases hcoms : t.Commits t.sstFrontier t.disk (files.map Prod.fst)
  · refine iff_of_true (fun ⟨e, he⟩ ↦ ?_) fun _ ↦ hcoms
    rw [← hok, he] at hcoms
    exact nomatch hcoms
  · have herr : ∃ e, (u.commitAll search files).1 = .error e := by
      rw [← hok] at hcoms
      rcases hres : (u.commitAll search files).1 with e | loaded
      · exact ⟨e, rfl⟩
      · exact absurd (by rw [hres]; rfl) hcoms
    cases files with
    | nil => exact absurd trivial hcoms
    | cons file files =>
      have hseal : u.Seals file.1 ↔ t.Seals file.1 := by
        rw [hu]
        exact seals_staging t file.1 _
      by_cases hfst : t.Seals file.1
      · refine iff_of_false (fun h ↦ not_unchanged_of_length ?_ (h herr)) fun h ↦ ?_
        · rw [cleanup_eq]
          have hlen := length_index_lt_of_seals search (hseal.mpr hfst) files
          rw [hu] at hlen ⊢
          exact hlen
        · refine hcoms (h fun io hio ↦ ?_)
          cases hio
          exact hfst
      · obtain ⟨_, hcom⟩ := commitFile_of_not_seals search (hseal.not.mpr hfst) file.2
        refine iff_of_true (fun _ ↦ ?_) fun h ↦ absurd (h file.1 rfl) hfst
        rw [commitAll_cons_snd, hcom, hu]
        exact unchanged_cleanup htidy (file :: files)

/-- **A load that fails leaves the table as it is after the flush** exactly if no file of it is in
the index by then, and, for a load of several files, if either all or none of the staged files
before the failure could be written. -/
theorem failed_load_unchanged_iff (search : BinarySearch) (t : LoadTable ρ) (load : LoadIo ρ)
    (io : FileIo ρ) (collected : Result (List (FileIo ρ)))
    (htidy : ∀ f ∈ t.index, .sst f.filePath ∈ t.disk)
    (hfresh : ∀ ios, collected = .ok ios → ∀ io ∈ ios, ∀ staged, io.staged = .ok staged →
      staged.uuid ∉ t.staging) :
    (((∃ e, (t.bulkLoadParquet search load io).1 = .error e) →
        Unchanged (t.afterFlush search load (load.ensureWritable.isOk && io.staged.isOk))
          (t.bulkLoadParquet search load io).2) ↔
      (load.ensureWritable = .ok () → io.staged.isOk → load.flush = .ok () →
        (t.flushMemtables search load).Seals io → io.record = .done)) ∧
    (((∃ e, (t.bulkLoadParquetPaths search load collected).1 = .error e) →
        Unchanged (t.afterFlush search load (load.ensureWritable.isOk && stagesAll collected))
          (t.bulkLoadParquetPaths search load collected).2) ↔
      (load.ensureWritable = .ok () → ∀ ios, collected = .ok ios →
        (∀ io ∈ ios.head?, io.staged.isOk → ∀ io ∈ ios, io.staged.isOk) ∧
        ((∀ io ∈ ios, io.staged.isOk) → load.flush = .ok () →
          (∀ io ∈ ios.head?, (t.flushMemtables search load).Seals io) →
          (t.flushMemtables search load).Commits (t.flushMemtables search load).sstFrontier
            (t.flushMemtables search load).disk ios))) := by
  refine ⟨bulkLoadParquet_unchanged_iff htidy, ?_⟩
  -- a load of several files cleans up, unless some but not all of the staged files could be
  -- written or the first file is in the index when it fails
  unfold bulkLoadParquetPaths
  cases load.ensureWritable with
  | error => exact iff_of_true (fun _ ↦ .refl htidy) nofun
  | ok _ =>
  cases collected with
  | error => exact iff_of_true (fun _ ↦ .refl htidy) nofun
  | ok ios =>
  by_cases hall : ∀ io ∈ ios, io.staged.isOk
  · obtain ⟨files, hfst, hstage⟩ := stageAll_of_ok t hall
    have htidy' := Tidy.flushMemtables search htidy load
    have hrun : t.afterFlush search load
        ((Except.ok () : Result Unit).isOk && stagesAll (.ok ios)) =
        t.flushMemtables search load := by
      rw [stagesAll, all_eq_true.mpr hall]
      rfl
    have hcom := commitAll_unchanged_iff search htidy' files rfl
    rw [hfst] at hcom
    simp only [hstage, flushMemtables_staging, hrun]
    cases load.flush with
    | error =>
      refine iff_of_true (fun _ ↦ unchanged_cleanup htidy' files) ?_
      rintro - _ ⟨⟩
      exact ⟨fun _ _ _ ↦ hall, fun _ h ↦ nomatch h⟩
    | ok _ =>
      refine Iff.trans ?_ (hcom.trans ⟨fun h ↦ ?_, fun h ↦ (h trivial ios rfl).2 hall rfl⟩)
      · rcases commitAll search _ files with ⟨e | _, _⟩
        · exact Iff.rfl
        · exact iff_of_true nofun nofun
      · rintro - _ ⟨⟩
        exact ⟨fun _ _ _ ↦ hall, fun _ _ ↦ h⟩
  · obtain ⟨e, _, io, hhead, hstage, hnames⟩ := stageAll_of_error t hall
    have hrun : t.afterFlush search load
        ((Except.ok () : Result Unit).isOk && stagesAll (.ok ios)) = t := by
      rw [stagesAll, all_eq_false.mpr (by simpa using hall)]
      rfl
    simp only [hstage, hrun]
    rw [unchanged_staging_iff htidy]
    have hmem := mem_of_mem_head? hhead
    rcases hnames with ⟨⟨e, hfirst⟩, rfl⟩ | ⟨staged, hfirst, huuid⟩
    · refine iff_of_true (fun _ _ ↦ id) ?_
      rintro - _ ⟨⟩
      refine ⟨fun io' hhead' hok ↦ ?_, fun h ↦ absurd h hall⟩
      obtain rfl := Option.some.inj (hhead.symm.trans hhead')
      rw [hfirst] at hok
      exact nomatch hok
    · refine iff_of_false (fun h ↦ ?_) fun h ↦ ?_
      · exact hfresh ios rfl io hmem staged hfirst (h ⟨e, rfl⟩ _ (mem_append_left _ huuid))
      · exact hall ((h trivial ios rfl).1 io hhead (by rw [hfirst]; rfl))

/-! ## Two loads that fail -/

/-- A table without files. -/
def emptyTable : LoadTable ℕ :=
  ⟨"t", [], [], [], [], [], true⟩

/-- Nothing is in the memtables. -/
def idleLoad : LoadIo ℕ :=
  ⟨.ok (), [], .ok ()⟩

/-- One row under a staging name. -/
def oneRow (uuid : String) : StagedSst ℕ where
  uuid := uuid
  minTs := 5
  maxTs := 5
  rowCount := 1
  fileSize := 1
  rows := [(5, 0)]
  sorted := by decide
  bounded := by decide

/-- A file whose record meets the given end. -/
def loadedAt (lsn : ℕ) (record : RecordIo) : FileIo ℕ where
  staged := .ok (oneRow (toString lsn))
  lsn := .ok lsn
  nowMs := 0
  rename := .ok ()
  record := record

/-- Without an LSN nothing is left of a load. -/
theorem refused_load_unchanged :
    Unchanged emptyTable (emptyTable.bulkLoadParquet firstNotLess idleLoad
      { loadedAt 1 .done with lsn := .error (.storage "") }).2 ∧
    Unchanged emptyTable (emptyTable.bulkLoadParquetPaths firstNotLess idleLoad
      (.ok [{ loadedAt 1 .done with lsn := .error (.storage "") }])).2 := by
  have h := failed_load_unchanged_iff firstNotLess emptyTable idleLoad
    { loadedAt 1 .done with lsn := .error (.storage "") }
    (.ok [{ loadedAt 1 .done with lsn := .error (.storage "") }])
    (forall_mem_nil _) fun _ _ _ _ _ _ ↦ not_mem_nil
  refine ⟨h.1.mpr (fun _ _ _ _ ↦ rfl) ⟨_, rfl⟩, h.2.mpr ?_ ⟨_, rfl⟩⟩
  rintro - _ ⟨⟩
  refine ⟨fun _ _ _ ↦ by decide, fun _ _ hseal ↦ ?_⟩
  obtain ⟨_, hseal⟩ := hseal _ rfl
  exact nomatch hseal.allocated

/-- The record of the only file fails: it stays in the index, and is not on disk. Of two files the
first is recorded and the second is not: both stay. -/
theorem failed_record_leaves_files :
    ((emptyTable.bulkLoadParquet firstNotLess idleLoad
        (loadedAt 1 (.linkFails (.storage "")))).1.isOk = false ∧
      ∃ f ∈ (emptyTable.bulkLoadParquet firstNotLess idleLoad
        (loadedAt 1 (.linkFails (.storage "")))).2.index,
        .sst f.filePath ∉ (emptyTable.bulkLoadParquet firstNotLess idleLoad
          (loadedAt 1 (.linkFails (.storage "")))).2.disk) ∧
    (emptyTable.bulkLoadParquetPaths firstNotLess idleLoad
        (.ok [loadedAt 1 .done, loadedAt 2 (.linkFails (.storage ""))])).1.isOk = false ∧
      (emptyTable.bulkLoadParquetPaths firstNotLess idleLoad
        (.ok [loadedAt 1 .done, loadedAt 2 (.linkFails (.storage ""))])).2.index.length = 2 ∧
      (emptyTable.flushMemtables firstNotLess idleLoad).index.length = 0 := by
  decide +kernel

end LoadTable

end MonoTS
