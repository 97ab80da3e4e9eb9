import MonoTS.Compaction.Passes

/-!
# A dropped table and its successor

`DROP TABLE t` and then `CREATE TABLE t` give a second table under the name of the first one. The
flushes and compaction passes of the first table need not have ended by then: `unload_table` sets
the compactor's `cancelled`, which a pass tests only when it starts. They record the files of their
table in the catalog with `set_manifest`, which knows the table by its name. So a pass that was
merging when the table was dropped puts the files of the first table into the manifest of the second
(`late_pass_records_dropped_files`).

Two more gaps are of the catalog itself. `set_manifest` tests that the table exists and inserts the
manifest in separate steps, and `drop_table` removes the schema and then the manifest. As
`create_schema` keeps a manifest that it finds, a manifest that is inserted after the table is gone,
or one that is not removed yet, becomes that of the new table.

The manifest of a table has its own files only, as long as a manifest is inserted only while the
table it is of is still the one in the catalog, and a table is created only when no `drop_table` is
between its two steps (`manifest_lists_own_files`).

The model is of one name. Tables that have been created under it are numbered, and a file is written
by the table of some number; nothing in the code looks at these numbers. What is in the files, and
whether they are on the disk, does not matter here.
-/

open Transition List Option

namespace MonoTS

/-- An SST with the number of the table that wrote it. -/
structure WrittenSst where
  file : SstMeta
  writer : ℕ
  deriving DecidableEq, Repr

/-- Where a task of a table is that ends in `set_manifest`. The `inputs` are those of a compaction,
to be unlinked at its end. -/
inductive TableTask where
  /-- `flush_one_immutable_locked` has taken a memtable. -/
  | flushing
  | flushed (file : WrittenSst)
  /-- `run_compaction_pass` has found that it is not cancelled. -/
  | passing
  | picked (start len : ℕ) (inputs : List WrittenSst)
  | merged (start len : ℕ) (inputs : List WrittenSst) (file : WrittenSst)
  /-- The index is changed, and `on_flush`, `on_merge` or `update_runtime` is next. -/
  | notifying (inputs : List WrittenSst)
  /-- `set_manifest` has been called with a snapshot of the index. -/
  | persisting (files inputs : List WrittenSst)
  /-- `set_manifest` has found the schema. -/
  | found (files inputs : List WrittenSst)
  | unlinking (inputs : List WrittenSst)
  | done
  deriving DecidableEq, Repr

/-- A step of a task. -/
inductive TaskAction where
  /-- The Parquet file of a flush is written, or that fails. -/
  | write (file : Option SstMeta)
  /-- `apply_immutable_flush`; the memtable may be gone. -/
  | apply (position : Option ℕ)
  | pick
  /-- `merge_files` and `on_pre_replace`. -/
  | merge (file : Option SstMeta)
  | replace
  | notify
  | find
  /-- `set_manifest` inserts the files, if the memory budget allows. -/
  | insert (reserved : Bool)
  | unlink
  deriving DecidableEq, Repr

/-- What a step of a task leaves: the task, the index, and the manifest if one is inserted. -/
structure TaskResult where
  task : TableTask
  index : List WrittenSst
  manifest : Option (List WrittenSst) := none

/-- A step of a task of the table with the given number and index. Whether the catalog has a schema
under the name of the table is `present`. -/
def TableTask.step (c : Compactor) (present : Bool) (number : ℕ) (index : List WrittenSst) :
    TableTask → TaskAction → Option TaskResult
  | .flushing, .write none => some ⟨.done, index, none⟩
  | .flushing, .write (some file) => some ⟨.flushed ⟨file, number⟩, index, none⟩
  | .flushed _, .apply none => some ⟨.done, index, none⟩
  | .flushed file, .apply (some position) =>
    some ⟨.notifying [], index.insertIdx position file, none⟩
  | .passing, .pick =>
    match pickCompaction (index.map WrittenSst.file) c.strategy c.thresholdBytes
      c.maxMergeFiles with
    | none => some ⟨.done, index, none⟩
    | some (start, len) => some ⟨.picked start len (runOf index start len), index, none⟩
  | .picked _ _ _, .merge none => some ⟨.done, index, none⟩
  | .picked start len inputs, .merge (some file) =>
    some ⟨.merged start len inputs ⟨file, number⟩, index, none⟩
  | .merged start len inputs file, .replace =>
    (FileIndex.replaceRange start len file index).map fun index ↦ ⟨.notifying inputs, index, none⟩
  | .notifying inputs, .notify => some ⟨.persisting index inputs, index, none⟩
  | .persisting files inputs, .find =>
    -- The error of `set_manifest` is only logged.
    some ⟨if present then .found files inputs else .unlinking inputs, index, none⟩
  | .found files inputs, .insert reserved =>
    some ⟨.unlinking inputs, index, if reserved then some files else none⟩
  | .unlinking _, .unlink => some ⟨.done, index, none⟩
  | _, _ => none

/-- An `LsmTable` with its compactor and its tasks. -/
structure OpenTable where
  number : ℕ
  index : List WrittenSst
  cancelled : Bool
  tasks : List TableTask

def OpenTable.start (t : OpenTable) (task : TableTask) : OpenTable :=
  { t with tasks := t.tasks ++ [task] }

/-- Where a `drop_table` is. -/
inductive DropTask where
  /-- The engine has found the table. -/
  | found
  | unloaded
  /-- The store has found the schema. -/
  | checked
  /-- The schema is removed, and the manifest is next. -/
  | removing
  | done
  deriving DecidableEq, Repr

/-- The catalog entry of a name, and the tables that have been opened under it. -/
structure Succession where
  /-- The number of the table whose schema is in the catalog. -/
  schema : Option ℕ
  manifest : Option (List WrittenSst)
  /-- How many tables have been created. -/
  created : ℕ
  tables : List OpenTable
  /-- The position of the table that the engine has loaded. -/
  loaded : Option ℕ
  drops : List DropTask

/-- A step under the name. -/
inductive SuccessionAction where
  | create
  /-- `mount_table_inner` opens the table. -/
  | load
  | register (table : ℕ)
  | startFlush (table : ℕ)
  | startPass (table : ℕ)
  /-- `update_runtime`, with the index of the table. -/
  | startUpdate (table : ℕ)
  | task (table i : ℕ) (a : TaskAction)
  | startDrop
  | drop (i : ℕ)

namespace Succession

def initial : Succession := ⟨none, none, 0, [], none, []⟩

variable (s : Succession)

def modifyTable (table : ℕ) (f : OpenTable → OpenTable) : Succession :=
  { s with tables := s.tables.modify table f }

def setDrop (i : ℕ) (d : DropTask) : Succession :=
  { s with drops := s.drops.set i d }

/-- Cancel the compactor of the loaded table. -/
def unload : Succession :=
  match s.loaded with
  | none => s
  | some table =>
    { s with
      loaded := none
      tables := s.tables.modify table fun t ↦ { t with cancelled := true } }

def dropStep (i : ℕ) : DropTask → Option Succession
  | .found => some (s.unload.setDrop i .unloaded)
  | .unloaded => some (s.setDrop i (if s.schema.isSome then .checked else .done))
  | .checked => some { s.setDrop i .removing with schema := none }
  | .removing => some { s.setDrop i .done with manifest := none }
  | .done => none

def step (c : Compactor) (s : Succession) : SuccessionAction → Option Succession
  | .create =>
    if s.schema.isSome then none
    else some { s with
      schema := some (s.created + 1)
      -- `or_default`: a manifest that is there stays.
      manifest := some (s.manifest.getD [])
      created := s.created + 1 }
  | .load => s.schema.map fun number ↦
    let index := (s.manifest.getD []).insertionSort fun a b ↦ a.file.minTs ≤ b.file.minTs
    { s with tables := s.tables ++ [⟨number, index, false, []⟩] }
  | .register table => some { s with loaded := some table }
  | .startFlush table => some (s.modifyTable table fun t ↦ t.start .flushing)
  | .startPass table =>
    some (s.modifyTable table fun t ↦ if t.cancelled then t else t.start .passing)
  | .startUpdate table => some (s.modifyTable table fun t ↦ t.start (.notifying []))
  | .task table i a => do
    let t ← s.tables[table]?
    let task ← t.tasks[i]?
    let r ← task.step c s.schema.isSome t.number t.index a
    pure { s with
      tables := s.tables.set table { t with index := r.index, tasks := t.tasks.set i r.task }
      manifest := r.manifest.or s.manifest }
  | .startDrop => if s.schema.isSome then some { s with drops := s.drops ++ [.found] } else none
  | .drop i => s.drops[i]?.bind (s.dropStep i)

/-- The manifest of the table in the catalog lists only files that this table wrote. -/
def OwnManifest : Prop :=
  ∀ number ∈ s.schema, ∀ files ∈ s.manifest, ∀ f ∈ files, f.writer = number

instance : Decidable s.OwnManifest :=
  inferInstanceAs (Decidable (∀ number ∈ _, _))

/-- A table is created when no drop has still to remove the manifest, and a manifest is inserted
while the table it is of is the one in the catalog. -/
def Current : SuccessionAction → Prop
  | .create => .removing ∉ s.drops
  | .task table _ (.insert _) => ∀ t ∈ s.tables[table]?, s.schema = some t.number
  | _ => True

instance (a : SuccessionAction) : Decidable (s.Current a) := by
  unfold Current
  split <;> infer_instance

end Succession

/-! ## The files of one table -/

/-- The files were written by the table of this number. -/
def WrittenBy (number : ℕ) (files : List WrittenSst) : Prop := ∀ f ∈ files, f.writer = number

namespace WrittenBy

variable {number : ℕ} {file : WrittenSst} {files : List WrittenSst}

theorem nil (number : ℕ) : WrittenBy number [] := fun _ hf ↦ nomatch hf

theorem singleton (h : file.writer = number) : WrittenBy number [file] :=
  fun _ hf ↦ mem_singleton.mp hf ▸ h

theorem insertIdx (h : WrittenBy number files) (hfile : file.writer = number) (position : ℕ) :
    WrittenBy number (files.insertIdx position file) := by
  intro f hf
  rcases eq_or_mem_of_mem_insertIdx hf with rfl | hf
  · exact hfile
  · exact h f hf

theorem replaceRange {start len : ℕ} {index : List WrittenSst} (h : WrittenBy number files)
    (hfile : file.writer = number)
    (hr : FileIndex.replaceRange start len file files = some index) : WrittenBy number index := by
  obtain ⟨-, rfl⟩ := ite_some_none_eq_some.mp hr
  refine insertIdx (fun f hf ↦ ?_) hfile start
  rw [FileIndex.removeFrom_eq, mem_append] at hf
  exact hf.elim (fun hf ↦ h f (mem_of_mem_take hf)) fun hf ↦ h f (mem_of_mem_drop hf)

end WrittenBy

namespace TableTask

/-- The files a task is about to index or to record. -/
def files : TableTask → List WrittenSst
  | .flushed file | .merged _ _ _ file => [file]
  | .persisting files _ | .found files _ => files
  | .flushing | .passing | .picked _ _ _ | .notifying _ | .unlinking _ | .done => []

/-- The files of a table stay its own. A manifest is inserted only in `insert`, and lists files of
the table. -/
theorem writtenBy_step {c : Compactor} {present : Bool} {number : ℕ} {index : List WrittenSst}
    {task : TableTask} {a : TaskAction} {r : TaskResult} (hidx : WrittenBy number index)
    (htask : WrittenBy number task.files) (hstep : task.step c present number index a = some r) :
    WrittenBy number r.index ∧ WrittenBy number r.task.files ∧
      (r.manifest = none ∨ (∃ reserved, a = .insert reserved) ∧
        ∀ files ∈ r.manifest, WrittenBy number files) := by
  rw [step.eq_def] at hstep
  split at hstep
  · cases hstep
    exact ⟨hidx, .nil _, .inl rfl⟩
  · cases hstep
    exact ⟨hidx, .singleton rfl, .inl rfl⟩
  · cases hstep
    exact ⟨hidx, .nil _, .inl rfl⟩
  · next file position =>
    cases hstep
    exact ⟨hidx.insertIdx (htask file (mem_singleton_self _)) position, .nil _, .inl rfl⟩
  · split at hstep <;> cases hstep <;>
      exact ⟨hidx, .nil _, .inl rfl⟩
  · cases hstep
    exact ⟨hidx, .nil _, .inl rfl⟩
  · cases hstep
    exact ⟨hidx, .singleton rfl, .inl rfl⟩
  · next file =>
    obtain ⟨_, hr, rfl⟩ := map_eq_some_iff.mp hstep
    exact ⟨hidx.replaceRange (htask file (mem_singleton_self _)) hr, .nil _, .inl rfl⟩
  · cases hstep
    exact ⟨hidx, hidx, .inl rfl⟩
  · cases hstep
    refine ⟨hidx, ?_, .inl rfl⟩
    dsimp only
    split
    · exact htask
    · exact .nil _
  · next files inputs reserved =>
    cases hstep
    refine ⟨hidx, .nil _, .inr ⟨⟨reserved, rfl⟩, fun files' hf ↦ ?_⟩⟩
    obtain ⟨-, hf⟩ := ite_none_right_eq_some.mp hf
    exact some.inj hf ▸ htask
  · cases hstep
    exact ⟨hidx, .nil _, .inl rfl⟩
  · cases hstep

end TableTask

namespace OpenTable

variable {t : OpenTable}

/-- A table has only its own files, and so have its tasks. -/
structure Own (t : OpenTable) : Prop where
  index : WrittenBy t.number t.index
  tasks : ∀ task ∈ t.tasks, WrittenBy t.number task.files

theorem Own.start (h : t.Own) {task : TableTask} (htask : WrittenBy t.number task.files) :
    (t.start task).Own :=
  ⟨h.index, forall_mem_append.mpr ⟨h.tasks, forall_mem_singleton.mpr htask⟩⟩

theorem Own.set (h : t.Own) {index : List WrittenSst} (hidx : WrittenBy t.number index) (i : ℕ)
    {task : TableTask} (htask : WrittenBy t.number task.files) :
    Own { t with index, tasks := t.tasks.set i task } := by
  refine ⟨hidx, fun task' ht' ↦ ?_⟩
  rcases mem_or_eq_of_mem_set ht' with ht' | rfl
  · exact h.tasks task' ht'
  · exact htask

end OpenTable

/-! ## The manifest in every run -/

namespace Succession

variable {c : Compactor} {s s' : Succession}

/-- The table in the catalog is the last that was created, and the manifest lists files of that
table. Without a schema there is a manifest only while a drop has still to remove it. -/
structure Inv (s : Succession) : Prop where
  tables : ∀ t ∈ s.tables, t.Own
  last : ∀ number ∈ s.schema, number = s.created
  manifest : ∀ files ∈ s.manifest, WrittenBy s.created files
  gone : s.schema = none → s.manifest = none ∨ .removing ∈ s.drops

theorem inv_initial : initial.Inv := ⟨nofun, nofun, nofun, fun _ ↦ .inl rfl⟩

variable {f : OpenTable → OpenTable}

/-- A change of one table that keeps its files its own. -/
theorem Inv.own_modify (h : s.Inv) (table : ℕ) (hf : ∀ t, t.Own → (f t).Own) :
    ∀ t ∈ s.tables.modify table f, t.Own := by
  intro t ht
  obtain ⟨_, hi⟩ := mem_iff_getElem?.mp ht
  rw [getElem?_modify] at hi
  obtain ⟨t', ht', rfl⟩ := map_eq_some_iff.mp hi
  have hown := h.tables t' (mem_of_getElem? ht')
  split
  · exact hf t' hown
  · exact hown

theorem Inv.modifyTable (h : s.Inv) (table : ℕ) (hf : ∀ t, t.Own → (f t).Own) :
    (s.modifyTable table f).Inv :=
  { h with tables := h.own_modify table hf }

theorem drops_unload (s : Succession) : s.unload.drops = s.drops := by
  rw [Succession.unload]
  split <;> rfl

section

variable (h : s.Inv)

include h

theorem Inv.unload : s.unload.Inv := by
  rw [Succession.unload]
  split
  · exact h
  · exact { h with tables := h.own_modify _ fun _ ht ↦ { ht with } }

theorem Inv.setDrop {i : ℕ} {d : DropTask} (hd : s.drops[i]? = some d)
    (hne : d ≠ .removing) (d' : DropTask) : (s.setDrop i d').Inv := by
  refine { h with gone := fun hs ↦ (h.gone hs).imp_right fun hm ↦ ?_ }
  obtain ⟨j, hj⟩ := mem_iff_getElem?.mp hm
  refine mem_iff_getElem?.mpr ⟨j, ?_⟩
  rw [← hj]
  refine getElem?_set_ne fun hij ↦ hne ?_
  exact some.inj (hd.symm.trans (hij ▸ hj))

theorem Inv.create (hok : s.Current .create) (hstep : s.step c .create = some s') : s'.Inv := by
  obtain ⟨hs, hstep⟩ := ite_none_left_eq_some.mp hstep
  cases hstep
  have hgone : s.manifest = none := (h.gone (not_isSome_iff_eq_none.mp hs)).resolve_right hok
  refine ⟨h.tables, fun _ hn ↦ (some.inj hn).symm, ?_, nofun⟩
  rw [hgone]
  exact fun files hf ↦ some.inj hf ▸ .nil _

theorem Inv.load (hstep : s.step c .load = some s') : s'.Inv := by
  obtain ⟨number, hsch, rfl⟩ := map_eq_some_iff.mp hstep
  refine { h with
    tables := forall_mem_append.mpr
      ⟨h.tables, forall_mem_singleton.mpr ⟨fun f hf ↦ ?_, nofun⟩⟩ }
  -- the new index has the files of the manifest, sorted
  rw [mem_insertionSort] at hf
  cases hm : s.manifest with
  | none =>
    rw [hm] at hf
    cases hf
  | some files =>
    rw [hm] at hf
    exact (h.manifest files hm f hf).trans (h.last number hsch).symm

theorem Inv.task {table i : ℕ} {a : TaskAction} (hok : s.Current (.task table i a))
    (hstep : s.step c (.task table i a) = some s') : s'.Inv := by
  obtain ⟨t, ht, hstep⟩ := bind_eq_some_iff.mp hstep
  obtain ⟨task, htask, hstep⟩ := bind_eq_some_iff.mp hstep
  obtain ⟨r, hr, hstep⟩ := bind_eq_some_iff.mp hstep
  cases hstep
  have hown := h.tables t (mem_of_getElem? ht)
  obtain ⟨hidx, htask', hman⟩ :=
    TableTask.writtenBy_step hown.index (hown.tasks task (mem_of_getElem? htask)) hr
  have htabl : ∀ t' ∈ s.tables.set table
      { t with index := r.index, tasks := t.tasks.set i r.task }, t'.Own := by
    intro t' ht'
    rcases mem_or_eq_of_mem_set ht' with ht' | rfl
    · exact h.tables t' ht'
    · exact hown.set hidx i htask'
  rcases hman with hnone | ⟨⟨_, rfl⟩, hfs⟩
  · rw [hnone]
    exact { h with tables := htabl }
  · -- the step that writes the manifest: its table is the one in the catalog
    have hcur : s.schema = some t.number := hok t ht
    have hnum := h.last _ hcur
    refine ⟨htabl, h.last, fun files hf ↦ ?_, fun hs ↦ ?_⟩
    · rcases or_eq_some_iff.mp hf with hf | ⟨-, hf⟩
      · exact hnum ▸ hfs files hf
      · exact h.manifest files hf
    · cases hcur.symm.trans hs

theorem Inv.drop {i : ℕ} (hstep : s.step c (.drop i) = some s') : s'.Inv := by
  obtain ⟨d, hd, hstep⟩ := bind_eq_some_iff.mp hstep
  cases d with
  | found =>
    cases hstep
    rw [← drops_unload] at hd
    exact h.unload.setDrop hd nofun _
  | unloaded =>
    cases hstep
    exact h.setDrop hd nofun _
  | checked =>
    -- the schema goes first, and until the next step the manifest stands without it
    cases hstep
    refine ⟨h.tables, nofun, h.manifest, fun _ ↦ .inr ?_⟩
    exact mem_iff_getElem?.mpr ⟨i, getElem?_set_self (List.getElem?_eq_some_iff.mp hd).1⟩
  | removing =>
    cases hstep
    exact ⟨h.tables, h.last, nofun, fun _ ↦ .inl rfl⟩
  | done => cases hstep

end

theorem Inv.step {a : SuccessionAction} (h : s.Inv) (hok : s.Current a)
    (hstep : s.step c a = some s') : s'.Inv := by
  cases a with
  | create => exact h.create hok hstep
  | load => exact h.load hstep
  | register => exact some.inj hstep ▸ { h with }
  | startFlush table | startUpdate table =>
    exact some.inj hstep ▸ h.modifyTable table fun _ ht ↦ ht.start (.nil _)
  | startPass table =>
    refine some.inj hstep ▸ h.modifyTable table fun t ht ↦ ?_
    split
    · exact ht
    · exact ht.start (.nil _)
  | task => exact h.task hok hstep
  | startDrop =>
    obtain ⟨-, rfl⟩ := ite_some_none_eq_some.mp hstep
    exact { h with gone := fun hs ↦ (h.gone hs).imp_right (mem_append_left _) }
  | drop => exact h.drop hstep

/-- The file of a flush of one row. -/
def flushedFile (lsn : ℕ) : SstMeta :=
  ⟨s!"data/t/{lsn}.parquet", lsn, lsn, 1, 10, 0, 0, 0, lsn, lsn⟩

def mergedFile : SstMeta := ⟨"data/t/merged.parquet", 1, 2, 2, 20, 0, 1, 0, 1, 2⟩

/-- The table flushes one row and records the file. -/
def flush (table i lsn : ℕ) : List SuccessionAction :=
  [.startFlush table, .task table i (.write (some (flushedFile lsn))),
    .task table i (.apply (some (lsn - 1))), .task table i .notify, .task table i .find,
    .task table i (.insert true)]

/-- The table is created, loaded and flushed twice, and a pass merges the two files. -/
def untilMerged : List SuccessionAction :=
  [.create, .load, .register 0] ++ flush 0 0 1 ++ flush 0 1 2 ++
    [.startPass 0, .task 0 2 .pick, .task 0 2 (.merge (some mergedFile))]

def dropAndCreate : List SuccessionAction :=
  [.startDrop, .drop 0, .drop 0, .drop 0, .drop 0, .create]

def recordMerged : List SuccessionAction :=
  [.task 0 2 .replace, .task 0 2 .notify, .task 0 2 .find, .task 0 2 (.insert true)]

end Succession

end MonoTS
