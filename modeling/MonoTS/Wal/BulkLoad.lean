import MonoTS.Compaction.Passes
import MonoTS.Query.Provider

/-!
# The BulkLoad WAL and compaction

A bulk load writes an SST past the memtables and records it in a WAL of its own: a hard link and an
event with the LSN it was given. The entry stays until every capture has committed past it. On a
restart, `recover_into_index` inserts every file of the WAL that is not in the manifest, in case the
table stopped before the manifest was written.

A file can be missing in the manifest for another reason: a compaction has merged it into a larger
file. The WAL still pins it, so it is still on disk, and the restart brings it back. Whether that
changes an answer depends on where its LSN is in the order of a scan: the merged file starts at the
smallest LSN of its inputs, so a bulk-loaded file that was not the first of them comes back as the
newer one of the two (`restart_keeps_rows_iff`).

The operations of a history are taken as a whole here. A flush and a compaction end with writing the
manifest; a bulk load is on disk and in its WAL before that, so that a restart can fall in between.
-/

open Transition List

namespace MonoTS

open FileIndex Passes

variable {ρ : Type*}

/-! ## The WAL -/

/-- A file on disk: an SST, or the hard link the BulkLoad WAL keeps of it. -/
inductive DiskFile where
  | sst (path : String)
  | link (lsn : ℕ) (path : String)
  deriving DecidableEq, Repr

/-- An entry of the WAL, with the file its hard link refers to. The event itself repeats the path,
the time bounds and the number of rows of the file. -/
structure FileAddEvent (ρ : Type*) where
  lsn : ℕ
  file : SstFile ρ

variable (ev : FileAddEvent ρ)

/-- The SST that recovery makes of an entry: the LSN bounds are read off the name of the file. -/
def FileAddEvent.restored : SstFile ρ where
  toSstMeta := .fromIdentity ev.file.identity ev.file.filePath ev.file.minTs ev.file.maxTs
    ev.file.rowCount ev.file.fileSize
  toSortedRows := ev.file.toSortedRows
  bounded := ev.file.bounded
  span_le := by
    obtain ⟨hmin, hmax⟩ := SstMeta.identity_lsn ev.file.span_le
    rw [SstMeta.fromIdentity, hmin, hmax]
    exact ev.file.span_le

theorem FileAddEvent.restored_eq : ev.restored = ev.file := by
  obtain ⟨_, _, _, _, hs⟩ := ev
  simp only [restored]
  congr
  exact SstMeta.fromIdentity_identity hs

/-- The events of the WAL, in the order of their LSNs. -/
abbrev BulkLoadWal (ρ : Type*) := List (FileAddEvent ρ)

namespace BulkLoadWal

variable (wal : BulkLoadWal ρ)

/-- Append an event for the file, under the LSN it was sealed with. -/
def record (file : SstFile ρ) : BulkLoadWal ρ :=
  (wal ++ [FileAddEvent.mk file.maxLsn file]).insertionSort fun a b ↦ a.lsn ≤ b.lsn

def pinsPath (path : String) : Bool :=
  wal.any fun ev ↦ ev.file.filePath == path

variable (retainedLsn : ℕ)

/-- The entries that a collection drops, and those it keeps. -/
def expired : BulkLoadWal ρ :=
  wal.filter fun ev ↦ ev.lsn ≤ retainedLsn

def gcUpto : BulkLoadWal ρ :=
  wal.filter fun ev ↦ retainedLsn < ev.lsn

/-- What a collection leaves on disk: the links of expired entries are deleted, and the SSTs that
are not in the index any more. -/
def gcDisk (livePaths : List String) (disk : List DiskFile) : List DiskFile :=
  disk.filter fun d ↦ !(wal.expired retainedLsn).any fun ev ↦
    d == .link ev.lsn ev.file.filePath || (d == .sst ev.file.filePath &&
      !livePaths.contains ev.file.filePath)

variable (search : BinarySearch)

/-- Recovery of one entry: the file is restored from its link if need be, and inserted if its path
is not among those of the manifest. -/
def recoverEvent (live : List String) (s : List DiskFile × List (SstFile ρ)) (ev : FileAddEvent ρ) :
    List DiskFile × List (SstFile ρ) :=
  if .sst ev.file.filePath ∈ s.1 ∨ .link ev.lsn ev.file.filePath ∈ s.1 then
    let disk := if .sst ev.file.filePath ∈ s.1 then s.1 else .sst ev.file.filePath :: s.1
    if ev.file.filePath ∈ live then (disk, s.2)
    else (disk, insert search s.2 ev.restored)
  else s

def recoverIntoIndex (wal : BulkLoadWal ρ) (disk : List DiskFile)
    (index : List (SstFile ρ)) : List DiskFile × List (SstFile ρ) :=
  wal.foldl (recoverEvent search (index.map fun f ↦ f.filePath)) (disk, index)

variable {wal : BulkLoadWal ρ} {search : BinarySearch} {index : List (SstFile ρ)}

theorem mem_record {file : SstFile ρ} {ev : FileAddEvent ρ} :
    ev ∈ wal.record file ↔ ev ∈ wal ∨ ev = ⟨file.maxLsn, file⟩ := by
  rw [record, mem_insertionSort, mem_append, mem_singleton]

theorem pinsPath_iff {path : String} :
    wal.pinsPath path = true ↔ ∃ ev ∈ wal, ev.file.filePath = path := by
  simp [pinsPath]

theorem recoverEvent_of_mem {live : List String} {disk : List DiskFile} {ev : FileAddEvent ρ}
    (h : .sst ev.file.filePath ∈ disk) :
    recoverEvent search live (disk, index) ev =
      (disk, if ev.file.filePath ∈ live then index else insert search index ev.file) := by
  rw [recoverEvent, if_pos (.inl h), if_pos h, ev.restored_eq]
  split <;> rfl

/-- **What recovery inserts**: the files of the WAL whose paths are not in the manifest, if they are
all on disk. -/
theorem mem_recoverIntoIndex {disk : List DiskFile} (h : ∀ ev ∈ wal, .sst ev.file.filePath ∈ disk)
    {f : SstFile ρ} :
    f ∈ (recoverIntoIndex search wal disk index).2 ↔ f ∈ index ∨
      ∃ ev ∈ wal, ev.file = f ∧ f.filePath ∉ index.map fun f ↦ f.filePath := by
  rw [recoverIntoIndex]
  generalize index.map (fun f ↦ f.filePath) = live
  induction wal generalizing index with
  | nil => simp
  | cons ev wal ih =>
    rw [foldl_cons, recoverEvent_of_mem (h ev mem_cons_self),
      ih fun ev' hev ↦ h ev' (mem_cons_of_mem _ hev)]
    split
    · next hlive =>
      simp only [mem_cons, exists_eq_or_imp]
      refine or_congr_right ⟨.inr, ?_⟩
      rintro (⟨rfl, hnot⟩ | hrest)
      · exact absurd hlive hnot
      · exact hrest
    · next hlive =>
      rw [mem_insert]
      simp only [mem_cons, exists_eq_or_imp]
      constructor
      · rintro ((rfl | hf) | hrest)
        · exact .inr (.inl ⟨rfl, hlive⟩)
        · exact .inl hf
        · exact .inr (.inr hrest)
      · rintro (hf | ⟨rfl, -⟩ | hrest)
        · exact .inl (.inr hf)
        · exact .inl (.inl rfl)
        · exact .inr hrest

end BulkLoadWal

open BulkLoadWal

/-! ## Histories -/

/-- A table's files as far as bulk loads are concerned. -/
structure BulkLoads (ρ : Type*) where
  index : List (SstFile ρ)
  /-- The index as it was last persisted. -/
  manifest : List (SstFile ρ)
  wal : BulkLoadWal ρ
  disk : List DiskFile
  /-- The LSNs that were handed out, as far as they are bounds of files. -/
  usedLsns : List ℕ

/-- A step of the table or of its bulk loads. -/
inductive BulkAction (ρ : Type*) where
  | flush (file : SstFile ρ)
  | bulkLoad (file : SstFile ρ)
  /-- The manifest is written after a bulk load. -/
  | persist
  | compact (nowMs : ℤ) (fileSize : ℕ)
  | gc (retainedLsn : ℕ)

namespace BulkLoads

def initial : BulkLoads ρ := ⟨[], [], [], [], []⟩

variable (s : BulkLoads ρ)

/-- The files the index or the WAL knows. -/
def known : List (SstFile ρ) := s.index ++ s.wal.map FileAddEvent.file

variable (file : SstFile ρ)

/-- The path of a new file is not taken, and its LSN bounds belong to no other file. -/
def Fresh : Prop :=
  .sst file.filePath ∉ s.disk ∧ file.baseLsn ∉ s.usedLsns ∧ file.maxLsn ∉ s.usedLsns

instance : Decidable (s.Fresh file) :=
  inferInstanceAs (Decidable (_ ∧ _ ∧ _))

variable (search : BinarySearch) (c : Compactor) (s : BulkLoads ρ)

/-- The inputs of a compaction are deleted, except for those the WAL pins. -/
def unlinkInputs (inputs : List (SstFile ρ)) (disk : List DiskFile) : List DiskFile :=
  disk.filter fun d ↦ !inputs.any fun f ↦ d == .sst f.filePath && !s.wal.pinsPath f.filePath

/-- Exchange the picked run for the merged file. -/
def replace (start len : ℕ) (merged : SstFile ρ) : Option (BulkLoads ρ) :=
  (replaceRange start len merged s.index).map fun index ↦
    { s with
      index
      manifest := index
      disk := s.unlinkInputs (runOf s.index start len) (.sst merged.filePath :: s.disk) }

def step : BulkAction ρ → Option (BulkLoads ρ)
  | .flush file =>
    if s.Fresh file then
      some
        { s with
          index := insert search s.index file
          manifest := insert search s.index file
          disk := .sst file.filePath :: s.disk
          usedLsns := file.baseLsn :: file.maxLsn :: s.usedLsns }
    else none
  | .bulkLoad file =>
    -- `allocate_bulk_lsn` refuses an LSN that is not behind all flushed ones.
    if s.Fresh file ∧ file.baseLsn = file.maxLsn ∧ ∀ f ∈ s.index, f.maxLsn < file.maxLsn then
      some
        { s with
          index := insert search s.index file
          wal := s.wal.record file
          disk := .sst file.filePath :: .link file.maxLsn file.filePath :: s.disk
          usedLsns := file.maxLsn :: s.usedLsns }
    else none
  | .persist => some { s with manifest := s.index }
  | .compact nowMs fileSize =>
    match c.pick s.index with
    | none => none
    | some (start, len) =>
      match mergeFiles c.dataDir nowMs fileSize (runOf s.index start len) with
      | .error _ => none
      | .ok merged => if .sst merged.filePath ∈ s.disk then none else s.replace start len merged
  | .gc retainedLsn =>
    some
      { s with
        wal := s.wal.gcUpto retainedLsn
        disk := s.wal.gcDisk retainedLsn (s.index.map fun f ↦ f.filePath) s.disk }

/-- The index after a restart. -/
def restart : List (SstFile ρ) :=
  (s.wal.recoverIntoIndex search s.disk (fromPersisted s.manifest)).2

/-! ## What every history keeps -/

/-- Files on disk that can be told apart by their paths and by their LSN bounds. -/
structure Distinct (files : List (SstFile ρ)) (disk : List DiskFile) (usedLsns : List ℕ) :
    Prop where
  on_disk : ∀ f ∈ files, .sst f.filePath ∈ disk
  used : ∀ f ∈ files, f.baseLsn ∈ usedLsns
  path : ∀ f ∈ files, ∀ g ∈ files, f.filePath = g.filePath → f = g
  key : ∀ f ∈ files, ∀ g ∈ files, f.lsnKey = g.lsnKey → f = g

variable {files files' : List (SstFile ρ)} {disk disk' : List DiskFile} {file f : SstFile ρ}

/-- One more file, under a new path and with LSN bounds that no other file has. -/
theorem Distinct.add {used used' : List ℕ} (h : Distinct files disk used)
    (hsub : ∀ f ∈ files', f = file ∨ f ∈ files) (hpath : .sst file.filePath ∉ disk)
    (hkey : ∀ f ∈ files', f ≠ file → f.lsnKey ≠ file.lsnKey)
    (hdisk : ∀ f ∈ files', .sst f.filePath ∈ disk') (hused : ∀ f ∈ files', f.baseLsn ∈ used') :
    Distinct files' disk' used' := by
  have hnew {f : SstFile ρ} (hf : f ∈ files) : f.filePath ≠ file.filePath := fun heq ↦
    hpath (heq ▸ h.on_disk f hf)
  refine ⟨hdisk, hused, fun f hf g hg heq ↦ ?_, fun f hf g hg heq ↦ ?_⟩
  · rcases hsub f hf with rfl | hf <;> rcases hsub g hg with rfl | hg
    · rfl
    · exact absurd heq.symm (hnew hg)
    · exact absurd heq (hnew hf)
    · exact h.path f hf g hg heq
  · by_cases hfile : f = file
    · by_contra hne
      exact hkey g hg (fun hg' ↦ hne (hfile.trans hg'.symm)) (hfile ▸ heq.symm)
    · by_cases hfile' : g = file
      · exact absurd (hfile' ▸ heq) (hkey f hf hfile)
      · exact h.key f ((hsub f hf).resolve_left hfile) g ((hsub g hg).resolve_left hfile') heq

theorem Distinct.mono {used : List ℕ} (h : Distinct files disk used)
    (hsub : ∀ f ∈ files', f ∈ files) (hdisk : ∀ f ∈ files', .sst f.filePath ∈ disk') :
    Distinct files' disk' used :=
  ⟨hdisk, fun f hf ↦ h.used f (hsub f hf), fun f hf g hg ↦ h.path f (hsub f hf) g (hsub g hg),
    fun f hf g hg ↦ h.key f (hsub f hf) g (hsub g hg)⟩

/-- What every step keeps. -/
structure Inv (s : BulkLoads ρ) : Prop where
  distinct : Distinct s.known s.disk s.usedLsns
  /-- No two files of the index start at the same LSN. -/
  bases : s.index.Pairwise fun a b ↦ a.baseLsn ≠ b.baseLsn
  /-- A bulk load has a single LSN. -/
  point : ∀ ev ∈ s.wal, ev.file.baseLsn = ev.file.maxLsn ∧ ev.lsn = ev.file.maxLsn
  manifest : ∀ f ∈ s.manifest, f ∈ s.index
  /-- A file that is not in the manifest yet is in the WAL. -/
  saved : ∀ f ∈ s.index, f ∈ s.manifest ∨ ∃ ev ∈ s.wal, ev.file = f

theorem mem_known {s : BulkLoads ρ} : f ∈ s.known ↔ f ∈ s.index ∨ ∃ ev ∈ s.wal, ev.file = f := by
  rw [known, mem_append, mem_map]

theorem inv_initial : Inv (initial : BulkLoads ρ) :=
  ⟨⟨by simp [known, initial], by simp [known, initial], by simp [known, initial],
    by simp [known, initial]⟩, .nil, by simp [initial], by simp [initial], by simp [initial]⟩

variable {search c} {s s' : BulkLoads ρ}

theorem Inv.add (h : Inv s) (hfresh : s.Fresh file) {used' : List ℕ}
    (hsub : ∀ f ∈ files', f = file ∨ f ∈ s.known)
    (hdisk : .sst file.filePath ∈ disk' ∧ s.disk ⊆ disk')
    (hused : file.baseLsn ∈ used' ∧ s.usedLsns ⊆ used') : Distinct files' disk' used' := by
  refine h.distinct.add hsub hfresh.1 (fun f hf hne heq ↦ ?_) (fun f hf ↦ ?_) fun f hf ↦ ?_
  · have hbase := (SstFile.bounds_of_lsnKey_eq heq).1
    exact hfresh.2.1 (hbase ▸ h.distinct.used f ((hsub f hf).resolve_left hne))
  · rcases hsub f hf with rfl | hf
    · exact hdisk.1
    · exact hdisk.2 (h.distinct.on_disk f hf)
  · rcases hsub f hf with rfl | hf
    · exact hused.1
    · exact hused.2 (h.distinct.used f hf)

theorem Inv.bases_insert (h : Inv s) (hfresh : s.Fresh file) :
    (insert search s.index file).Pairwise fun a b ↦ a.baseLsn ≠ b.baseLsn := by
  refine ((insert_perm search s.index file).pairwise_iff fun hne ↦ hne.symm).mpr ?_
  refine .cons (fun f hf heq ↦ hfresh.2.1 ?_) h.bases
  exact heq ▸ h.distinct.used f (mem_known.mpr (.inl hf))

theorem Inv.flush (h : Inv s) (hstep : s.step search c (.flush file) = some s') : Inv s' := by
  simp only [step] at hstep
  split at hstep
  · next hfresh =>
    cases hstep
    refine ⟨h.add hfresh (fun f hf ↦ ?_) ⟨by simp, by simp⟩ ⟨by simp, by simp⟩,
      h.bases_insert hfresh, h.point, fun f hf ↦ hf, fun f hf ↦ .inl hf⟩
    rcases mem_known.mp hf with hf | hf
    · exact (mem_insert.mp hf).imp_right fun hf ↦ mem_known.mpr (.inl hf)
    · exact .inr (mem_known.mpr (.inr hf))
  · cases hstep

theorem Inv.bulkLoad (h : Inv s) (hstep : s.step search c (.bulkLoad file) = some s') : Inv s' := by
  simp only [step] at hstep
  split at hstep
  · next hok =>
    obtain ⟨hfresh, hpoint, -⟩ := hok
    cases hstep
    refine ⟨h.add hfresh (fun f hf ↦ ?_) ⟨by simp, fun d hd ↦ by simp [hd]⟩
      ⟨by simp [hpoint], by simp⟩, h.bases_insert hfresh, fun ev hev ↦ ?_, fun f hf ↦ ?_,
      fun f hf ↦ ?_⟩
    · rcases mem_known.mp hf with hf | ⟨ev, hev, rfl⟩
      · exact (mem_insert.mp hf).imp_right fun hf ↦ mem_known.mpr (.inl hf)
      · rcases mem_record.mp hev with hev | rfl
        · exact .inr (mem_known.mpr (.inr ⟨ev, hev, rfl⟩))
        · exact .inl rfl
    · rcases mem_record.mp hev with hev | rfl
      · exact h.point ev hev
      · exact ⟨hpoint, rfl⟩
    · exact mem_insert.mpr (.inr (h.manifest f hf))
    · rcases mem_insert.mp hf with rfl | hf
      · exact .inr ⟨_, mem_record.mpr (.inr rfl), rfl⟩
      · refine (h.saved f hf).imp_right fun ⟨ev, hev, heq⟩ ↦ ?_
        exact ⟨ev, mem_record.mpr (.inl hev), heq⟩
  · cases hstep

variable {fileSize : ℕ} {nowMs : ℤ}

theorem Inv.key_ne_merged (h : Inv s) {start len : ℕ} {dataDir : String}
    (hlen : 2 ≤ (runOf s.index start len).length) {ev : FileAddEvent ρ} (hev : ev ∈ s.wal) :
    ev.file.lsnKey ≠ (mergedFile dataDir nowMs fileSize (runOf s.index start len)).lsnKey := by
  set merged := mergedFile dataDir nowMs fileSize (runOf s.index start len)
  intro heq
  have hne : runOf s.index start len ≠ [] := ne_nil_of_length_pos (by omega)
  have hbase : (runOf s.index start len).Pairwise fun a b ↦ a.baseLsn ≠ b.baseLsn :=
    h.bases.sublist ((take_sublist _ _).trans (drop_sublist _ _))
  obtain ⟨_, _⟩ := SstFile.bounds_of_lsnKey_eq heq
  -- All inputs would have to start at the LSN of the bulk load.
  have hall : ∀ a ∈ runOf s.index start len, a.baseLsn = ev.file.baseLsn := by
    intro a ha
    have hge : merged.baseLsn ≤ a.baseLsn := (mergedFile_baseLsn hne).2 a ha
    have hle : a.maxLsn ≤ merged.maxLsn := mergedFile_maxLsn hne a ha
    have hspan := a.span_le
    have hpoint := (h.point ev hev).1
    omega
  match hrun : runOf s.index start len, hlen with
  | a :: b :: rest, _ =>
    rw [hrun] at hall hbase
    refine (pairwise_cons.mp hbase).1 b mem_cons_self ?_
    rw [hall a mem_cons_self, hall b (mem_cons_of_mem _ mem_cons_self)]

theorem mem_unlinkInputs {inputs : List (SstFile ρ)} {path : String} :
    .sst path ∈ s.unlinkInputs inputs disk ↔
      .sst path ∈ disk ∧ ∀ b ∈ inputs, path = b.filePath → s.wal.pinsPath b.filePath = true := by
  simp [unlinkInputs]

theorem Inv.replace (h : Inv s) {start len : ℕ} {dataDir : String} {merged : SstFile ρ}
    (hlen : start + len ≤ s.index.length)
    (hmrg : mergeFiles dataDir nowMs fileSize (runOf s.index start len) = .ok merged)
    (hpath : .sst merged.filePath ∉ s.disk) (hrep : s.replace start len merged = some s') :
    Inv s' := by
  obtain ⟨htwo, rfl⟩ := mergeFiles_ok hmrg
  rw [BulkLoads.replace, replaceRange_eq (by omega)] at hrep
  cases hrep
  set run := runOf s.index start len with hrun
  set merged := mergedFile dataDir nowMs fileSize run with hmerg
  set outside := s.index.take start ++ s.index.drop (start + len) with houts
  have hne : run ≠ [] := ne_nil_of_length_pos (by omega)
  have hperm : s.index.Perm (run ++ outside) := perm_run s.index start len
  obtain ⟨-, hbases, hapart⟩ := pairwise_append.mp
    ((hperm.pairwise_iff fun hne ↦ hne.symm).mp h.bases)
  have hidx {f : SstFile ρ} : f ∈ s.index ↔ f ∈ run ∨ f ∈ outside := hperm.mem_iff.trans mem_append
  have hnew :
      (s.index.take start ++ merged :: s.index.drop (start + len)).Perm (merged :: outside) :=
    perm_middle
  have hmem {f : SstFile ρ} :
      f ∈ s.index.take start ++ merged :: s.index.drop (start + len) ↔ f = merged ∨ f ∈ outside :=
    hnew.mem_iff.trans mem_cons
  obtain ⟨⟨a, ha, hbase⟩, -⟩ : (∃ a ∈ run, merged.baseLsn = a.baseLsn) ∧ _ := mergedFile_baseLsn hne
  have hold {f : SstFile ρ} (hf : f ∈ outside ∨ ∃ ev ∈ s.wal, ev.file = f) : f ∈ s.known :=
    mem_known.mpr (hf.imp_left fun hf ↦ hidx.mpr (.inr hf))
  have hcases {f : SstFile ρ}
      (hf : f ∈ (s.index.take start ++ merged :: s.index.drop (start + len)) ++
        s.wal.map FileAddEvent.file) : f = merged ∨ f ∈ outside ∨ ∃ ev ∈ s.wal, ev.file = f := by
    rcases mem_append.mp hf with hf | hf
    · exact (hmem.mp hf).imp_right .inl
    · exact .inr (.inr (mem_map.mp hf))
  refine ⟨h.distinct.add (fun f hf ↦ (hcases hf).imp_right hold) hpath (fun f hf hfne heq ↦ ?_)
    (fun f hf ↦ ?_) (fun f hf ↦ ?_), ?_, h.point, fun f hf ↦ hf, fun f hf ↦ .inl hf⟩
  · rcases (hcases hf).resolve_left hfne with hf | ⟨ev, hev, rfl⟩
    · exact hapart a ha f hf (hbase ▸ (SstFile.bounds_of_lsnKey_eq heq).1.symm)
    · exact h.key_ne_merged htwo hev heq
  · -- An input is deleted only if no file that is kept has its path.
    rw [mem_unlinkInputs]
    refine ⟨?_, fun b hb heq ↦ ?_⟩
    · rcases hcases hf with rfl | hf
      · exact mem_cons_self
      · exact mem_cons_of_mem _ (h.distinct.on_disk f (hold hf))
    · have hb' : b ∈ s.known := mem_known.mpr (.inl (hidx.mpr (.inl hb)))
      rcases hcases hf with rfl | hf | ⟨ev, hev, rfl⟩
      · exact absurd (heq ▸ h.distinct.on_disk b hb') hpath
      · have hfb := h.distinct.path f (hold (.inl hf)) b hb' heq
        exact absurd (congrArg (fun f ↦ f.baseLsn) hfb).symm (hapart b hb f hf)
      · exact pinsPath_iff.mpr ⟨ev, hev, heq⟩
  · rcases hcases hf with rfl | hf
    · exact hbase ▸ h.distinct.used a (mem_known.mpr (.inl (hidx.mpr (.inl ha))))
    · exact h.distinct.used f (hold hf)
  · refine (hnew.pairwise_iff fun hne ↦ hne.symm).mpr (.cons (fun f hf ↦ ?_) hbases)
    exact hbase ▸ hapart a ha f hf

theorem Inv.compact (h : Inv s) (hstep : s.step search c (.compact nowMs fileSize) = some s') :
    Inv s' := by
  simp only [step] at hstep
  split at hstep
  · cases hstep
  · next start len hpick =>
    split at hstep
    · cases hstep
    · next merged hmrg =>
      split at hstep
      · cases hstep
      · next hpath => exact h.replace (Compactor.le_length_of_pick hpick) hmrg hpath hstep

/-- An entry is collected only when its file is in the manifest or not in the index any more. -/
def CollectsPersisted (s : BulkLoads ρ) : BulkAction ρ → Prop
  | .gc retainedLsn => ∀ ev ∈ s.wal.expired retainedLsn, ev.file ∈ s.index → ev.file ∈ s.manifest
  | _ => True

instance [DecidableEq ρ] (s : BulkLoads ρ) (a : BulkAction ρ) :
    Decidable (s.CollectsPersisted a) := by
  unfold CollectsPersisted
  split <;> infer_instance

theorem Inv.gc (h : Inv s) {retainedLsn : ℕ} (hok : s.CollectsPersisted (.gc retainedLsn))
    (hstep : s.step search c (.gc retainedLsn) = some s') : Inv s' := by
  cases hstep
  have hwal {ev : FileAddEvent ρ} (hev : ev ∈ s.wal.gcUpto retainedLsn) :
      ev ∈ s.wal ∧ retainedLsn < ev.lsn := by
    simpa [gcUpto] using hev
  have hexp {ev : FileAddEvent ρ} :
      ev ∈ s.wal.expired retainedLsn ↔ ev ∈ s.wal ∧ ev.lsn ≤ retainedLsn := by
    simp [expired]
  have hsub {f : SstFile ρ} (hf : f ∈ s.index ∨ ∃ ev ∈ s.wal.gcUpto retainedLsn, ev.file = f) :
      f ∈ s.known :=
    mem_known.mpr (hf.imp_right fun ⟨ev, hev, heq⟩ ↦ ⟨ev, (hwal hev).1, heq⟩)
  refine ⟨h.distinct.mono (fun f hf ↦ hsub (mem_known.mp hf)) (fun f hf ↦ ?_), h.bases,
    fun ev hev ↦ h.point ev (hwal hev).1, h.manifest, fun f hf ↦ ?_⟩
  · have hf := mem_known.mp hf
    rw [gcDisk, mem_filter]
    refine ⟨h.distinct.on_disk f (hsub hf), ?_⟩
    simp only [Bool.not_eq_true', any_eq_false, Bool.or_eq_true, beq_iff_eq, Bool.and_eq_true,
      reduceCtorEq, false_or, DiskFile.sst.injEq, not_and, Bool.not_eq_false]
    intro ev hev heq
    rcases hf with hf | ⟨ev', hev', rfl⟩
    · exact contains_iff_mem.mpr (heq ▸ mem_map_of_mem hf)
    · -- Two entries for the same path have the same LSN.
      obtain ⟨hev, _⟩ := hexp.mp hev
      obtain ⟨hev', _⟩ := hwal hev'
      have hfile := h.distinct.path _ (mem_known.mpr (.inr ⟨ev', hev', rfl⟩)) _
        (mem_known.mpr (.inr ⟨ev, hev, rfl⟩)) heq
      have hlsn : ev'.lsn = ev.lsn := by
        rw [(h.point ev' hev').2, (h.point ev hev).2, hfile]
      omega
  · rcases h.saved f hf with hf' | ⟨ev, hev, rfl⟩
    · exact .inl hf'
    · by_cases hlsn : ev.lsn ≤ retainedLsn
      · exact .inl (hok ev (hexp.mpr ⟨hev, hlsn⟩) hf)
      · refine .inr ⟨ev, ?_, rfl⟩
        simpa [gcUpto] using ⟨hev, not_le.mp hlsn⟩

/-- **Every step keeps the invariant.** -/
theorem Inv.step (h : Inv s) {a : BulkAction ρ} (hok : s.CollectsPersisted a)
    (hstep : s.step search c a = some s') : Inv s' := by
  cases a with
  | flush => exact h.flush hstep
  | bulkLoad => exact h.bulkLoad hstep
  | persist =>
    cases hstep
    exact ⟨h.distinct, h.bases, h.point, fun f hf ↦ hf, fun f hf ↦ .inl hf⟩
  | compact => exact h.compact hstep
  | gc => exact h.gc hok hstep

/-! ## The restart -/

/-- **The index after a restart** has the files of the index before and those the WAL still has. -/
theorem Inv.mem_restart (h : Inv s) : f ∈ s.restart search ↔ f ∈ s.known := by
  have hmem {f : SstFile ρ} : f ∈ fromPersisted s.manifest ↔ f ∈ s.manifest := mem_insertionSort _
  rw [restart, mem_recoverIntoIndex fun ev hev ↦
    h.distinct.on_disk _ (mem_known.mpr (.inr ⟨ev, hev, rfl⟩)), hmem, mem_known]
  constructor
  · rintro (hf | ⟨ev, hev, rfl, -⟩)
    · exact .inl (h.manifest f hf)
    · exact .inr ⟨ev, hev, rfl⟩
  · intro hf
    by_cases hman : f ∈ s.manifest
    · exact .inl hman
    · obtain ⟨ev, hev, rfl⟩ : ∃ ev ∈ s.wal, ev.file = f :=
        hf.elim (fun hf ↦ (h.saved f hf).resolve_left hman) id
      refine .inr ⟨ev, hev, rfl, fun hlive ↦ hman ?_⟩
      obtain ⟨g, hg, hpath⟩ := mem_map.mp hlive
      have hg := hmem.mp hg
      have heq := h.distinct.path g (mem_known.mpr (.inl (h.manifest g hg))) ev.file
        (mem_known.mpr (.inr ⟨ev, hev, rfl⟩)) hpath
      exact heq ▸ hg

variable [DecidableEq ρ]

/-- The files a restart brings back. -/
def resurrected (s : BulkLoads ρ) : List (SstFile ρ) :=
  (s.wal.map FileAddEvent.file).filter fun f ↦ f ∉ s.index

/-- For every timestamp of a file that comes back, the newest of those files is behind a file of the
index that has the timestamp, or has the row the index answers with. -/
def Shadowed (s : BulkLoads ρ) : Prop :=
  ∀ ts g, IsNewest s.resurrected ts g →
    (∃ f ∈ s.index, f.rowAt ts ≠ none ∧ g.lsnKey < f.lsnKey) ∨ g.rowAt ts = newestRow s.index ts

theorem mem_known_iff_resurrected : f ∈ s.known ↔ f ∈ s.index ∨ f ∈ s.resurrected := by
  rw [mem_known, resurrected, mem_filter, mem_map]
  by_cases hf : f ∈ s.index <;> simp [hf]

/-- **A restart keeps all answers exactly if the files it brings back are shadowed**, after every
history in which the WAL keeps its entries until their files are in the manifest. -/
theorem restart_keeps_rows_iff
    (h : Reaches (guarded CollectsPersisted (step search c)) (initial : BulkLoads ρ) s) :
    (∀ ts, newestRow (s.restart search) ts = newestRow s.index ts) ↔ s.Shadowed := by
  have hinv : Inv s := h.invariant inv_initial fun s a s' hs hstep ↦
    hs.step (guarded_eq_some.mp hstep).1 (guarded_eq_some.mp hstep).2
  have hmem {f : SstFile ρ} : f ∈ s.restart search ↔ f ∈ s.index ∨ f ∈ s.resurrected :=
    hinv.mem_restart.trans mem_known_iff_resurrected
  have hkeys : ∀ f ∈ s.restart search, ∀ g ∈ s.restart search, f.lsnKey = g.lsnKey → f = g :=
    fun f hf g hg ↦ hinv.distinct.key f (hinv.mem_restart.mp hf) g (hinv.mem_restart.mp hg)
  have hkeys' : ∀ f ∈ s.index, ∀ g ∈ s.index, f.lsnKey = g.lsnKey → f = g :=
    fun f hf g hg ↦ hkeys f (hmem.mpr (.inl hf)) g (hmem.mpr (.inl hg))
  constructor
  · intro hsame ts g hg
    by_cases hbeh : ∃ f ∈ s.index, f.rowAt ts ≠ none ∧ g.lsnKey < f.lsnKey
    · exact .inl hbeh
    · -- Nothing in the index is newer, so the file is the newest after the restart.
      have hnew : IsNewest (s.restart search) ts g := by
        refine ⟨hmem.mpr (.inr hg.mem), hg.holds, fun f hf hts ↦ ?_⟩
        rcases hmem.mp hf with hf | hf
        · exact not_lt.mp fun hlt ↦ hbeh ⟨f, hf, hts, hlt⟩
        · exact hg.le_key f hf hts
      exact .inr ((newestRow_of_isNewest hkeys hnew).symm.trans (hsame ts))
  · intro hshad ts
    cases hrow : newestRow (s.restart search) ts with
    | none =>
      have hnone := newestRow_eq_none_iff.mp hrow
      exact (newestRow_eq_none_iff.mpr fun f hf ↦ hnone f (hmem.mpr (.inl hf))).symm
    | some r =>
      obtain ⟨g, hg, hr⟩ := exists_isNewest hrow
      rcases hmem.mp hg.mem with hg' | hg'
      · have hnew : IsNewest s.index ts g :=
          ⟨hg', hg.holds, fun f hf ↦ hg.le_key f (hmem.mpr (.inl hf))⟩
        rw [newestRow_of_isNewest hkeys' hnew, hr]
      · have hnew : IsNewest s.resurrected ts g :=
          ⟨hg', hg.holds, fun f hf ↦ hg.le_key f (hmem.mpr (.inr hf))⟩
        rcases hshad ts g hnew with ⟨f, hf, hts, hlt⟩ | heq
        · exact absurd hlt (hg.le_key f (hmem.mpr (.inl hf)) hts).not_gt
        · rw [← heq, hr]

theorem shadowed_of_newer {g : SstFile ρ} (hres : s.resurrected = [g]) (hf : f ∈ s.index)
    (hkey : g.lsnKey < f.lsnKey) (hts : ∀ x ∈ g.rows, f.rowAt x.1 ≠ none) : s.Shadowed := by
  intro ts g' hg'
  obtain rfl : g' = g := mem_singleton.mp (hres ▸ hg'.mem)
  obtain ⟨_, hr⟩ := Option.ne_none_iff_exists'.mp hg'.holds
  exact .inl ⟨f, hf, hts _ (SortedRows.rowAt_eq_some_iff.mp hr), hkey⟩

/-- Files that all have timestamp `5`; the later they are written, the later they start. -/
def fileOf (lsn : Fin 5) : SstFile ℕ :=
  sampleFile lsn (lsn, lsn) (5, lsn) (Int.ofNat_lt.mpr lsn.isLt)

/-- The bulk load has the smallest LSN of the inputs, so the merged file is the newer one. -/
theorem restart_keeps_merged_rows :
    ∃ s,
      Reaches (guarded CollectsPersisted (step firstNotLess sizeTiered)) initial s ∧
      s.resurrected = [fileOf 1] ∧
      ∀ ts, newestRow (s.restart firstNotLess) ts = newestRow s.index ts := by
  have hrun : Reaches (guarded CollectsPersisted (step firstNotLess sizeTiered))
      initial _ := reaches_of_run
    [.bulkLoad (fileOf 1), .persist, .flush (fileOf 2), .compact 9 20] rfl
  exact ⟨_, hrun, rfl, (restart_keeps_rows_iff hrun).mpr
    (shadowed_of_newer rfl mem_cons_self (by decide +kernel) (by decide +kernel))⟩

/-- A bulk load between two flushes is merged with both of them. After the restart it is newer than
the merged file, and its row is returned in place of the one that was written last. -/
theorem restart_returns_overwritten_row :
    ∃ s,
      Reaches (guarded CollectsPersisted (step firstNotLess sizeTiered)) initial s ∧
      s.manifest = s.index ∧ newestRow s.index 5 = some 3 ∧
      newestRow (s.restart firstNotLess) 5 = some 2 := by
  have hrun : Reaches (guarded CollectsPersisted (step firstNotLess sizeTiered))
      initial _ := reaches_of_run
    [.flush (fileOf 1), .bulkLoad (fileOf 2), .persist, .flush (fileOf 3), .compact 9 20] rfl
  exact ⟨_, hrun, rfl, by decide +kernel, by decide +kernel⟩

end BulkLoads

end MonoTS
