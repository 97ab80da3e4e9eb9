import MonoTS.Stream.Dispatcher
import MonoTS.Wal.Collect

/-!
# The LSN allocator across restarts

One allocator hands out the LSNs of all tables. It has no file of its own: when the engine opens, it
starts at 1 and is moved above every LSN that the tables of the catalog still hold, in a WAL file,
in an entry of the BulkLoad WAL or in an SST of the manifest. The cursors of the streams are kept in
another log, and nothing compares the two.

So the allocator is above the cursors after a restart only if the largest acknowledged LSN is still
in some file. A write is in the WAL before it can be acknowledged, and a WAL file is dropped for an
SST that covers it, which carries the frontier along. Dropping a table does not: its files are
removed and the cursors stay. When the table held the largest LSNs, the next restart hands them out
again, and the dispatcher takes the rows that get them for rows it has sent.

The state of the engine is what decides about LSNs. A table is its files, the frames that the WAL
has accepted and not yet written, the bulk loads that are not yet recorded, and the index. What a
crash leaves are the files and the cursors.
-/

open Transition List
open Option hiding or_assoc

namespace MonoTS

open LsnRange

variable {ρ : Type*}

/-- The largest of a list of LSNs, 0 when there is none. -/
def frontier (lsns : List ℕ) : ℕ := lsns.foldr max 0

variable {l : ℕ}

theorem le_frontier {lsns : List ℕ} (h : l ∈ lsns) : l ≤ frontier lsns :=
  le_max_of_le h le_rfl

variable {n : ℕ}

theorem frontier_le {lsns : List ℕ} (h : ∀ l ∈ lsns, l ≤ n) : frontier lsns ≤ n :=
  max_le_of_forall_le _ _ h

theorem frontier_lt {lsns : List ℕ} (hpos : 0 < n) (h : ∀ l ∈ lsns, l < n) : frontier lsns < n := by
  have hle : frontier lsns ≤ n - 1 := frontier_le fun l hl ↦ Nat.le_sub_one_of_lt (h l hl)
  omega

/-! ## The allocator -/

/-- The allocator of all tables. -/
structure LsnAllocator where
  /-- The next LSN to hand out. -/
  next : ℕ

namespace LsnAllocator

def new : LsnAllocator := ⟨1⟩

/-- `fetch_add` on an `AtomicU64`. -/
def allocate (a : LsnAllocator) : ℕ × LsnAllocator := (a.next, ⟨(a.next + 1) % 2 ^ 64⟩)

def ensureAbove (a : LsnAllocator) (maxSeen : ℕ) : LsnAllocator :=
  if maxSeen = 0 then a else ⟨max a.next (saturatingAdd maxSeen 1)⟩

variable {a : LsnAllocator} {maxSeen : ℕ}

theorem next_le_ensureAbove : a.next ≤ (a.ensureAbove maxSeen).next := by
  unfold ensureAbove
  split_ifs
  · exact le_rfl
  · exact le_max_left _ _

theorem lt_next_ensureAbove (hpos : 0 < a.next) (h : maxSeen + 1 < 2 ^ 64) :
    maxSeen < (a.ensureAbove maxSeen).next := by
  unfold ensureAbove
  split_ifs with h0
  · exact h0.symm ▸ hpos
  · rw [saturatingAdd_of_lt h]
    exact lt_max_of_lt_right (Nat.lt_succ_self _)

theorem next_ensureAbove_le (ha : a.next ≤ n) (h : maxSeen < n) :
    (a.ensureAbove maxSeen).next ≤ n := by
  unfold ensureAbove
  split_ifs
  · exact ha
  · exact max_le ha ((min_le_left _ _).trans h)

theorem next_allocate (h : a.next + 1 < 2 ^ 64) : a.allocate.2.next = a.next + 1 :=
  Nat.mod_eq_of_lt h

/-- The allocator after the tables have been mounted one after the other, each with the largest LSN
it holds. -/
def aboveAll (maxSeen : List ℕ) : LsnAllocator := maxSeen.foldl ensureAbove new

theorem next_le_foldl (ms : List ℕ) (a : LsnAllocator) :
    a.next ≤ (ms.foldl ensureAbove a).next := by
  induction ms generalizing a with
  | nil => exact le_rfl
  | cons m ms ih => exact next_le_ensureAbove.trans (ih _)

theorem lt_next_foldl {ms : List ℕ} {a : LsnAllocator} (hpos : 0 < a.next)
    (hms : ∀ m ∈ ms, m + 1 < 2 ^ 64) : ∀ m ∈ ms, m < (ms.foldl ensureAbove a).next := by
  induction ms generalizing a with
  | nil => exact fun _ h ↦ absurd h not_mem_nil
  | cons m ms ih =>
    intro m' hm'
    rcases mem_cons.mp hm' with rfl | hm'
    · exact (lt_next_ensureAbove hpos (hms _ mem_cons_self)).trans_le (next_le_foldl ms _)
    · exact ih (hpos.trans_le next_le_ensureAbove) (fun x hx ↦ hms x (mem_cons_of_mem _ hx)) m' hm'

theorem next_foldl_le {ms : List ℕ} {a : LsnAllocator} (ha : a.next ≤ n)
    (hms : ∀ m ∈ ms, m < n) : (ms.foldl ensureAbove a).next ≤ n := by
  induction ms generalizing a with
  | nil => exact ha
  | cons m ms ih =>
    exact ih (next_ensureAbove_le ha (hms m mem_cons_self)) fun x hx ↦ hms x (mem_cons_of_mem _ hx)

end LsnAllocator

open LsnAllocator

/-! ## Tables -/

/-- The LSNs that the metadata of an SST carries. -/
def LsnRange.bounds (r : LsnRange) : List ℕ := [r.baseLsn, r.maxLsn]

variable {r : LsnRange}

theorem LsnRange.le_maxLsn (h : l ∈ r.bounds) : l ≤ r.maxLsn := by
  rcases mem_cons.mp h with rfl | h
  · exact r.le
  · exact (mem_singleton.mp h).le

theorem LsnRange.maxLsn_mem_bounds (r : LsnRange) : r.maxLsn ∈ r.bounds :=
  mem_cons_of_mem _ mem_cons_self

theorem LsnRange.maxLsn_new (a b : ℕ) : (new a b).maxLsn = max a b := by
  unfold new
  split_ifs with h
  · exact (max_eq_right h).symm
  · exact (max_eq_left (Nat.le_of_not_le h)).symm

/-- What a table has on disk. An SST is the range of its LSNs. -/
structure TableFiles where
  /-- The LSNs of the frames of each WAL file, the newest file last. -/
  wal : List (List ℕ)
  /-- The files recorded in the BulkLoad WAL; the LSN of an entry is the largest of its file. -/
  bulkWal : List LsnRange
  manifest : List LsnRange

namespace TableFiles

/-- The LSNs that mounting the table comes across. -/
def lsns (t : TableFiles) : List ℕ :=
  t.wal.flatten ++ (t.bulkWal ++ t.manifest).flatMap bounds

variable {t : TableFiles}

theorem mem_lsns :
    l ∈ t.lsns ↔ l ∈ t.wal.flatten ∨ ∃ r, (r ∈ t.bulkWal ∨ r ∈ t.manifest) ∧ l ∈ r.bounds := by
  rw [lsns, mem_append, mem_flatMap]
  simp only [mem_append]

theorem le_frontier_of_mem_manifest (hr : r ∈ t.manifest)
    (hl : l ≤ r.maxLsn) : l ≤ frontier t.lsns :=
  hl.trans (le_frontier (mem_lsns.mpr (.inr ⟨r, .inr hr, r.maxLsn_mem_bounds⟩)))

end TableFiles

open TableFiles

/-- The LSNs of a table. -/
structure LsnTable where
  files : TableFiles
  /-- The frames that the WAL has accepted and not yet written. -/
  accepted : List ℕ
  /-- The bulk loads that have an LSN and are not yet recorded. -/
  loading : List ℕ
  sstables : List LsnRange

namespace LsnTable

def empty : LsnTable := ⟨⟨[[]], [], []⟩, [], [], []⟩

variable (t : LsnTable)

/-- The table as it is mounted from its files: the index is that of the manifest, with the files of
the BulkLoad WAL that are not in it. -/
def mount : LsnTable where
  files := t.files
  accepted := []
  loading := []
  sstables := t.files.manifest ++ t.files.bulkWal.filter (· ∉ t.files.manifest)

variable (lsn : ℕ)

/-- A frame is handed to the WAL. -/
def append : LsnTable := { t with accepted := t.accepted ++ [lsn] }

/-- The WAL writer writes what it has accepted to the newest file. -/
def write : LsnTable :=
  { t with
    files := { t.files with
      wal := t.files.wal.dropLast ++ [t.files.wal.getLast?.getD [] ++ t.accepted] }
    accepted := [] }

/-- A new WAL file is opened. -/
def rotate : LsnTable :=
  { t with files := { t.files with wal := t.files.wal ++ [[]] } }

def insertSst (r : LsnRange) : LsnTable := { t with sstables := t.sstables ++ [r] }

/-- A bulk load gets its LSN. -/
def load : LsnTable := { t with loading := t.loading ++ [lsn] }

/-- A bulk load is recorded in its WAL, and its file enters the index. -/
def publish : LsnTable :=
  { t with
    files := { t.files with bulkWal := t.files.bulkWal ++ [.single lsn] }
    loading := t.loading.erase lsn
    sstables := t.sstables ++ [.single lsn] }

/-- A compaction replaces neighbours in the index by one file that spans their LSNs. -/
def replaceRange (start len : ℕ) : LsnTable :=
  let inputs := (t.sstables.drop start).take len
  let merged := new ((inputs.map baseLsn).min?.getD 0)
    (frontier (inputs.map maxLsn))
  { t with sstables := t.sstables.take start ++ merged :: t.sstables.drop (start + len) }

/-- The manifest is written from the index. -/
def setManifest : LsnTable :=
  { t with files := { t.files with manifest := t.sstables } }

variable (retained : ℕ → Bool)

/-- The sealed WAL files that stay and those that are dropped, by the index of the process. -/
def gc : List (List ℕ) × List (List ℕ) :=
  gcSealedWalFiles frontier (fun f ↦ !f.isEmpty) retained
    (t.sstables.map fun r ↦ (⟨r.baseLsn, r.maxLsn, []⟩ : Sst Unit)) [] t.files.wal

def gcSealed : LsnTable :=
  { t with files := { t.files with wal := (t.gc retained).1 } }

/-- The entries of the BulkLoad WAL that are not retained are removed. -/
def gcUpto : LsnTable :=
  { t with files := { t.files with bulkWal := t.files.bulkWal.filter (retained ·.maxLsn) } }

/-- Every LSN of the table is below `n`, and the index is as far as the manifest. -/
structure Below (t : LsnTable) (n : ℕ) : Prop where
  files : ∀ l ∈ t.files.lsns, l < n
  accepted : ∀ l ∈ t.accepted, l < n
  loading : ∀ l ∈ t.loading, l < n
  sstables : ∀ r ∈ t.sstables, r.maxLsn < n
  index : ∀ r ∈ t.files.manifest, ∃ r' ∈ t.sstables, r.maxLsn ≤ r'.maxLsn

/-! ### What each operation does to the LSNs -/

section

variable {t : LsnTable} {n : ℕ}

theorem Below.mono {n' : ℕ} (h : t.Below n) (hn : n ≤ n') : t.Below n' where
  files l hl := (h.files l hl).trans_le hn
  accepted l hl := (h.accepted l hl).trans_le hn
  loading l hl := (h.loading l hl).trans_le hn
  sstables r hr := (h.sstables r hr).trans_le hn
  index := h.index

theorem below_empty (n : ℕ) : empty.Below n where
  files l hl := by simp [empty, lsns] at hl
  accepted := nofun
  loading := nofun
  sstables := nofun
  index := nofun

theorem Below.mount (hfs : ∀ l ∈ t.files.lsns, l < n) : t.mount.Below n where
  files := hfs
  accepted := nofun
  loading := nofun
  sstables r hr := by
    rcases mem_append.mp hr with hr | hr
    · exact hfs _ (mem_lsns.mpr (.inr ⟨r, .inr hr, r.maxLsn_mem_bounds⟩))
    · have hr := (mem_filter.mp hr).1
      exact hfs _ (mem_lsns.mpr (.inr ⟨r, .inl hr, r.maxLsn_mem_bounds⟩))
  index r hr := ⟨r, mem_append_left _ hr, le_rfl⟩

theorem Below.append (h : t.Below n) : (t.append n).Below (n + 1) :=
  { h.mono n.le_succ with
    accepted := forall_mem_append.mpr
      ⟨(h.mono n.le_succ).accepted, forall_mem_singleton.mpr n.lt_succ_self⟩ }

theorem Below.load (h : t.Below n) : (t.load n).Below (n + 1) :=
  { h.mono n.le_succ with
    loading := forall_mem_append.mpr
      ⟨(h.mono n.le_succ).loading, forall_mem_singleton.mpr n.lt_succ_self⟩ }

theorem mem_flatten_write :
    l ∈ t.write.files.wal.flatten ↔ l ∈ t.files.wal.flatten ∨ l ∈ t.accepted := by
  rcases eq_nil_or_concat t.files.wal with hwal | ⟨_, _, hwal⟩
  · simp [write, hwal]
  · simp [write, hwal, or_assoc]

theorem mem_lsns_write : l ∈ t.write.files.lsns ↔ l ∈ t.files.lsns ∨ l ∈ t.accepted := by
  rw [mem_lsns, mem_flatten_write, mem_lsns]
  exact or_right_comm

theorem Below.write (h : t.Below n) : t.write.Below n :=
  { h with
    files := fun l hl ↦ (mem_lsns_write.mp hl).elim (h.files l) (h.accepted l)
    accepted := nofun }

theorem lsns_rotate : t.rotate.files.lsns = t.files.lsns := by
  simp [rotate, lsns]

theorem Below.rotate (h : t.Below n) : t.rotate.Below n :=
  { h with files := fun l hl ↦ h.files l (lsns_rotate ▸ hl) }

theorem Below.insertSst (h : t.Below n) (hr : r.maxLsn < n) : (t.insertSst r).Below n :=
  { h with
    sstables := forall_mem_append.mpr ⟨h.sstables, forall_mem_singleton.mpr hr⟩
    index := fun r' hr' ↦ by
      obtain ⟨r'', hr'', hle⟩ := h.index r' hr'
      exact ⟨r'', mem_append_left _ hr'', hle⟩ }

theorem mem_lsns_publish {lsn l : ℕ} :
    l ∈ (t.publish lsn).files.lsns ↔ l ∈ t.files.lsns ∨ l = lsn := by
  simp only [mem_lsns, publish, mem_append, mem_singleton]
  constructor
  · rintro (hl | ⟨r, (hr | rfl) | hr, hl⟩)
    · exact .inl (.inl hl)
    · exact .inl (.inr ⟨r, .inl hr, hl⟩)
    · exact .inr (by simpa [bounds, single] using hl)
    · exact .inl (.inr ⟨r, .inr hr, hl⟩)
  · rintro ((hl | ⟨r, hr, hl⟩) | rfl)
    · exact .inl hl
    · exact .inr ⟨r, hr.imp_left .inl, hl⟩
    · exact .inr ⟨.single l, .inl (.inr rfl), (single l).maxLsn_mem_bounds⟩

theorem Below.publish {lsn : ℕ} (h : t.Below n) (hl : lsn ∈ t.loading) :
    (t.publish lsn).Below n := by
  have hlt := h.loading lsn hl
  have hins := h.insertSst (r := .single lsn) hlt
  refine { hins with files := fun l hl ↦ ?_, loading := fun l hl ↦ ?_ }
  · rcases mem_lsns_publish.mp hl with hl | rfl
    · exact h.files l hl
    · exact hlt
  · exact h.loading l (mem_of_mem_erase hl)

theorem Below.setManifest (h : t.Below n) : t.setManifest.Below n :=
  { h with
    files := fun l hl ↦ by
      rcases mem_lsns.mp hl with hl | ⟨r, hr | hr, hl⟩
      · exact h.files l (mem_lsns.mpr (.inl hl))
      · exact h.files l (mem_lsns.mpr (.inr ⟨r, .inl hr, hl⟩))
      · exact (le_maxLsn hl).trans_lt (h.sstables r hr)
    index := fun r hr ↦ ⟨r, hr, le_rfl⟩ }

/-- Writing the manifest keeps the frontier, since the index is as far as the manifest was. -/
theorem frontier_le_setManifest (h : t.Below n) :
    frontier t.files.lsns ≤ frontier t.setManifest.files.lsns := by
  refine frontier_le fun l hl ↦ ?_
  rcases mem_lsns.mp hl with hl | ⟨r, hr | hr, hl⟩
  · exact le_frontier (mem_lsns.mpr (.inl hl))
  · exact le_frontier (mem_lsns.mpr (.inr ⟨r, .inl hr, hl⟩))
  · -- the old manifest is overwritten
    obtain ⟨_, hr', hle⟩ := h.index r hr
    exact le_frontier_of_mem_manifest hr' ((le_maxLsn hl).trans hle)

/-- The ranges of an index are in front of the merged files, among them, or behind. -/
theorem mem_sstables_cases (start len : ℕ) (h : r ∈ t.sstables) :
    r ∈ t.sstables.take start ∨ r ∈ (t.sstables.drop start).take len ∨
      r ∈ t.sstables.drop (start + len) := by
  rw [← take_append_drop start t.sstables, mem_append] at h
  refine h.imp_right fun h ↦ ?_
  rw [← take_append_drop len (t.sstables.drop start), mem_append, drop_drop] at h
  exact h

/-- The merged file is as far as each of its inputs, and no further than what is below `n`. -/
theorem replaceRange_merged (start len : ℕ) (h : t.Below n) (hn : 0 < n) :
    let inputs := (t.sstables.drop start).take len
    let merged := new ((inputs.map baseLsn).min?.getD 0)
      (frontier (inputs.map maxLsn))
    merged.maxLsn < n ∧ ∀ r ∈ inputs, r.maxLsn ≤ merged.maxLsn := by
  intro inputs merged
  have hlt : ∀ r ∈ inputs, r.maxLsn < n := fun r hr ↦
    h.sstables r (mem_of_mem_drop (mem_of_mem_take hr))
  have hmax : frontier (inputs.map maxLsn) < n := by
    refine frontier_lt hn fun l hl ↦ ?_
    obtain ⟨r, hr, rfl⟩ := mem_map.mp hl
    exact hlt r hr
  -- `LsnRange::new` swaps bounds that are the wrong way round, so the lower one counts too
  have hbase : (inputs.map baseLsn).min?.getD 0 < n := by
    rcases hmin : (inputs.map baseLsn).min? with _ | b
    · exact hn
    · obtain ⟨r, hr, rfl⟩ := mem_map.mp (min?_mem hmin)
      exact r.le.trans_lt (hlt r hr)
  have hnew := maxLsn_new ((inputs.map baseLsn).min?.getD 0) (frontier (inputs.map maxLsn))
  refine ⟨hnew ▸ max_lt hbase hmax, fun r hr ↦ hnew ▸ le_max_of_le_right ?_⟩
  exact le_frontier (mem_map.mpr ⟨r, hr, rfl⟩)

theorem Below.replaceRange {start len : ℕ} (h : t.Below n) (hn : 0 < n) :
    (t.replaceRange start len).Below n := by
  obtain ⟨hlt, hin⟩ := replaceRange_merged start len h hn
  refine { h with sstables := fun r hr ↦ ?_, index := fun r hr ↦ ?_ }
  · rcases mem_append.mp hr with hr | hr
    · exact h.sstables r (mem_of_mem_take hr)
    · rcases mem_cons.mp hr with rfl | hr
      · exact hlt
      · exact h.sstables r (mem_of_mem_drop hr)
  · obtain ⟨r', hr', hle⟩ := h.index r hr
    rcases mem_sstables_cases start len hr' with hr' | hr' | hr'
    · exact ⟨r', mem_append_left _ hr', hle⟩
    · exact ⟨_, mem_append_right _ mem_cons_self, hle.trans (hin r' hr')⟩
    · exact ⟨r', mem_append_right _ (mem_cons_of_mem _ hr'), hle⟩

/-! ### Collections -/

variable {retained : ℕ → Bool}

theorem Below.of_files (h : t.Below n) {files : TableFiles} (hm : files.manifest = t.files.manifest)
    (hsub : ∀ l ∈ files.lsns, l ∈ t.files.lsns) : Below { t with files } n :=
  { h with
    files := fun l hl ↦ h.files l (hsub l hl)
    index := fun r hr ↦ h.index r (hm ▸ hr) }

theorem mem_of_mem_gc {file : List ℕ} (h : file ∈ (t.gc retained).1) : file ∈ t.files.wal :=
  (mem_of_mem_gcSealedWalFiles h).resolve_left not_mem_nil

theorem Below.gcSealed (h : t.Below n) : (t.gcSealed retained).Below n := by
  refine h.of_files rfl fun l hl ↦ mem_lsns.mpr ?_
  refine (mem_lsns.mp hl).imp_left fun hl ↦ ?_
  obtain ⟨file, hfile, hl⟩ := mem_flatten.mp hl
  exact mem_flatten.mpr ⟨file, mem_of_mem_gc hfile, hl⟩

/-- Dropping WAL files keeps the frontier when the manifest is as far as they are. -/
theorem frontier_le_gcSealed
    (hcov : ∀ file ∈ (t.gc retained).2, ∀ l ∈ file, ∃ r ∈ t.files.manifest, l ≤ r.maxLsn) :
    frontier t.files.lsns ≤ frontier (t.gcSealed retained).files.lsns := by
  refine frontier_le fun l hl ↦ ?_
  rcases mem_lsns.mp hl with hl | hl
  · obtain ⟨file, hfile, hl⟩ := mem_flatten.mp hl
    have hgc : file ∈ (t.gc retained).1 ∨ file ∈ (t.gc retained).2 :=
      mem_gcSealedWalFiles (.inr hfile)
    rcases hgc with hkept | hdrop
    · exact le_frontier (mem_lsns.mpr (.inl (mem_flatten.mpr ⟨file, hkept, hl⟩)))
    · obtain ⟨_, hr, hle⟩ := hcov file hdrop l hl
      exact le_frontier_of_mem_manifest hr hle
  · exact le_frontier (mem_lsns.mpr (.inr hl))

theorem Below.gcUpto (h : t.Below n) : (t.gcUpto retained).Below n := by
  refine h.of_files rfl fun l hl ↦ mem_lsns.mpr ?_
  refine (mem_lsns.mp hl).imp_right fun ⟨r, hr, hl⟩ ↦ ⟨r, ?_, hl⟩
  exact hr.imp_left fun hr ↦ (mem_filter.mp hr).1

/-- Dropping entries of the BulkLoad WAL keeps the frontier when the manifest is as far as they
are. -/
theorem frontier_le_gcUpto (hcov : ∀ r ∈ t.files.bulkWal, retained r.maxLsn = false →
      ∃ r' ∈ t.files.manifest, r.maxLsn ≤ r'.maxLsn) :
    frontier t.files.lsns ≤ frontier (t.gcUpto retained).files.lsns := by
  refine frontier_le fun l hl ↦ ?_
  rcases mem_lsns.mp hl with hl | ⟨r, hr | hr, hl⟩
  · exact le_frontier (mem_lsns.mpr (.inl hl))
  · by_cases hret : retained r.maxLsn = true
    · exact le_frontier (mem_lsns.mpr (.inr ⟨r, .inl (mem_filter.mpr ⟨hr, hret⟩), hl⟩))
    · obtain ⟨_, hr', hle⟩ := hcov r hr (Bool.eq_false_iff.mpr hret)
      exact le_frontier_of_mem_manifest hr' ((le_maxLsn hl).trans hle)
  · exact le_frontier_of_mem_manifest hr (le_maxLsn hl)

end

end LsnTable

open LsnTable

/-! ## The engine -/

/-- What the commit WAL keeps of a stream on a table. -/
structure StreamCursor where
  stream : String
  table : String
  ackedLsn : ℕ

/-- The engine, as far as LSNs go. -/
structure LsnEngine where
  running : Bool
  lsn : LsnAllocator
  tables : List (String × LsnTable)
  progress : List StreamCursor

/-- A step of the engine. -/
inductive LsnAction where
  | create (table : String)
  | drop (table : String)
  | put (table : String)
  | write (table : String)
  | rotate (table : String)
  | flush (table : String) (sst : LsnRange)
  | bulkLoad (table : String)
  | publish (table : String) (lsn : ℕ)
  | compact (table : String) (start len : ℕ)
  | setManifest (table : String)
  | gcSealedWal (table : String)
  | gcPinnedFiles (table : String)
  | register (stream table : String)
  | commit (stream table : String) (lsn : ℕ)
  | remove (stream table : String)
  | crash
  | loseCommit (stream table : String) (lsn : ℕ)
  | openEngine

namespace LsnEngine

def initial : LsnEngine := ⟨true, .new, [], []⟩

variable (s : LsnEngine)

def table? (name : String) : Option LsnTable := (s.tables.find? (·.1 = name)).map Prod.snd

def modify (name : String) (f : LsnTable → LsnTable) : LsnEngine :=
  { s with tables := s.tables.map fun e ↦ if e.1 = name then (e.1, f e.2) else e }

def updateCursor (stream name : String) (f : ℕ → ℕ) : LsnEngine :=
  { s with
    progress := s.progress.map fun p ↦
      if p.stream = stream ∧ p.table = name then { p with ackedLsn := f p.ackedLsn } else p }

/-- Some cursor, on whichever table, has not passed the LSN: `can_gc_lsn` fails. -/
def retained (lsn : ℕ) : Bool := s.progress.any fun p ↦ p.ackedLsn < lsn

/-- Mount the tables of the catalog; each moves the allocator above what it holds. -/
def openEngine : LsnEngine where
  running := true
  lsn := .aboveAll (s.tables.map fun e ↦ frontier e.2.files.lsns)
  tables := s.tables.map fun e ↦ (e.1, e.2.mount)
  progress := s.progress

/-- What the running engine can do. -/
def act : LsnAction → Option LsnEngine
  | .create name =>
    if (s.table? name).isSome then none
    else some { s with tables := s.tables ++ [(name, .empty)] }
  -- The directory goes with everything in it; the commit WAL is not touched.
  | .drop name => some { s with tables := s.tables.filter (·.1 ≠ name) }
  | .put name => (s.table? name).map fun _ ↦
    { s.modify name (·.append s.lsn.allocate.1) with lsn := s.lsn.allocate.2 }
  | .write name => some (s.modify name write)
  | .rotate name => some (s.modify name rotate)
  | .flush name sst =>
    if sst.maxLsn < s.lsn.next then some (s.modify name (·.insertSst sst)) else none
  | .bulkLoad name => (s.table? name).map fun _ ↦
    { s.modify name (·.load s.lsn.allocate.1) with lsn := s.lsn.allocate.2 }
  | .publish name lsn =>
    if ∀ e ∈ s.tables, e.1 = name → lsn ∈ e.2.loading then some (s.modify name (·.publish lsn))
    else none
  | .compact name start len => some (s.modify name (·.replaceRange start len))
  | .setManifest name => some (s.modify name setManifest)
  | .gcSealedWal name => some (s.modify name (·.gcSealed s.retained))
  | .gcPinnedFiles name => some (s.modify name (·.gcUpto s.retained))
  | .register stream name =>
    if s.progress.any fun p ↦ p.stream = stream ∧ p.table = name then some s
    else some { s with progress := s.progress ++ [⟨stream, name, 0⟩] }
  -- An LSN that is acknowledged has been handed out.
  | .commit stream name lsn =>
    if lsn < s.lsn.next then some (s.updateCursor stream name (max lsn)) else none
  | .remove stream name =>
    some { s with progress := s.progress.filter fun p ↦ ¬ (p.stream = stream ∧ p.table = name) }
  | .crash => some { s with running := false }
  | .loseCommit _ _ _ | .openEngine => none

/-- The commit WAL is not synced at every commit, so that a crash can take a cursor back. -/
def step : LsnAction → Option LsnEngine
  | .openEngine => if s.running then none else some s.openEngine
  | .loseCommit stream name lsn =>
    if s.running then none else some (s.updateCursor stream name (min lsn))
  | a => if s.running then s.act a else none

/-- The LSNs in the files of the tables. -/
def lsns : List ℕ := s.tables.flatMap fun e ↦ e.2.files.lsns

/-- The steps that keep the largest acknowledged LSN in some file. -/
def KeepsCursors : LsnAction → Prop
  | .drop name => ∀ p ∈ s.progress,
    p.ackedLsn ≤ frontier ((s.tables.filter (·.1 ≠ name)).flatMap fun e ↦ e.2.files.lsns)
  | .gcSealedWal name => ∀ e ∈ s.tables, e.1 = name →
    ∀ file ∈ (e.2.gc s.retained).2, ∀ l ∈ file, ∃ r ∈ e.2.files.manifest, l ≤ r.maxLsn
  | .gcPinnedFiles name => ∀ e ∈ s.tables, e.1 = name →
    ∀ r ∈ e.2.files.bulkWal, s.retained r.maxLsn = false →
      ∃ r' ∈ e.2.files.manifest, r.maxLsn ≤ r'.maxLsn
  | .commit _ _ lsn => lsn ≤ frontier s.lsns
  | .put _ | .bulkLoad _ => s.lsn.next + 1 < 2 ^ 64
  | _ => True

instance (a : LsnAction) : Decidable (s.KeepsCursors a) := by
  unfold KeepsCursors
  split <;> infer_instance

/-! ## Every run -/

/-- No LSN of the engine is at or above the next one, and no cursor is past every file. -/
structure Inv : Prop where
  below : ∀ e ∈ s.tables, e.2.Below s.lsn.next
  acked : ∀ p ∈ s.progress, p.ackedLsn ≤ frontier s.lsns
  pos : 0 < s.lsn.next
  lt : s.lsn.next < 2 ^ 64

variable {s}

theorem mem_lsns : l ∈ s.lsns ↔ ∃ e ∈ s.tables, l ∈ e.2.files.lsns := mem_flatMap

theorem frontier_le_lsns {e : String × LsnTable} (he : e ∈ s.tables) :
    frontier e.2.files.lsns ≤ frontier s.lsns :=
  frontier_le fun _ hl ↦ le_frontier (mem_lsns.mpr ⟨e, he, hl⟩)

theorem Inv.lsns_lt (h : s.Inv) : ∀ l ∈ s.lsns, l < s.lsn.next := by
  intro l hl
  obtain ⟨e, he, hl⟩ := mem_lsns.mp hl
  exact (h.below e he).files l hl

theorem Inv.frontier_lt (h : s.Inv) : frontier s.lsns < s.lsn.next :=
  MonoTS.frontier_lt h.pos h.lsns_lt

variable {name : String} {f : LsnTable → LsnTable}

theorem frontier_le_modify
    (hf : ∀ e ∈ s.tables, e.1 = name → frontier e.2.files.lsns ≤ frontier (f e.2).files.lsns) :
    frontier s.lsns ≤ frontier (s.modify name f).lsns := by
  refine frontier_le fun l hl ↦ ?_
  obtain ⟨e, he, hl⟩ := mem_lsns.mp hl
  have hmem := mem_map_of_mem
    (f := fun e : String × LsnTable ↦ if e.1 = name then (e.1, f e.2) else e) he
  refine le_trans ?_ (frontier_le_lsns (s := s.modify name f) hmem)
  by_cases hname : e.1 = name
  · rw [if_pos hname]
    exact (le_frontier hl).trans (hf e he hname)
  · rw [if_neg hname]
    exact le_frontier hl

section

variable (h : s.Inv)

include h

theorem Inv.modify {next : ℕ} (hnext : s.lsn.next ≤ next) (hlt : next < 2 ^ 64)
    (hbelow : ∀ e ∈ s.tables, e.1 = name → (f e.2).Below next)
    (hf : ∀ e ∈ s.tables, e.1 = name → frontier e.2.files.lsns ≤ frontier (f e.2).files.lsns) :
    Inv { s.modify name f with lsn := ⟨next⟩ } where
  below e' he' := by
    obtain ⟨e, he, rfl⟩ := mem_map.mp he'
    by_cases hname : e.1 = name
    · rw [if_pos hname]
      exact hbelow e he hname
    · rw [if_neg hname]
      exact (h.below e he).mono hnext
  acked p hp := (h.acked p hp).trans (frontier_le_modify hf)
  pos := h.pos.trans_le hnext
  lt := hlt

theorem Inv.modify_same (hbelow : ∀ e ∈ s.tables, e.1 = name → (f e.2).Below s.lsn.next)
    (hf : ∀ e ∈ s.tables, e.1 = name → frontier e.2.files.lsns ≤ frontier (f e.2).files.lsns) :
    (s.modify name f).Inv :=
  h.modify le_rfl h.lt hbelow hf

theorem Inv.modify_allocate (hlt : s.lsn.next + 1 < 2 ^ 64)
    (hbelow : ∀ t : LsnTable, t.Below s.lsn.next → (f t).Below (s.lsn.next + 1))
    (hfs : ∀ t, (f t).files = t.files) : Inv { s.modify name f with lsn := s.lsn.allocate.2 } := by
  have hnext : s.lsn.allocate.2 = ⟨s.lsn.next + 1⟩ := congrArg LsnAllocator.mk (next_allocate hlt)
  rw [hnext]
  refine h.modify (Nat.le_succ _) hlt (fun e he _ ↦ hbelow _ (h.below e he)) fun e _ _ ↦ ?_
  rw [hfs]

theorem Inv.updateCursor {stream : String} {f : ℕ → ℕ}
    (hf : ∀ p ∈ s.progress, f p.ackedLsn ≤ frontier s.lsns) : (s.updateCursor stream name f).Inv :=
  { h with
    acked := fun p' hp' ↦ by
      obtain ⟨p, hp, rfl⟩ := mem_map.mp hp'
      by_cases hid : p.stream = stream ∧ p.table = name
      · rw [if_pos hid]
        exact hf p hp
      · rw [if_neg hid]
        exact h.acked p hp }

/-- **Opening the engine puts the allocator above the files**, and with it above the cursors that
are in reach of a file. -/
theorem Inv.openEngine : s.openEngine.Inv := by
  have hfrt : ∀ m ∈ s.tables.map fun e ↦ frontier e.2.files.lsns, m < s.lsn.next := by
    intro m hm
    obtain ⟨e, he, rfl⟩ := mem_map.mp hm
    exact (frontier_le_lsns he).trans_lt h.frontier_lt
  have habove := lt_next_foldl (a := .new) Nat.one_pos
    fun m hm ↦ Nat.lt_of_le_of_lt (hfrt m hm) h.lt
  have hmount : s.openEngine.lsns = s.lsns := flatMap_map ..
  refine ⟨fun e' he' ↦ ?_, fun p hp ↦ ?_, ?_, ?_⟩
  · obtain ⟨_, he, rfl⟩ := mem_map.mp he'
    refine .mount fun l hl ↦ (le_frontier hl).trans_lt ?_
    exact habove _ (mem_map_of_mem he)
  · rw [hmount]
    exact h.acked p hp
  · exact Nat.one_pos.trans_le (next_le_foldl _ _)
  · exact (next_foldl_le h.pos hfrt).trans_lt h.lt

theorem Inv.drop (hok : s.KeepsCursors (.drop name)) :
    Inv { s with tables := s.tables.filter (·.1 ≠ name) } :=
  { h with
    below := fun e he ↦ h.below e (mem_filter.mp he).1
    acked := hok }

theorem Inv.create : Inv { s with tables := s.tables ++ [(name, .empty)] } :=
  { h with
    below := forall_mem_append.mpr ⟨h.below, forall_mem_singleton.mpr (below_empty _)⟩
    acked := fun p hp ↦ (h.acked p hp).trans <| frontier_le fun l hl ↦ by
      obtain ⟨e, he, hl⟩ := mem_lsns.mp hl
      exact le_frontier (mem_lsns.mpr ⟨e, mem_append_left _ he, hl⟩) }

end

theorem Inv.act {a : LsnAction} {s' : LsnEngine} (h : s.Inv) (hok : s.KeepsCursors a)
    (hstep : s.act a = some s') : s'.Inv := by
  cases a with
  | create =>
    obtain ⟨-, hstep⟩ := ite_none_left_eq_some.mp hstep
    exact some.inj hstep ▸ h.create
  | drop => exact some.inj hstep ▸ h.drop hok
  | put =>
    obtain ⟨t, -, rfl⟩ := map_eq_some_iff.mp hstep
    exact h.modify_allocate hok (fun _ ↦ Below.append) fun _ ↦ rfl
  | write =>
    cases hstep
    refine h.modify_same (fun e he _ ↦ (h.below e he).write) fun e _ _ ↦ ?_
    exact frontier_le fun l hl ↦ le_frontier (mem_lsns_write.mpr (.inl hl))
  | rotate =>
    cases hstep
    refine h.modify_same (fun e he _ ↦ (h.below e he).rotate) fun e _ _ ↦ ?_
    rw [lsns_rotate]
  | flush =>
    obtain ⟨hlt, rfl⟩ := ite_some_none_eq_some.mp hstep
    exact h.modify_same (fun e he _ ↦ (h.below e he).insertSst hlt) fun _ _ _ ↦ le_rfl
  | bulkLoad =>
    obtain ⟨_, -, rfl⟩ := map_eq_some_iff.mp hstep
    exact h.modify_allocate hok (fun _ ↦ Below.load) fun _ ↦ rfl
  | publish =>
    obtain ⟨hload, rfl⟩ := ite_some_none_eq_some.mp hstep
    refine h.modify_same (fun e he hn ↦ (h.below e he).publish (hload e he hn)) fun e _ _ ↦ ?_
    exact frontier_le fun l hl ↦ le_frontier (mem_lsns_publish.mpr (.inl hl))
  | compact =>
    cases hstep
    exact h.modify_same (fun e he _ ↦ (h.below e he).replaceRange h.pos) fun _ _ _ ↦ le_rfl
  | setManifest =>
    cases hstep
    exact h.modify_same (fun e he _ ↦ (h.below e he).setManifest)
      fun e he _ ↦ frontier_le_setManifest (h.below e he)
  | gcSealedWal =>
    cases hstep
    exact h.modify_same (fun e he _ ↦ (h.below e he).gcSealed)
      fun e he hn ↦ frontier_le_gcSealed (hok e he hn)
  | gcPinnedFiles =>
    cases hstep
    exact h.modify_same (fun e he _ ↦ (h.below e he).gcUpto)
      fun e he hn ↦ frontier_le_gcUpto (hok e he hn)
  | register =>
    rw [LsnEngine.act] at hstep
    split_ifs at hstep
    · exact some.inj hstep ▸ h
    · cases hstep
      exact { h with
        acked := forall_mem_append.mpr ⟨h.acked, forall_mem_singleton.mpr (Nat.zero_le _)⟩ }
  | commit =>
    obtain ⟨-, hstep⟩ := ite_none_right_eq_some.mp hstep
    exact some.inj hstep ▸ h.updateCursor fun p hp ↦ max_le hok (h.acked p hp)
  | remove =>
    cases hstep
    exact { h with acked := fun p hp ↦ h.acked p (mem_filter.mp hp).1 }
  | crash => exact some.inj hstep ▸ { h with }
  | loseCommit | openEngine => cases hstep

theorem Inv.step {a : LsnAction} {s' : LsnEngine} (h : s.Inv) (hok : s.KeepsCursors a)
    (hstep : s.step a = some s') : s'.Inv := by
  rw [LsnEngine.step.eq_def] at hstep
  split at hstep
  · obtain ⟨-, hstep⟩ := ite_none_left_eq_some.mp hstep
    exact some.inj hstep ▸ h.openEngine
  · obtain ⟨-, hstep⟩ := ite_none_left_eq_some.mp hstep
    exact some.inj hstep ▸ h.updateCursor fun p hp ↦ min_le_of_right_le (h.acked p hp)
  · obtain ⟨-, hstep⟩ := ite_none_right_eq_some.mp hstep
    exact h.act hok hstep

theorem inv_initial : initial.Inv := ⟨nofun, nofun, Nat.one_pos, by decide⟩

theorem inv_of_reaches (h : Reaches (guarded KeepsCursors step) initial s) : s.Inv :=
  h.invariant_guarded (I := Inv) inv_initial fun _ _ _ hs ↦ hs.step

/-- Rows past the recovered cursor are sent. -/
theorem data_mem_dispatch {d : StreamDispatcher} {event : DataEvent}
    (hw : event.isWatermark = false) (h : d.cursor < event.maxLsn) :
    PipelineEvent.data event ∈ (d.dispatch event).2 := by
  cases event with
  | insert =>
    rw [d.dispatch_insert_fresh h]
    exact mem_cons_self
  | flushFile =>
    rw [d.dispatch_file_fresh h]
    exact mem_cons_self
  | watermark => cases hw

/-- **LSNs do not restart below a cursor while the files keep up with the cursors.** In every run in
which no step takes the largest acknowledged LSN out of the files, the running engine's next LSN is
above every cursor and above every LSN in a file, and the dispatcher sends every row that gets an
LSN from then on. -/
theorem next_above_cursors (h : Reaches (guarded KeepsCursors step) initial s) :
    (∀ p ∈ s.progress, p.ackedLsn < s.lsn.next) ∧
      (∀ e ∈ s.tables, ∀ l ∈ e.2.files.lsns, l < s.lsn.next) ∧
      ∀ p ∈ s.progress, ∀ event : DataEvent, event.isWatermark = false →
        s.lsn.next ≤ event.maxLsn →
        PipelineEvent.data event
          ∈ ((StreamDispatcher.new p.table p.ackedLsn).dispatch event).2 := by
  have hinv := inv_of_reaches h
  have hack : ∀ p ∈ s.progress, p.ackedLsn < s.lsn.next := fun p hp ↦
    (hinv.acked p hp).trans_lt hinv.frontier_lt
  refine ⟨hack, fun e he ↦ (hinv.below e he).files, fun p hp event hw hnext ↦ ?_⟩
  exact data_mem_dispatch hw ((hack p hp).trans_le hnext)

/-- A restart after the WAL file of an acknowledged row has been collected for its SST. -/
theorem next_above_cursor_after_gc : ∃ s : LsnEngine, s.progress = [⟨"s", "t", 1⟩] ∧
    s.tables = [("t", ⟨⟨[[]], [], [.single 1]⟩, [], [], [.single 1]⟩)] ∧ s.lsn.next = 2 ∧
    ∀ p ∈ s.progress, p.ackedLsn < s.lsn.next := by
  have hrun : Reaches (guarded KeepsCursors step) initial _ :=
    reaches_of_run [.create "t", .register "s" "t", .put "t", .write "t", .commit "s" "t" 1,
      .rotate "t", .flush "t" (.single 1), .setManifest "t", .gcSealedWal "t", .crash,
      .openEngine] rfl
  exact ⟨_, rfl, rfl, rfl, (next_above_cursors hrun).1⟩

/-- A table with an acknowledged row is dropped and created again. After a restart the allocator
starts at 1, and the dispatcher drops the first row of the new table. -/
theorem lsn_restarts_below_cursor : ∃ s, Reaches step initial s ∧ s.running = true ∧
    (∃ p ∈ s.progress, p = ⟨"s", "t", 1⟩ ∧ s.lsn.next ≤ p.ackedLsn) ∧
    ∀ arrow,
      ((StreamDispatcher.new "t" 1).dispatch (.insert (.single s.lsn.next) arrow)).2 = [] := by
  have hrun : Reaches step initial _ :=
    reaches_of_run [.create "t", .register "s" "t", .put "t", .write "t", .commit "s" "t" 1,
      .drop "t", .create "t", .crash, .openEngine] rfl
  exact ⟨_, hrun, rfl, ⟨_, mem_cons_self, rfl, le_rfl⟩, fun _ ↦ rfl⟩

end LsnEngine

end MonoTS
