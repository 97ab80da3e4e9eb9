import MonoTS.Compaction.FileIndex
import MonoTS.Lib.Transition

/-!
# Picking the run to compact

A compaction merges a run of neighbouring files of the index. Three strategies choose a candidate by
sizes, counts or overlapping time ranges; whatever they choose, the run is cut down until the LSN
spans of its files leave no hole. Files without LSN bounds count for no span here, although the
merged file will claim their LSN `0` as its base.
-/

open List Transition

namespace MonoTS

/-- How a run is picked. -/
inductive CompactionStrategy where
  | sizeTiered
  | fileCount
  | overlap

/-- `files[start..start + len]` -/
def runOf {α : Type*} (files : List α) (start len : ℕ) : List α := (files.drop start).take len

variable {α : Type*}

theorem split_run (files : List α) (start len : ℕ) :
    files = files.take start ++ (runOf files start len ++ files.drop (start + len)) := by
  rw [runOf, ← drop_drop, take_append_drop, take_append_drop]

theorem perm_run (files : List α) (start len : ℕ) :
    files.Perm (runOf files start len ++ (files.take start ++ files.drop (start + len))) := by
  nth_rewrite 1 [split_run files start len]
  exact perm_append_comm_assoc _ _ _

/-- A symmetric relation between any two files holds between the run and the other files. -/
theorem run_apart {R : α → α → Prop} (hsymm : ∀ {a b}, R a b → R b a) {files : List α}
    {start len : ℕ} (h : files.Pairwise R) {a o : α} (ha : a ∈ runOf files start len)
    (ho : o ∈ files.take start ++ files.drop (start + len)) : R a o :=
  (pairwise_append.mp (((perm_run files start len).pairwise_iff hsymm).mp h)).2.2 a ha o ho

/-! ## Runs without LSN holes -/

/-- The loop of `lsn_spans_contiguous`: every span starts at most one above the end so far. -/
def contiguousFrom (last : ℕ) : List (ℕ × ℕ) → Bool
  | [] => true
  | (base, max) :: spans =>
    if saturatingAdd last 1 < base then false else contiguousFrom (Nat.max last max) spans

def lsnSpansContiguous (metas : List SstMeta) : Bool :=
  let spans := (metas.filter SstMeta.hasLsnBounds).map fun m ↦ (m.baseLsn, m.maxLsn)
  if spans.length < 2 then true
  else
    match spans.insertionSort fun a b ↦ a.1 ≤ b.1 with
    | [] => true
    | span :: rest => contiguousFrom span.2 rest

variable (files : List SstMeta)

/-- Cut a pick down to a run without LSN holes: the longest one with the same start, or else the
first one further inside. -/
def shrinkToLsnContiguous (start len : ℕ) : Option (ℕ × ℕ) :=
  if len < 2 ∨ files.length < start + len then none
  else if lsnSpansContiguous (runOf files start len) then some (start, len)
  else
    match (List.range' 2 (len - 2)).reverse.find? fun n ↦
      lsnSpansContiguous (runOf files start n) with
    | some n => some (start, n)
    | none =>
      (List.range' start len).findSome? fun s ↦
        ((List.range' 2 (start + len - s - 1)).reverse.find? fun n ↦
          lsnSpansContiguous (runOf files s n)).map fun n ↦ (s, n)

/-! ## The strategies -/

/-- The inner loop of the strategies bounded by size: the run grows while the total stays under the
threshold. Returns the total size, the number of files and how many overlap their predecessor. -/
def extendRun (thresholdBytes maxMergeFiles : ℕ) :
    SstMeta → List SstMeta → (total len overlaps : ℕ) → ℕ × ℕ × ℕ
  | _, [], total, len, overlaps => (total, len, overlaps)
  | prev, f :: files, total, len, overlaps =>
    if maxMergeFiles ≤ len then (total, len, overlaps)
    else if thresholdBytes ≤ saturatingAdd total f.fileSize then (total, len, overlaps)
    else
      extendRun thresholdBytes maxMergeFiles f files (saturatingAdd total f.fileSize) (len + 1)
        (if f.minTs ≤ prev.maxTs then overlaps + 1 else overlaps)

/-- The loop over the possible starts; `better` compares `(len, total, overlaps)` with the best run
so far. -/
def pickFrom (thresholdBytes maxMergeFiles : ℕ)
    (better : ℕ × ℕ × ℕ → Option (ℕ × ℕ × ℕ × ℕ) → Bool) :
    List SstMeta → ℕ → Option (ℕ × ℕ × ℕ × ℕ) → Option (ℕ × ℕ × ℕ × ℕ)
  | [], _, best => best
  | f :: files, start, best =>
    let (total, len, overlaps) := extendRun thresholdBytes maxMergeFiles f files f.fileSize 1 0
    pickFrom thresholdBytes maxMergeFiles better files (start + 1)
      (if 2 ≤ len ∧ better (len, total, overlaps) best then some (start, len, total, overlaps)
      else best)

variable (thresholdBytes maxMergeFiles : ℕ)

/-- The longest run under the threshold; among those the one with the fewest bytes. -/
def pickSizeTiered : Option (ℕ × ℕ) :=
  (pickFrom thresholdBytes maxMergeFiles
    (fun (len, total, _) best ↦ best.all fun (_, blen, btotal, _) ↦
      blen < len ∨ len = blen ∧ total < btotal) files 0 none).map fun (start, len, _) ↦ (start, len)

/-- The run with the most overlapping neighbours; `pickSizeTiered` when nothing overlaps. -/
def pickOverlap : Option (ℕ × ℕ) :=
  match pickFrom thresholdBytes maxMergeFiles
    (fun (_, _, overlaps) best ↦ 0 < overlaps ∧ best.all fun (_, _, _, bo) ↦ bo < overlaps)
    files 0 none with
  | some (start, len, _) => some (start, len)
  | none => pickSizeTiered files thresholdBytes maxMergeFiles

/-- The inner loop of `pick_file_count`: the number of small files from here on. -/
def smallRun (small maxMergeFiles : ℕ) : List SstMeta → ℕ → ℕ
  | [], len => len
  | f :: files, len =>
    if f.fileSize < small ∧ len < maxMergeFiles then smallRun small maxMergeFiles files (len + 1)
    else len

def pickFileCountFrom (small maxMergeFiles : ℕ) (files : List SstMeta) :
    ℕ → ℕ → Option (ℕ × ℕ) → Option (ℕ × ℕ)
  | 0, _, best => best
  | fuel + 1, i, best =>
    match files[i]? with
    | none => best
    | some f =>
      if small ≤ f.fileSize then pickFileCountFrom small maxMergeFiles files fuel (i + 1) best
      else
        let len := smallRun small maxMergeFiles (files.drop i) 0
        pickFileCountFrom small maxMergeFiles files fuel (max (i + len) (i + 1))
          (if 2 ≤ len ∧ best.all fun (_, bl) ↦ bl < len then some (i, len) else best)

/-- The longest run of small files. The position grows in every round, so there are at most as many
rounds as files. -/
def pickFileCount : Option (ℕ × ℕ) :=
  pickFileCountFrom (max (thresholdBytes / maxMergeFiles) 1) maxMergeFiles files files.length 0 none

def pickCompaction (strategy : CompactionStrategy)
    (thresholdBytes maxMergeFiles : ℕ) : Option (ℕ × ℕ) :=
  if files.length < 2 then none
  else
    let raw :=
      match strategy with
      | .sizeTiered => pickSizeTiered files thresholdBytes (max maxMergeFiles 2)
      | .fileCount => pickFileCount files thresholdBytes (max maxMergeFiles 2)
      | .overlap => pickOverlap files thresholdBytes (max maxMergeFiles 2)
    raw.bind fun (start, len) ↦ shrinkToLsnContiguous files start len

/-! ## What a pick guarantees -/

variable {files metas : List SstMeta} {start len start' len' : ℕ}

/-- A run that may be merged: within the list, at least two files, no LSN hole. -/
structure Mergeable (files : List SstMeta) (start len : ℕ) : Prop where
  two_le : 2 ≤ len
  le_length : start + len ≤ files.length
  contiguous : lsnSpansContiguous (runOf files start len) = true

/-- The search stays inside the run it is given. -/
theorem shrink_spec (h : shrinkToLsnContiguous files start len = some (start', len')) :
    Mergeable files start' len' ∧ start ≤ start' ∧ start' + len' ≤ start + len := by
  rw [shrinkToLsnContiguous] at h
  split at h
  · cases h
  · next hwith =>
    rw [not_or, not_lt, not_lt] at hwith
    split at h
    · next hcont =>
      cases h
      exact ⟨⟨hwith.1, hwith.2, hcont⟩, le_rfl, le_rfl⟩
    · split at h
      · next n hfind =>
        cases h
        have hmem := mem_range'_1.mp (mem_reverse.mp (mem_of_find?_eq_some hfind))
        have hcont := find?_some hfind
        exact ⟨⟨hmem.1, by omega, hcont⟩, le_rfl, by omega⟩
      · obtain ⟨_, hs, hmap⟩ := exists_of_findSome?_eq_some h
        obtain ⟨_, hfind, heq⟩ := Option.map_eq_some_iff.mp hmap
        cases heq
        have hs := mem_range'_1.mp hs
        have hmem := mem_range'_1.mp (mem_reverse.mp (mem_of_find?_eq_some hfind))
        have hcont := find?_some hfind
        exact ⟨⟨hmem.1, by omega, hcont⟩, hs.1, by omega⟩

theorem isSome_shrink (hlen : 2 ≤ len) (hsize : start + len ≤ files.length)
    (hmrg : Mergeable files start' len') (hst : start ≤ start')
    (hend : start' + len' ≤ start + len) : (shrinkToLsnContiguous files start len).isSome := by
  rw [shrinkToLsnContiguous, if_neg (by omega)]
  split
  · rfl
  · split
    · rfl
    · rw [isSome_findSome?, any_eq_true]
      have htwo := hmrg.two_le
      refine ⟨start', mem_range'_1.mpr ⟨hst, by omega⟩, ?_⟩
      rw [Option.isSome_map, find?_isSome]
      refine ⟨len', mem_reverse.mpr (mem_range'_1.mpr ⟨htwo, by omega⟩), ?_⟩
      exact hmrg.contiguous

/-- **Every pick is mergeable**, whatever the strategy chose. -/
theorem mergeable_of_pick {strategy : CompactionStrategy} {thresholdBytes maxMergeFiles : ℕ}
    (h : pickCompaction files strategy thresholdBytes maxMergeFiles = some (start, len)) :
    Mergeable files start len := by
  unfold pickCompaction at h
  split at h
  · cases h
  · obtain ⟨⟨_, _⟩, -, hshr⟩ := Option.bind_eq_some_iff.mp h
    exact (shrink_spec hshr).1

theorem exists_cover_of_contiguousFrom {last x : ℕ} {spans : List (ℕ × ℕ)}
    (h : contiguousFrom last spans = true) (hx : last < x) (hle : ∃ s ∈ spans, x ≤ s.2) :
    ∃ s ∈ spans, s.1 ≤ x ∧ x ≤ s.2 := by
  induction spans generalizing last with
  | nil => exact absurd hle (by simp)
  | cons span spans ih =>
    obtain ⟨base, max⟩ := span
    rw [contiguousFrom] at h
    split at h
    · cases h
    · next hbase =>
      have hnext : base ≤ last + 1 := (not_lt.mp hbase).trans (min_le_left _ _)
      by_cases hmax : x ≤ max
      · exact ⟨(base, max), mem_cons_self, by omega, hmax⟩
      · obtain ⟨s, hs, hxs⟩ := hle
        have hs' : s ∈ spans := by
          rcases mem_cons.mp hs with rfl | hs
          · exact absurd hxs hmax
          · exact hs
        obtain ⟨s, hs, hcover⟩ := ih h (max_lt hx (not_le.mp hmax)) ⟨s, hs', hxs⟩
        exact ⟨s, mem_cons_of_mem _ hs, hcover⟩

/-- **Contiguous spans leave no hole**: every LSN between the base of one of the files and the
largest LSN of another lies in the span of some file. -/
theorem exists_cover_of_contiguous (h : lsnSpansContiguous metas = true) {a b : SstMeta}
    (ha : a ∈ metas) (hb : b ∈ metas) (hbds : ∀ m ∈ metas, m.hasLsnBounds = true) {x : ℕ}
    (hax : a.baseLsn ≤ x) (hxb : x ≤ b.maxLsn) : ∃ m ∈ metas, m.baseLsn ≤ x ∧ x ≤ m.maxLsn := by
  have hfilt : metas.filter SstMeta.hasLsnBounds = metas := filter_eq_self.mpr hbds
  simp only [lsnSpansContiguous, hfilt] at h
  split at h
  · next hlen =>
    -- There is only one file.
    rw [length_map] at hlen
    match metas, hlen with
    | [m], _ =>
      rw [mem_singleton] at ha hb
      exact ⟨m, mem_singleton_self m, ha ▸ hax, hb ▸ hxb⟩
  · set spans := metas.map fun m ↦ (m.baseLsn, m.maxLsn) with hspans
    have hmem {s : ℕ × ℕ} : s ∈ spans.insertionSort (fun a b ↦ a.1 ≤ b.1) ↔
        ∃ m ∈ metas, (m.baseLsn, m.maxLsn) = s := by
      rw [mem_insertionSort, hspans, mem_map]
    have hsort : (spans.insertionSort fun a b ↦ a.1 ≤ b.1).Pairwise fun a b ↦ a.1 ≤ b.1 :=
      pairwise_insertionSort _ _
    have ha' := hmem.mpr ⟨a, ha, rfl⟩
    have hb' := hmem.mpr ⟨b, hb, rfl⟩
    have hcover : ∃ s ∈ spans.insertionSort (fun a b ↦ a.1 ≤ b.1), s.1 ≤ x ∧ x ≤ s.2 := by
      split at h
      · next hnil => simp [hnil] at ha'
      · next span rest hcons =>
        rw [hcons] at ha' hb' hsort ⊢
        have hfst : span.1 ≤ x := by
          rcases mem_cons.mp ha' with heq | ha'
          · exact heq ▸ hax
          · exact ((pairwise_cons.mp hsort).1 _ ha').trans hax
        by_cases hspan : x ≤ span.2
        · exact ⟨span, mem_cons_self, hfst, hspan⟩
        · have hrest : (b.baseLsn, b.maxLsn) ∈ rest := by
            rcases mem_cons.mp hb' with heq | hb'
            · exact absurd (heq ▸ hxb) hspan
            · exact hb'
          obtain ⟨s, hs, hcover⟩ :=
            exists_cover_of_contiguousFrom h (not_le.mp hspan) ⟨_, hrest, hxb⟩
          exact ⟨s, mem_cons_of_mem _ hs, hcover⟩
    obtain ⟨_, hs, hcover⟩ := hcover
    obtain ⟨m, hm, rfl⟩ := hmem.mp hs
    exact ⟨m, hm, hcover⟩

/-! ## The order of the index -/

/-- What `binary_search_by_key` promises of a sorted list. -/
structure SortedSearch extends BinarySearch where
  le_key : ∀ (keys : List ℤ) key, keys.Pairwise (· ≤ ·) →
    ∀ k ∈ keys.take (position keys key), k ≤ key
  key_le : ∀ (keys : List ℤ) key, keys.Pairwise (· ≤ ·) →
    ∀ k ∈ keys.drop (position keys key), key ≤ k

/-- The place before the first key that is not smaller. -/
def firstNotLess : BinarySearch where
  position keys key := (keys.takeWhile fun k ↦ k < key).length
  position_le _ _ := (takeWhile_sublist _).length_le

def sortedFirstNotLess : SortedSearch where
  toBinarySearch := firstNotLess
  le_key keys key hs k hk := by
    induction hs with
    | nil => cases hk
    | cons _ _ ih => grind [firstNotLess, takeWhile_cons]
  key_le keys key hs k hk := by
    induction hs with
    | nil => cases hk
    | cons _ _ ih => grind [firstNotLess, takeWhile_cons]

namespace FileIndex

variable {ρ : Type*} {files : List (SstFile ρ)}

/-- The calls that change an index. Metadata that `validate` refuses changes nothing. -/
inductive Call (ρ : Type*) where
  | fromPersisted (files : List (SstFile ρ))
  | insert (file : SstFile ρ)
  | replaceRange (strategy : CompactionStrategy) (thresholdBytes maxMergeFiles start len : ℕ)
    (merged : SstFile ρ)

def call (search : BinarySearch) (files : List (SstFile ρ)) : Call ρ → Option (List (SstFile ρ))
  | .fromPersisted loaded => some (fromPersisted loaded)
  | .insert file => some (insert search files file)
  | .replaceRange _ _ _ start len merged => replaceRange start len merged files

/-- A range that is replaced was picked, and the merged file has its time bounds. -/
def Picked (files : List (SstFile ρ)) : Call ρ → Prop
  | .replaceRange strategy thresholdBytes maxMergeFiles start len merged =>
    pickCompaction (files.map (·.toSstMeta)) strategy thresholdBytes maxMergeFiles =
        some (start, len) ∧
      ((runOf files start len).map (·.minTs)).min? = some merged.minTs ∧
      ((runOf files start len).map (·.maxTs)).max? = some merged.maxTs
  | _ => True

instance (files : List (SstFile ρ)) (a : Call ρ) : Decidable (Picked files a) := by
  unfold Picked
  split <;> infer_instance

/-- The files that a call is to leave, in any order. -/
def Leaves (files files' : List (SstFile ρ)) : Call ρ → Prop
  | .fromPersisted loaded => files'.Perm loaded
  | .insert file => files'.Perm (file :: files)
  | .replaceRange _ _ _ start len merged =>
    ∃ rest, files.Perm (runOf files start len ++ rest) ∧ files'.Perm (merged :: rest)

/-- The index is in the order of the smallest timestamps. -/
def Sorted (files : List (SstFile ρ)) : Prop := files.Pairwise (·.minTs ≤ ·.minTs)

variable (search : SortedSearch)

theorem Sorted.insert (h : Sorted files) (file : SstFile ρ) :
    Sorted (insert search.toBinarySearch files file) := by
  have hkeys : (files.map (·.minTs)).Pairwise (· ≤ ·) := pairwise_map.mpr h
  have hle := search.le_key _ file.minTs hkeys
  have hge := search.key_le _ file.minTs hkeys
  have hpos := search.position_le (files.map (·.minTs)) file.minTs
  rw [FileIndex.insert]
  generalize search.position (files.map (·.minTs)) file.minTs = pos at *
  rw [← map_take, forall_mem_map] at hle
  rw [← map_drop, forall_mem_map] at hge
  have hins := insertIdx_length_append (files.take pos) (files.drop pos) file
  rw [take_append_drop, length_take, min_eq_left (by simpa using hpos)] at hins
  rw [hins, Sorted, pairwise_append, pairwise_cons]
  refine ⟨h.take, ⟨hge, h.drop⟩, fun f hf g hg ↦ ?_⟩
  rcases mem_cons.mp hg with rfl | hg
  · exact hle f hf
  · exact (hle f hf).trans (hge g hg)

/-- The merged file begins where the first file of its run began. -/
theorem Sorted.replace {start len : ℕ} {merged : SstFile ρ} (h : Sorted files)
    (hmin : ((runOf files start len).map (·.minTs)).min? = some merged.minTs) :
    Sorted (files.take start ++ merged :: files.drop (start + len)) := by
  obtain ⟨hmem, -⟩ := min?_eq_some_iff.mp hmin
  obtain ⟨r, hr, hrm⟩ := mem_map.mp hmem
  rw [Sorted, split_run files start len, pairwise_append, pairwise_append] at h
  obtain ⟨htake, ⟨-, hdrop, hbeh⟩, hfront⟩ := h
  rw [Sorted, pairwise_append, pairwise_cons, ← hrm]
  refine ⟨htake, ⟨hbeh r hr, hdrop⟩, fun f hf g hg ↦ ?_⟩
  rcases mem_cons.mp hg with rfl | hg
  · exact (hfront f hf r (mem_append_left _ hr)).trans_eq hrm
  · exact hfront f hf g (mem_append_right _ hg)

/-- A permitted call returns, with the files that it is to leave, and keeps the order. -/
theorem call_spec {a : Call ρ} (ha : Picked files a) :
    ∃ files', call search.toBinarySearch files a = some files' ∧ Leaves files files' a ∧
      (Sorted files → Sorted files') := by
  cases a with
  | fromPersisted loaded =>
    exact ⟨_, rfl, perm_insertionSort _ _, fun _ ↦ pairwise_insertionSort _ _⟩
  | insert file => exact ⟨_, rfl, insert_perm _ _ _, fun h ↦ h.insert search file⟩
  | replaceRange strategy thresholdBytes maxMergeFiles start len merged =>
    have hle := (mergeable_of_pick ha.1).le_length
    rw [length_map] at hle
    exact ⟨_, replaceRange_eq (by omega), ⟨_, perm_run _ _ _, perm_middle⟩,
      fun h ↦ h.replace ha.2.1⟩

/-- **The index stays in order.** Whatever is loaded, inserted and merged, the files are ordered by
their smallest timestamps, and each call changes them as it should. -/
theorem index_stays_sorted (search : SortedSearch) :
    (∀ files : List (SstFile ρ),
      Reaches (guarded Picked (call search.toBinarySearch)) [] files → Sorted files) ∧
    ∀ (files : List (SstFile ρ)) (a : Call ρ), Picked files a →
      ∃ files', call search.toBinarySearch files a = some files' ∧ Leaves files files' a := by
  refine ⟨fun files h ↦ h.invariant_guarded Pairwise.nil fun s a s' hs ha hcall ↦ ?_,
    fun files a ha ↦ ?_⟩
  · obtain ⟨_, hret, -, hsort⟩ := call_spec search ha
    obtain rfl := Option.some.inj (hret.symm.trans hcall)
    exact hsort hs
  · obtain ⟨files', hret, hleave, -⟩ := call_spec search ha
    exact ⟨files', hret, hleave⟩

/-- The later file is inserted first. -/
theorem inserted_files_sorted :
    ∃ files : List (SstFile ℕ), Reaches (guarded Picked (call firstNotLess)) [] files ∧
      files.map (·.minTs) = [10, 20] ∧ Sorted files :=
  exists_reaches_of [.insert (sampleFile 2 (20, 2) (21, 2) (by decide)),
    .insert (sampleFile 1 (10, 1) (11, 1) (by decide))]
    (p := fun files ↦ files.map (·.minTs) = [10, 20]) (by decide +kernel)
    fun files h hmin ↦ ⟨hmin, (index_stays_sorted sortedFirstNotLess).1 files h⟩

end FileIndex

end MonoTS
