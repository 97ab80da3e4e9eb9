import MonoTS.Compaction.Merge
import MonoTS.Compaction.Pick
import MonoTS.Query.Provider

/-!
# What a compaction does to query answers

Two orders of recency meet in a compaction. A scan takes the row of the file with the largest LSN
bounds. The merge takes the row of the file that comes last in the run, and the files of the index
stand in the order of their smallest timestamps. When late data has been written, a file with newer
LSNs can stand before one with older LSNs, and the merge then keeps the older row.

The merged file starts at the smallest base LSN of the run. Files outside of it keep their place
before or after the run's files in the order of a scan, with one exception: a file without LSN
bounds in the run makes the merged file start at LSN `0`, and it falls behind files that were older
than some of its inputs. `compaction_keeps_scan_iff` says which indexes keep all their answers.
-/

open List

namespace MonoTS

open SstFile FileIndex

variable {ρ : Type*} (files : List (SstFile ρ))

/-- No two files have an LSN in common. -/
def SpansDisjoint : Prop :=
  files.Pairwise fun a b ↦ a.maxLsn < b.baseLsn ∨ b.maxLsn < a.baseLsn

instance : Decidable (SpansDisjoint files) :=
  inferInstanceAs (Decidable (List.Pairwise _ _))

/-- The files that are not in the run. -/
def outsideOf (start len : ℕ) : List (SstFile ρ) :=
  files.take start ++ files.drop (start + len)

/-- The row of the last file of the run that has the timestamp. -/
def lastRow (run : List (SstFile ρ)) (ts : ℤ) : Option ρ := run.reverse.findSome? fun f ↦ f.rowAt ts

/-- For every timestamp whose newest row is in the run: the last file of the run that has it stores
the same row, and no file outside has it that is newer than the start of the run; or else the newest
file outside is newer than the start of the run and stores the same row. -/
def RunKeepsNewest (start len : ℕ) : Prop :=
  ∀ ts, ∀ a ∈ runOf files start len, IsNewest files ts a →
    (lastRow (runOf files start len) ts = a.rowAt ts ∧
      ∀ o ∈ outsideOf files start len, o.rowAt ts ≠ none →
        ∀ b ∈ runOf files start len, o.baseLsn < b.baseLsn) ∨
    ∃ o, IsNewest (outsideOf files start len) ts o ∧ o.rowAt ts = a.rowAt ts ∧
      ∃ b ∈ runOf files start len, b.baseLsn < o.baseLsn

/-! ## Exchanging a run for one file -/

/-- `files'` has `merged` where `files` has the files of `run`. -/
structure Swap (files run outside : List (SstFile ρ)) (merged : SstFile ρ)
    (files' : List (SstFile ρ)) : Prop where
  mem_files : ∀ f, f ∈ files ↔ f ∈ run ∨ f ∈ outside
  mem_files' : ∀ f, f ∈ files' ↔ f = merged ∨ f ∈ outside
  base_mem : ∃ a ∈ run, merged.baseLsn = a.baseLsn
  base_le : ∀ a ∈ run, merged.baseLsn ≤ a.baseLsn
  rowAt : ∀ ts, merged.rowAt ts = lastRow run ts
  distinct : ∀ f ∈ files, ∀ g ∈ files, f.baseLsn = g.baseLsn → f = g
  disjoint : ∀ a ∈ run, ∀ o ∈ outside, a.baseLsn ≠ o.baseLsn

namespace Swap

variable {files run outside files' : List (SstFile ρ)} {merged : SstFile ρ} {o : SstFile ρ} {ts : ℤ}
  (h : Swap files run outside merged files')

include h

theorem merged_ne (ho : o ∈ outside) : merged.baseLsn ≠ o.baseLsn := by
  obtain ⟨a, ha, heq⟩ := h.base_mem
  exact heq ▸ h.disjoint a ha o ho

theorem keys : ∀ f ∈ files, ∀ g ∈ files, f.lsnKey = g.lsnKey → f = g := fun f hf g hg heq ↦
  h.distinct f hf g hg (bounds_of_lsnKey_eq heq).1

theorem keys' : ∀ f ∈ files', ∀ g ∈ files', f.lsnKey = g.lsnKey → f = g := by
  intro f hf g hg heq
  have hbase := (bounds_of_lsnKey_eq heq).1
  rcases (h.mem_files' f).mp hf with rfl | hf <;> rcases (h.mem_files' g).mp hg with rfl | hg
  · rfl
  · exact absurd hbase (h.merged_ne hg)
  · exact absurd hbase.symm (h.merged_ne hf)
  · exact h.distinct f ((h.mem_files f).mpr (.inr hf)) g ((h.mem_files g).mpr (.inr hg)) hbase

theorem rowAt_ne_none : merged.rowAt ts ≠ none ↔ ∃ a ∈ run, a.rowAt ts ≠ none := by
  rw [h.rowAt, lastRow, ne_eq, findSome?_eq_none_iff]
  simp only [mem_reverse, not_forall, exists_prop, ne_eq]

theorem isNewest_outside (ho : o ∈ outside)
    (hnew : IsNewest files ts o) : IsNewest files' ts o := by
  refine ⟨(h.mem_files' o).mpr (.inr ho), hnew.holds, fun g hg hhold ↦ ?_⟩
  rcases (h.mem_files' g).mp hg with rfl | hg
  · obtain ⟨a, ha, hts⟩ := h.rowAt_ne_none.mp hhold
    have hle := baseLsn_le_of_lsnKey_le (hnew.le_key a ((h.mem_files a).mpr (.inl ha)) hts)
    have hlt := ((h.base_le a ha).trans hle).lt_of_ne (h.merged_ne ho)
    exact (lsnKey_lt_of_baseLsn_lt hlt).le
  · exact hnew.le_key g ((h.mem_files g).mpr (.inr hg)) hhold

/-- When the merged file is the newest: nothing outside that has the timestamp starts later. -/
theorem isNewest_merged : IsNewest files' ts merged ↔ merged.rowAt ts ≠ none ∧
      ∀ o ∈ outside, o.rowAt ts ≠ none → ∀ b ∈ run, o.baseLsn < b.baseLsn := by
  constructor
  · rintro ⟨-, hhold, hle⟩
    refine ⟨hhold, fun o ho hts b hb ↦ ?_⟩
    have hbase := baseLsn_le_of_lsnKey_le (hle o ((h.mem_files' o).mpr (.inr ho)) hts)
    exact (hbase.lt_of_ne (h.merged_ne ho).symm).trans_le (h.base_le b hb)
  · rintro ⟨hhold, hlt⟩
    refine ⟨(h.mem_files' merged).mpr (.inl rfl), hhold, fun g hg hts ↦ ?_⟩
    rcases (h.mem_files' g).mp hg with rfl | hg
    · exact le_rfl
    · obtain ⟨a, ha, heq⟩ := h.base_mem
      exact (lsnKey_lt_of_baseLsn_lt (heq ▸ hlt g hg hts a ha)).le

/-- When a file outside is the newest although the merged file has the timestamp. -/
theorem isNewest_of_outside (hnew : IsNewest outside ts o)
    (hlt : ∃ b ∈ run, b.baseLsn < o.baseLsn) : IsNewest files' ts o := by
  refine ⟨(h.mem_files' o).mpr (.inr hnew.mem), hnew.holds, fun g hg hts ↦ ?_⟩
  rcases (h.mem_files' g).mp hg with rfl | hg
  · obtain ⟨b, hb, hlt⟩ := hlt
    exact (lsnKey_lt_of_baseLsn_lt ((h.base_le b hb).trans_lt hlt)).le
  · exact hnew.le_key g hg hts

/-- **The newest rows after the exchange**: they are the same exactly if, for every timestamp whose
newest row was in the run, whoever answers it now stores the same row. -/
theorem newestRow_iff : (∀ ts, newestRow files' ts = newestRow files ts) ↔
    ∀ ts, ∀ a ∈ run, IsNewest files ts a →
      (lastRow run ts = a.rowAt ts ∧
        ∀ o ∈ outside, o.rowAt ts ≠ none → ∀ b ∈ run, o.baseLsn < b.baseLsn) ∨
      ∃ o, IsNewest outside ts o ∧ o.rowAt ts = a.rowAt ts ∧ ∃ b ∈ run, b.baseLsn < o.baseLsn := by
  constructor
  · intro hsame ts a ha hnew
    have hrow : newestRow files' ts = a.rowAt ts :=
      (hsame ts).trans (newestRow_of_isNewest h.keys hnew)
    obtain ⟨r, hr⟩ := Option.ne_none_iff_exists'.mp hnew.holds
    obtain ⟨g, hg, hgr⟩ := exists_isNewest (hrow.trans hr)
    rcases (h.mem_files' g).mp hg.mem with rfl | ho
    · exact .inl ⟨by rw [← h.rowAt, hgr, hr], (h.isNewest_merged.mp hg).2⟩
    · have hmrg := h.rowAt_ne_none.mpr ⟨a, ha, hnew.holds⟩
      have hle := baseLsn_le_of_lsnKey_le
        (hg.le_key merged ((h.mem_files' merged).mpr (.inl rfl)) hmrg)
      obtain ⟨b, hb, heq⟩ := h.base_mem
      refine .inr ⟨g, ⟨ho, hg.holds, fun o ho' hts ↦ ?_⟩, hgr.trans hr.symm, b, hb, ?_⟩
      · exact hg.le_key o ((h.mem_files' o).mpr (.inr ho')) hts
      · exact heq ▸ hle.lt_of_ne (h.merged_ne ho)
  · intro hkeep ts
    cases hrow : newestRow files ts with
    | none =>
      have hnone := newestRow_eq_none_iff.mp hrow
      refine newestRow_eq_none_iff.mpr fun g hg ↦ ?_
      rcases (h.mem_files' g).mp hg with rfl | hg
      · by_contra hhold
        obtain ⟨a, ha, hts⟩ := h.rowAt_ne_none.mp hhold
        exact hts (hnone a ((h.mem_files a).mpr (.inl ha)))
      · exact hnone g ((h.mem_files g).mpr (.inr hg))
    | some r =>
      obtain ⟨f, hf, hr⟩ := exists_isNewest hrow
      rcases (h.mem_files f).mp hf.mem with ha | ho
      · rcases hkeep ts f ha hf with ⟨hlast, hlt⟩ | ⟨_, hnew, hor, hlt⟩
        · have hmrg := h.isNewest_merged.mpr ⟨h.rowAt_ne_none.mpr ⟨f, ha, hf.holds⟩, hlt⟩
          rw [newestRow_of_isNewest h.keys' hmrg, h.rowAt, hlast, hr]
        · rw [newestRow_of_isNewest h.keys' (h.isNewest_of_outside hnew hlt), hor, hr]
      · rw [newestRow_of_isNewest h.keys' (h.isNewest_outside ho hf), hr]

end Swap

/-! ## A compaction -/

section

variable {files files' : List (SstFile ρ)} {merged : SstFile ρ} {start len : ℕ}

theorem SpansDisjoint.baseLsn (h : SpansDisjoint files) :
    files.Pairwise fun a b ↦ a.baseLsn ≠ b.baseLsn := by
  refine h.imp fun {a b} hab heq ↦ ?_
  have ha := a.span_le
  have hb := b.span_le
  omega

theorem swap_of_compaction (hspans : SpansDisjoint files) (hlen : start + len ≤ files.length)
    {dataDir : String} {nowMs : ℤ} {fileSize : ℕ}
    (hmrg : mergeFiles dataDir nowMs fileSize (runOf files start len) = .ok merged)
    (hrep : replaceRange start len merged files = some files') :
    Swap files (runOf files start len) (outsideOf files start len) merged files' := by
  obtain ⟨_, rfl⟩ := mergeFiles_ok hmrg
  have hne : runOf files start len ≠ [] := ne_nil_of_length_pos (by omega)
  rw [replaceRange_eq (by omega), Option.some_inj] at hrep
  have hbase := hspans.baseLsn
  refine ⟨fun f ↦ ?_, fun f ↦ ?_, (mergedFile_baseLsn hne).1, (mergedFile_baseLsn hne).2,
    fun ts ↦ mergedFile_rowAt ts, ?_, fun a ha o ho ↦ ?_⟩
  · exact (perm_run files start len).mem_iff.trans mem_append
  · rw [← hrep, outsideOf]
    exact perm_middle.mem_iff.trans mem_cons
  · exact fun f hf g hg heq ↦ inj_on_of_nodup_map (pairwise_map.mpr hbase) hf hg heq
  · exact run_apart (fun hne ↦ hne.symm) hbase ha ho

theorem scan_eq_iff : (∀ range mems ts,
      (scan range mems files').lookup ts = (scan range mems files).lookup ts) ↔
    ∀ ts, newestRow files' ts = newestRow files ts := by
  simp only [scan_lookup]
  constructor
  · intro h ts
    simpa [TimeRange.contains] using h ⟨none, none⟩ [] ts
  · intro h range mems ts
    rw [h]

end

/-! ## Runs with LSN bounds

Without a file that lacks LSN bounds, the picked run covers its LSN range without a hole, so every
other file lies entirely below or entirely above it, and only the order inside the run matters. -/

section

variable {files : List (SstFile ρ)} {start len : ℕ} (hspans : SpansDisjoint files)
  (hrun : Mergeable (files.map fun f ↦ f.toSstMeta) start len)
  (hbounds : ∀ f ∈ runOf files start len, f.hasLsnBounds = true)

include hspans hrun hbounds

theorem outside_below_or_above {o : SstFile ρ} (ho : o ∈ outsideOf files start len) :
    (∀ b ∈ runOf files start len, o.maxLsn < b.baseLsn) ∨
      ∀ b ∈ runOf files start len, b.maxLsn < o.baseLsn := by
  have hdisj : ∀ b ∈ runOf files start len, b.maxLsn < o.baseLsn ∨ o.maxLsn < b.baseLsn := by
    intro b hb
    exact run_apart (fun hor ↦ hor.symm) hspans hb ho
  have hmap : runOf (files.map fun f ↦ f.toSstMeta) start len =
      (runOf files start len).map fun f ↦ f.toSstMeta := by
    rw [runOf, runOf, map_take, map_drop]
  by_contra hnot
  simp only [not_or, not_forall, not_lt] at hnot
  obtain ⟨⟨b, hb, _⟩, _, hc, hoc⟩ := hnot
  have hbase : b.baseLsn ≤ o.baseLsn := by
    have := hdisj b hb
    have := b.span_le
    omega
  -- Some file of the run covers the base of the file outside.
  obtain ⟨_, hm, _⟩ := exists_cover_of_contiguous (hmap ▸ hrun.contiguous)
    (mem_map_of_mem hb) (mem_map_of_mem hc) (by simpa using hbounds) hbase hoc
  obtain ⟨d, hd, rfl⟩ := mem_map.mp hm
  have := hdisj d hd
  have := o.span_le
  omega

theorem runKeepsNewest_of_bounded
    (hlast : ∀ ts, ∀ a ∈ runOf files start len, IsNewest files ts a →
      lastRow (runOf files start len) ts = a.rowAt ts) : RunKeepsNewest files start len := by
  intro ts a ha hnew
  refine .inl ⟨hlast ts a ha hnew, fun o ho hts b hb ↦ ?_⟩
  have hmem : o ∈ files := (perm_run files start len).mem_iff.mpr (mem_append_right _ ho)
  have hle := baseLsn_le_of_lsnKey_le (hnew.le_key o hmem hts)
  rcases outside_below_or_above hspans hrun hbounds ho with hbelow | habove
  · exact o.span_le.trans_lt (hbelow b hb)
  · exact absurd ((a.span_le.trans_lt (habove a ha)).trans_le hle) (lt_irrefl _)

/-- **Runs in LSN order are safe**: if the files of the run stand in the order of their LSNs, the
last file that has a timestamp is the newest. -/
theorem runKeepsNewest_of_increasing
    (horder : (runOf files start len).Pairwise fun a b ↦ a.baseLsn < b.baseLsn) :
    RunKeepsNewest files start len := by
  refine runKeepsNewest_of_bounded hspans hrun hbounds fun ts a ha hnew ↦ ?_
  cases hrow : lastRow (runOf files start len) ts with
  | none =>
    exact absurd (findSome?_eq_none_iff.mp hrow a (mem_reverse.mpr ha)) hnew.holds
  | some r =>
    obtain ⟨_, b, _, hsplit, hr, hnone⟩ := findSome?_eq_some_iff.mp hrow
    have hmem : b ∈ files := by
      have hb : b ∈ (runOf files start len).reverse := hsplit ▸ by simp
      exact (perm_run files start len).mem_iff.mpr (mem_append_left _ (mem_reverse.mp hb))
    have hle := baseLsn_le_of_lsnKey_le (hnew.le_key b hmem (by simp [hr]))
    have hsort := hsplit ▸ pairwise_reverse.mpr horder
    rcases mem_append.mp (hsplit ▸ mem_reverse.mpr ha) with ha' | ha'
    · exact absurd (hnone a ha') hnew.holds
    · rcases mem_cons.mp ha' with rfl | ha'
      · exact hr.symm
      · have hlt := (pairwise_cons.mp (pairwise_append.mp hsort).2.1).1 a ha'
        exact absurd (hlt.trans_le hle) (lt_irrefl _)

end

/-! ## Query answers -/

/-- **A compaction keeps all answers exactly if the run keeps the newest rows.** -/
theorem compaction_keeps_scan_iff {files files' : List (SstFile ρ)} {merged : SstFile ρ}
    {start len : ℕ} (hspans : SpansDisjoint files)
    {strategy : CompactionStrategy} {thresholdBytes maxMergeFiles : ℕ}
    (hpick : pickCompaction (files.map fun f ↦ f.toSstMeta) strategy thresholdBytes maxMergeFiles =
      some (start, len))
    {dataDir : String} {nowMs : ℤ} {fileSize : ℕ}
    (hmerge : mergeFiles dataDir nowMs fileSize (runOf files start len) = .ok merged)
    (hreplace : replaceRange start len merged files = some files') :
    (∀ range mems ts, (scan range mems files').lookup ts = (scan range mems files).lookup ts) ↔
      RunKeepsNewest files start len := by
  have hlen := (mergeable_of_pick hpick).le_length
  rw [length_map] at hlen
  rw [scan_eq_iff]
  exact (swap_of_compaction hspans hlen hmerge hreplace).newestRow_iff

/-- Two files that both have timestamp `5`, in the order they were written. -/
def inOrder : List (SstFile ℕ) :=
  [sampleFile 1 (0, 7) (5, 1) (by decide), sampleFile 2 (3, 7) (5, 2) (by decide)]

/-- The file that was written last starts at the smaller timestamp. -/
def lateData : List (SstFile ℕ) :=
  [sampleFile 2 (0, 7) (5, 2) (by decide), sampleFile 1 (3, 7) (5, 1) (by decide)]

theorem compaction_in_order_keeps_scan :
    SpansDisjoint inOrder ∧
    pickCompaction (inOrder.map fun f ↦ f.toSstMeta) .sizeTiered 100 8 = some (0, 2) ∧
    ∃ merged files', mergeFiles "t" 9 20 (runOf inOrder 0 2) = .ok merged ∧
      replaceRange 0 2 merged inOrder = some files' ∧
      ∀ range mems ts,
        (scan range mems files').lookup ts = (scan range mems inOrder).lookup ts := by
  have hspans : SpansDisjoint inOrder := by decide
  have hpick :
      pickCompaction (inOrder.map fun f ↦ f.toSstMeta) .sizeTiered 100 8 = some (0, 2) := by
    decide +kernel
  have hkeep : RunKeepsNewest inOrder 0 2 :=
    runKeepsNewest_of_increasing hspans (mergeable_of_pick hpick) (by decide) (by decide)
  exact ⟨hspans, hpick, _, _, rfl, rfl, (compaction_keeps_scan_iff hspans hpick rfl rfl).mpr hkeep⟩

/-- The merge keeps the row of the file with the later timestamps, although it is the older one. -/
theorem compaction_of_late_data_changes_scan :
    SpansDisjoint lateData ∧ (lateData.map fun f ↦ f.minTs).Pairwise (· ≤ ·) ∧
    pickCompaction (lateData.map fun f ↦ f.toSstMeta) .sizeTiered 100 8 = some (0, 2) ∧
    ∃ merged files', mergeFiles "t" 9 20 (runOf lateData 0 2) = .ok merged ∧
      replaceRange 0 2 merged lateData = some files' ∧
      (scan ⟨none, none⟩ [] lateData).lookup 5 = some 2 ∧
      (scan ⟨none, none⟩ [] files').lookup 5 = some 1 :=
  ⟨by decide, by decide, by decide +kernel, _, _, rfl, rfl, by decide +kernel, by decide +kernel⟩

/-! ## Several compactions -/

/-- **Merging in stages** gives the rows of one merge, whatever neighbours are merged first. -/
theorem mergedFile_stages (dataDir : String) (nowMs : ℤ) (fileSize : ℕ) (passes : List (ℕ × ℕ))
    (files : List (SstFile ρ)) :
    let merged := mergedFile dataDir nowMs fileSize
    (merged (passes.foldl (fun files p ↦ files.take p.1 ++ merged (runOf files p.1 p.2) ::
      files.drop (p.1 + p.2)) files)).rows = (merged files).rows := by
  intro merged
  induction passes generalizing files with
  | nil => rfl
  | cons p passes ih =>
    refine (ih _).trans (KWayMerge.eq_of_sorted (merged _).sorted (merged _).sorted fun x ↦ ?_)
    rw [← SortedRows.rowAt_eq_some_iff, ← SortedRows.rowAt_eq_some_iff, mergedFile_rowAt,
      mergedFile_rowAt, congrArg reverse (split_run files p.1 p.2)]
    simp only [reverse_append, reverse_cons, append_assoc, findSome?_append, findSome?_cons,
      findSome?_nil, merged, mergedFile_rowAt]
    cases (runOf files p.1 p.2).reverse.findSome? fun f ↦ f.rowAt x.1 <;> rfl

end MonoTS
