import MonoTS.Compaction.Pick

/-!
# Which run is picked

The search for a run without LSN holes looks only into the run that a strategy has chosen. Two
consequences are worked out here. What is merged covers the LSNs of its inputs and no others,
whatever the strategy was, because the run that comes out of the search has no hole. But nothing may
come out of it although two neighbouring files could be merged: with the strategy by size it is the
longest run under the threshold that is searched, and the two files may be elsewhere.

`pickSizeTiered_leads` says which run the strategy by size chooses. For this the loop over the
starts keeps the best run among those that start before the current position (`BestBefore`).
-/

open List Option

namespace MonoTS

open SstIdentity SstMeta

variable {files metas : List SstMeta} {threshold maxFiles start len s n : ℕ}

/-! ## How long a pick is -/

theorem extendRun_len_le (prev : SstMeta) (files : List SstMeta) (total len overlaps : ℕ)
    (hlen : len ≤ maxFiles) :
    (extendRun threshold maxFiles prev files total len overlaps).2.1 ≤ maxFiles := by
  induction files generalizing prev total len overlaps with
  | nil => exact hlen
  | cons f files ih =>
    rw [extendRun]
    split_ifs with hmax
    · exact hlen
    · exact hlen
    all_goals exact ih _ _ _ _ (not_le.mp hmax)

variable {best : Option (ℕ × ℕ × ℕ × ℕ)}

theorem pickFrom_len_le {better : ℕ × ℕ × ℕ → Option (ℕ × ℕ × ℕ × ℕ) → Bool}
    (hmax : 1 ≤ maxFiles) (hbest : ∀ c ∈ best, c.2.1 ≤ maxFiles) (start : ℕ) :
    ∀ c ∈ pickFrom threshold maxFiles better files start best,
      c.2.1 ≤ maxFiles := by
  induction files generalizing start best with
  | nil => exact hbest
  | cons f files ih =>
    refine ih (fun c hc ↦ ?_) (start + 1)
    split_ifs at hc
    · obtain rfl := mem_some_iff.mp hc
      exact extendRun_len_le f files f.fileSize 1 0 hmax
    · exact hbest c hc

theorem pickSizeTiered_len_le (hmax : 1 ≤ maxFiles)
    (h : pickSizeTiered files threshold maxFiles = some (start, len)) :
    len ≤ maxFiles := by
  obtain ⟨c, hc, heq⟩ := map_eq_some_iff.mp h
  cases heq
  exact pickFrom_len_le hmax (fun c hc ↦ absurd hc (not_mem_none c)) 0 c hc

theorem pickOverlap_len_le (hmax : 1 ≤ maxFiles)
    (h : pickOverlap files threshold maxFiles = some (start, len)) :
    len ≤ maxFiles := by
  rw [pickOverlap] at h
  split at h
  · next hpick =>
    cases h
    exact pickFrom_len_le hmax (fun c hc ↦ absurd hc (not_mem_none c)) 0 _ hpick
  · exact pickSizeTiered_len_le hmax h

theorem smallRun_le {small : ℕ} (files : List SstMeta) (hlen : len ≤ maxFiles) :
    smallRun small maxFiles files len ≤ maxFiles := by
  induction files generalizing len with
  | nil => exact hlen
  | cons f files ih =>
    rw [smallRun]
    split_ifs with hsm
    · exact ih hsm.2
    · exact hlen

theorem pickFileCountFrom_len_le {small fuel i : ℕ} {best : Option (ℕ × ℕ)}
    (hbest : ∀ c ∈ best, c.2 ≤ maxFiles) :
    ∀ c ∈ pickFileCountFrom small maxFiles files fuel i best, c.2 ≤ maxFiles := by
  induction fuel generalizing i best with
  | zero => exact hbest
  | succ fuel ih =>
    rw [pickFileCountFrom]
    split
    · exact hbest
    · split
      · exact ih hbest
      · refine ih fun c hc ↦ ?_
        split_ifs at hc
        · obtain rfl := mem_some_iff.mp hc
          exact smallRun_le _ (Nat.zero_le _)
        · exact hbest c hc

/-- **No pick is longer than the limit.** -/
theorem pickCompaction_len_le {strategy : CompactionStrategy}
    (h : pickCompaction files strategy threshold maxFiles = some (start, len)) :
    len ≤ max 2 maxFiles := by
  have hmax : 1 ≤ max maxFiles 2 := by omega
  unfold pickCompaction at h
  split at h
  · cases h
  · obtain ⟨⟨_, n⟩, hraw, hshr⟩ := bind_eq_some_iff.mp h
    have hn : n ≤ max maxFiles 2 := by
      cases strategy with
      | sizeTiered => exact pickSizeTiered_len_le hmax hraw
      | fileCount =>
        exact pickFileCountFrom_len_le (fun c hc ↦ absurd hc (not_mem_none c)) _ hraw
      | overlap => exact pickOverlap_len_le hmax hraw
    have hin := (shrink_spec hshr).2
    omega

/-! ## The span of the merged file -/

/-- The span of the merged file is the union of the spans of its inputs, if these leave no hole. -/
theorem mem_mergedSpan_iff (nowMs : ℤ) (hne : metas ≠ [])
    (hspan : ∀ m ∈ metas, 1 ≤ m.baseLsn ∧ m.baseLsn ≤ m.maxLsn)
    (hcont : lsnSpansContiguous metas = true) (lsn : ℕ) :
    ((afterInnerMergeRun nowMs (metas.map identity)).minLsn ≤ lsn ∧
        lsn ≤ (afterInnerMergeRun nowMs (metas.map identity)).maxLsn) ↔
      ∃ m ∈ metas, m.baseLsn ≤ lsn ∧ lsn ≤ m.maxLsn := by
  have hids : metas.map identity ≠ [] := by simpa using hne
  obtain ⟨⟨_, ha', hmin⟩, hle⟩ := afterInnerMergeRun_minLsn nowMs hids
  obtain ⟨⟨_, hb', hmax⟩, hge⟩ := afterInnerMergeRun_maxLsn nowMs hids
  obtain ⟨a, ha, rfl⟩ := List.mem_map.mp ha'
  obtain ⟨b, hb, rfl⟩ := List.mem_map.mp hb'
  have hbase (m : SstMeta) (hm : m ∈ metas) : m.identity.minLsn = m.baseLsn :=
    (identity_lsn (hspan m hm).2).1
  have hlast (m : SstMeta) (hm : m ∈ metas) : m.identity.maxLsn = m.maxLsn :=
    (identity_lsn (hspan m hm).2).2
  rw [hmin, hmax, hbase a ha, hlast b hb]
  constructor
  · rintro ⟨hal, hlb⟩
    refine exists_cover_of_contiguous hcont ha hb (fun m hm ↦ ?_) hal hlb
    exact decide_eq_true (.inl (hspan m hm).1)
  · rintro ⟨m, hm, hml, hlm⟩
    have hlo := hle _ (List.mem_map_of_mem hm)
    have hhi := hge _ (List.mem_map_of_mem hm)
    rw [hmin, hbase a ha, hbase m hm] at hlo
    rw [hmax, hlast b hb, hlast m hm] at hhi
    exact ⟨hlo.trans hml, hlm.trans hhi⟩

/-- The LSN spans have no number in common. -/
def SpansApart (a b : SstMeta) : Prop := a.maxLsn < b.baseLsn ∨ b.maxLsn < a.baseLsn

theorem SpansApart.symm {a b : SstMeta} (h : SpansApart a b) : SpansApart b a := Or.symm h

instance (a b : SstMeta) : Decidable (SpansApart a b) := inferInstanceAs (Decidable (_ ∨ _))

/-- **A picked run covers no foreign LSN.** It has at least two files and no more than the limit,
the span of the merged file has the LSNs of the picked files and no others, and so none of a file
that was not picked. -/
theorem picked_run_covers_no_foreign_lsn (strategy : CompactionStrategy) (nowMs : ℤ)
    (hspan : ∀ m ∈ files, 1 ≤ m.baseLsn ∧ m.baseLsn ≤ m.maxLsn)
    (hdisjoint : files.Pairwise SpansApart)
    (h : pickCompaction files strategy threshold maxFiles = some (start, len)) :
    (2 ≤ len ∧ len ≤ max 2 maxFiles ∧ start + len ≤ files.length) ∧
      let merged := afterInnerMergeRun nowMs
        ((runOf files start len).map identity)
      (∀ lsn, merged.minLsn ≤ lsn ∧ lsn ≤ merged.maxLsn ↔
        ∃ m ∈ runOf files start len, m.baseLsn ≤ lsn ∧ lsn ≤ m.maxLsn) ∧
      ∀ m ∈ files.take start ++ files.drop (start + len), ∀ lsn,
        m.baseLsn ≤ lsn → lsn ≤ m.maxLsn → ¬ (merged.minLsn ≤ lsn ∧ lsn ≤ merged.maxLsn) := by
  have hmrg := mergeable_of_pick h
  have hrun : ∀ m ∈ runOf files start len, m ∈ files := fun m hm ↦
    mem_of_mem_drop (mem_of_mem_take hm)
  have hne : runOf files start len ≠ [] := by
    have hlen : (runOf files start len).length = len := by
      rw [runOf, length_take, length_drop]
      have := hmrg.le_length
      omega
    intro hnil
    have := hmrg.two_le
    rw [hnil, length_nil] at hlen
    omega
  have hunion (lsn : ℕ) := mem_mergedSpan_iff nowMs hne (fun m hm ↦ hspan m (hrun m hm))
    hmrg.contiguous lsn
  refine ⟨⟨hmrg.two_le, pickCompaction_len_le h, hmrg.le_length⟩, hunion, ?_⟩
  intro m hm lsn hml hlm hin
  obtain ⟨_, hp, _, _⟩ := (hunion lsn).mp hin
  rcases run_apart SpansApart.symm hdisjoint hp hm with hpm | hmp
  · omega
  · omega

/-- A file of the given size with the given LSNs. -/
def sizedMeta (fileSize baseLsn maxLsn : ℕ) : SstMeta where
  filePath := "t/" ++ (freshFlush 0 baseLsn maxLsn).filename
  minTs := baseLsn
  maxTs := maxLsn
  rowCount := 1
  fileSize
  creationTimeMs := 0
  innerCompactionCount := 0
  crossCompactionCount := 0
  baseLsn
  maxLsn

/-- Between the second and the third file an LSN went to another table. -/
def gappedMetas : List SstMeta := [sizedMeta 10 1 3, sizedMeta 10 4 4, sizedMeta 10 6 7]

theorem gappedMetas_covered :
    pickCompaction gappedMetas .sizeTiered 100 8 = some (0, 2) ∧
      ¬ (1 ≤ 6 ∧ 6 ≤ (afterInnerMergeRun 9
        ((runOf gappedMetas 0 2).map identity)).maxLsn) := by
  have hpick : pickCompaction gappedMetas .sizeTiered 100 8 = some (0, 2) := by decide +kernel
  have hcov := picked_run_covers_no_foreign_lsn .sizeTiered 9 (by decide) (by decide) hpick
  have hfor := hcov.2.2 (sizedMeta 10 6 7) (by decide) 6 (by decide) (by decide)
  exact ⟨hpick, hfor⟩

/-! ## The strategy by size -/

/-- The size of the files together. -/
def runBytes (files : List SstMeta) : ℕ := (files.map fileSize).sum

theorem runBytes_cons (f : SstMeta) (files : List SstMeta) :
    runBytes (f :: files) = f.fileSize + runBytes files := by
  rw [runBytes, map_cons, sum_cons, runBytes]

/-- **The run grows as far as it can.** It takes on some files; the total is their size, under the
threshold if there are any, and with one more file the run is too long or too large. -/
theorem extendRun_spec (maxFiles : ℕ) (hthreshold : threshold < 2 ^ 64) (prev : SstMeta)
    (files : List SstMeta) (total len overlaps : ℕ) :
    ∃ k ≤ files.length,
      (extendRun threshold maxFiles prev files total len overlaps).1 =
        total + runBytes (files.take k) ∧
      (extendRun threshold maxFiles prev files total len overlaps).2.1 = len + k ∧
      (0 < k → len + k ≤ maxFiles ∧ total + runBytes (files.take k) < threshold) ∧
      ∀ j ≤ files.length, k < j →
        maxFiles < len + j ∨ threshold ≤ total + runBytes (files.take j) := by
  induction files generalizing prev total len overlaps with
  | nil =>
    refine ⟨0, le_rfl, rfl, rfl, fun h ↦ absurd h (lt_irrefl 0), fun j hj hk ↦ ?_⟩
    exact absurd (Nat.le_zero.mp hj) hk.ne'
  | cons f files ih =>
    rw [extendRun]
    split_ifs with hmax hsize
    · refine ⟨0, Nat.zero_le _, rfl, rfl, fun h ↦ absurd h (lt_irrefl 0), fun j _ hk ↦ .inl ?_⟩
      omega
    · refine ⟨0, Nat.zero_le _, rfl, rfl, fun h ↦ absurd h (lt_irrefl 0), fun j _ hk ↦ .inr ?_⟩
      obtain ⟨j, rfl⟩ := Nat.exists_eq_succ_of_ne_zero hk.ne'
      rw [take_succ_cons, runBytes_cons]
      exact hsize.trans ((min_le_left _ _).trans (by omega))
    all_goals
      have hadd : saturatingAdd total f.fileSize = total + f.fileSize := by
        rw [saturatingAdd] at hsize ⊢
        omega
      rw [hadd] at hsize ⊢
      obtain ⟨k, hk, htot, hlen, hbd, hnext⟩ := ih f (total + f.fileSize) (len + 1) _
      refine ⟨k + 1, Nat.succ_le_succ hk, ?_, ?_, fun _ ↦ ?_, fun j hj hkj ↦ ?_⟩
      · rw [htot, take_succ_cons, runBytes_cons, Nat.add_assoc]
      · rw [hlen]
        omega
      · rw [take_succ_cons, runBytes_cons]
        rcases Nat.eq_zero_or_pos k with rfl | hpos
        · rw [take_zero, runBytes, map_nil, sum_nil]
          omega
        · have := hbd hpos
          omega
      · obtain ⟨j, rfl⟩ := Nat.exists_eq_succ_of_ne_zero (Nat.ne_zero_of_lt hkj)
        rw [take_succ_cons, runBytes_cons]
        have := hnext j (Nat.le_of_succ_le_succ hj) (Nat.lt_of_succ_lt_succ hkj)
        omega

/-- A run that may be merged as far as its size is concerned. -/
structure Affordable (files : List SstMeta) (threshold maxFiles start len : ℕ) :
    Prop where
  two_le : 2 ≤ len
  le_max : len ≤ maxFiles
  le_length : start + len ≤ files.length
  bytes_lt : runBytes (runOf files start len) < threshold

/-- The first run is longer than the second, or as long and smaller, or as long, as large and not
behind it. -/
def Leads (files : List SstMeta) (start len start' len' : ℕ) : Prop :=
  len' < len ∨ len' = len ∧
    (runBytes (runOf files start len) < runBytes (runOf files start' len') ∨
      runBytes (runOf files start len) = runBytes (runOf files start' len') ∧ start ≤ start')

instance (files : List SstMeta) (start len start' len' : ℕ) :
    Decidable (Leads files start len start' len') := inferInstanceAs (Decidable (_ ∨ _))

/-- The run that the strategy by size chooses. -/
structure Leading (files : List SstMeta) (threshold maxFiles start len : ℕ) : Prop
    extends Affordable files threshold maxFiles start len where
  leads : ∀ s n, Affordable files threshold maxFiles s n → Leads files start len s n

theorem Leading.unique {start' len' : ℕ} (h : Leading files threshold maxFiles start len)
    (h' : Leading files threshold maxFiles start' len') :
    start = start' ∧ len = len' := by
  have hle := h.leads _ _ h'.toAffordable
  have hge := h'.leads _ _ h.toAffordable
  simp only [Leads] at hle hge
  omega

/-- The loop has the best of the runs that start before a position. -/
structure BestBefore (files : List SstMeta) (threshold maxFiles i : ℕ)
    (best : Option (ℕ × ℕ × ℕ × ℕ)) : Prop where
  affordable : ∀ c ∈ best, Affordable files threshold maxFiles c.1 c.2.1 ∧ c.1 < i ∧
    c.2.2.1 = runBytes (runOf files c.1 c.2.1)
  leads : ∀ s n, s < i → Affordable files threshold maxFiles s n →
    ∃ c ∈ best, Leads files c.1 c.2.1 s n

theorem runOf_of_drop {i : ℕ} {f : SstMeta} {rest : List SstMeta} (hdrop : files.drop i = f :: rest)
    (k : ℕ) : runOf files i (1 + k) = f :: rest.take k := by
  rw [runOf, hdrop, Nat.add_comm, take_succ_cons]

section

variable {f : SstMeta} {rest : List SstMeta} {i : ℕ} (hthreshold : threshold < 2 ^ 64)
  (hdrop : files.drop i = f :: rest)

include hthreshold hdrop

/-- The run that grows from a position is the longest affordable one that starts there. -/
theorem extendRun_affordable (maxFiles : ℕ) :
    let (total, len, _) := extendRun threshold maxFiles f rest f.fileSize 1 0
    total = runBytes (runOf files i len) ∧
      (2 ≤ len → Affordable files threshold maxFiles i len) ∧
      ∀ n, Affordable files threshold maxFiles i n → n ≤ len := by
  obtain ⟨_, _, htot, hlen, hbd, hnext⟩ :=
    extendRun_spec maxFiles hthreshold f rest f.fileSize 1 0
  have hbs (j : ℕ) : runBytes (runOf files i (1 + j)) = f.fileSize + runBytes (rest.take j) := by
    rw [runOf_of_drop hdrop, runBytes_cons]
  have hcount : files.length = i + 1 + rest.length := by
    have := congrArg List.length hdrop
    rw [length_drop, length_cons] at this
    omega
  simp only [htot, hlen, hbs]
  refine ⟨trivial, fun htwo ↦ ?_, fun n hn ↦ ?_⟩
  · obtain ⟨hmax, hlt⟩ := hbd (by omega)
    exact ⟨htwo, hmax, by omega, by rw [hbs]; exact hlt⟩
  · by_contra hgt
    obtain ⟨j, rfl⟩ := Nat.exists_eq_add_of_le (Nat.one_le_of_lt (not_le.mp hgt))
    have hle := hn.le_length
    have hlt := hn.bytes_lt
    rw [hbs] at hlt
    rcases hnext j (by omega) (by omega) with hmax | hsize
    · exact absurd hn.le_max (by omega)
    · omega

/-- **One round of the loop** over the starts. -/
theorem BestBefore.step {best : Option (ℕ × ℕ × ℕ × ℕ)}
    (h : BestBefore files threshold maxFiles i best) :
    let (total, len, overlaps) := extendRun threshold maxFiles f rest f.fileSize 1 0
    BestBefore files threshold maxFiles (i + 1)
      (if 2 ≤ len ∧ best.all (fun (_, blen, btotal, _) ↦ blen < len ∨ len = blen ∧ total < btotal)
        then some (i, len, total, overlaps) else best) := by
  have hgrown := extendRun_affordable hthreshold hdrop maxFiles
  generalize extendRun threshold maxFiles f rest f.fileSize 1 0 = r at hgrown ⊢
  obtain ⟨total, len, _⟩ := r
  obtain ⟨htot, haff, hlong⟩ := hgrown
  simp only
  split_ifs with hless
  · obtain ⟨htwo, hless⟩ := hless
    refine ⟨fun c hc ↦ ?_, fun s n hs hn ↦ ⟨_, rfl, ?_⟩⟩
    · obtain rfl := mem_some_iff.mp hc
      exact ⟨haff htwo, Nat.lt_succ_self i, htot⟩
    · rcases Nat.lt_succ_iff_lt_or_eq.mp hs with hs | rfl
      · obtain ⟨⟨b, blen, btotal, bo⟩, rfl, hlead⟩ := h.leads s n hs hn
        have hb := (h.affordable _ rfl).2.2
        simp only [all_some, decide_eq_true_eq] at hless hb
        simp only [Leads] at hlead ⊢
        omega
      · have hle := hlong n hn
        simp only [Leads]
        rcases hle.lt_or_eq with hlt | rfl
        · exact .inl hlt
        · exact .inr ⟨rfl, .inr ⟨rfl, le_rfl⟩⟩
  · refine ⟨fun c hc ↦ ?_, fun s n hs hn ↦ ?_⟩
    · obtain ⟨hc, hi, htot⟩ := h.affordable c hc
      exact ⟨hc, hi.trans (Nat.lt_succ_self i), htot⟩
    rcases Nat.lt_succ_iff_lt_or_eq.mp hs with hs | rfl
    · exact h.leads s n hs hn
    · have hle := hlong n hn
      have htwo := hn.two_le
      have hnot : ¬ best.all (fun (_, blen, btotal, _) ↦
          blen < len ∨ len = blen ∧ total < btotal) := fun hall ↦ hless ⟨by omega, hall⟩
      cases best with
      | none => exact absurd rfl hnot
      | some c =>
        obtain ⟨_, _, _, _⟩ := c
        obtain ⟨-, _, hb⟩ := h.affordable _ rfl
        simp only [all_some, decide_eq_true_eq] at hnot hb
        refine ⟨_, rfl, ?_⟩
        simp only [Leads]
        rcases hle.lt_or_eq with hlt | rfl
        · exact .inl (by omega)
        · omega

end

theorem BestBefore.pickFrom {i : ℕ} {rest : List SstMeta} (hthreshold : threshold < 2 ^ 64)
    (hdrop : files.drop i = rest) (h : BestBefore files threshold maxFiles i best) :
    BestBefore files threshold maxFiles (i + rest.length)
      (pickFrom threshold maxFiles
        (fun (len, total, _) best ↦ best.all fun (_, blen, btotal, _) ↦
          blen < len ∨ len = blen ∧ total < btotal) rest i best) := by
  induction rest generalizing i best with
  | nil => exact h
  | cons f rest ih =>
    have hrest : files.drop (i + 1) = rest := by
      rw [← drop_drop, hdrop, drop_one, tail_cons]
    have hnext := ih hrest (h.step hthreshold hdrop)
    rw [Nat.add_right_comm] at hnext
    exact hnext

variable (files maxFiles) in
/-- **The strategy by size chooses the leading run**, and nothing only if there is no run that it
could choose. -/
theorem pickSizeTiered_leads (hthreshold : threshold < 2 ^ 64) :
    (∀ start len, pickSizeTiered files threshold maxFiles = some (start, len) →
      Leading files threshold maxFiles start len) ∧
    (pickSizeTiered files threshold maxFiles = none →
      ∀ start len, ¬ Affordable files threshold maxFiles start len) := by
  have hst : BestBefore files threshold maxFiles 0 none :=
    ⟨fun c hc ↦ absurd hc (not_mem_none c), fun s n hs ↦ absurd hs (Nat.not_lt_zero s)⟩
  have hbest := hst.pickFrom hthreshold drop_zero
  have hlt {s n : ℕ} (hn : Affordable files threshold maxFiles s n) :
      s < 0 + files.length := by
    have := hn.two_le
    have := hn.le_length
    omega
  refine ⟨fun start len h ↦ ?_, fun h start len hrun ↦ ?_⟩
  · obtain ⟨c, hc, heq⟩ := map_eq_some_iff.mp h
    cases heq
    refine ⟨(hbest.affordable c hc).1, fun s n hn ↦ ?_⟩
    obtain ⟨_, hd, hleads⟩ := hbest.leads s n (hlt hn) hn
    rw [hc] at hd
    exact mem_some_iff.mp hd ▸ hleads
  · obtain ⟨c, hc, -⟩ := hbest.leads start len (hlt hrun) hrun
    rw [map_eq_none_iff.mp h] at hc
    exact not_mem_none c hc

/-! ## Runs that are passed over -/

/-- Two neighbours could be merged: together they are smaller than the threshold, and they leave no
LSN hole. -/
def HasPair (files : List SstMeta) (threshold : ℕ) : Prop :=
  ∃ i, i + 2 ≤ files.length ∧ runBytes (runOf files i 2) < threshold ∧
    lsnSpansContiguous (runOf files i 2) = true

/-- Where two neighbours could be merged, something is picked, and what is picked is smaller than
the threshold. -/
structure DoesNotStarve (files : List SstMeta) (threshold maxFiles : ℕ) : Prop where
  picks : HasPair files threshold →
    (pickCompaction files .sizeTiered threshold maxFiles).isSome
  bytes_lt : ∀ start len,
    pickCompaction files .sizeTiered threshold maxFiles = some (start, len) →
      runBytes (runOf files start len) < threshold

theorem pickCompaction_sizeTiered (hlen : 2 ≤ files.length) :
    pickCompaction files .sizeTiered threshold maxFiles =
      (pickSizeTiered files threshold (max maxFiles 2)).bind fun (start, len) ↦
        shrinkToLsnContiguous files start len := by
  rw [pickCompaction, if_neg (by omega)]

theorem runBytes_le_of_inside {start' len' : ℕ} (hst : start ≤ start')
    (hend : start' + len' ≤ start + len) :
    runBytes (runOf files start' len') ≤ runBytes (runOf files start len) := by
  have hsub : (runOf files start' len').Sublist (runOf files start len) := by
    have hrun : runOf files start' len' = runOf (runOf files start len) (start' - start) len' := by
      rw [runOf, runOf, runOf, drop_take, drop_drop, take_take,
        Nat.add_sub_cancel' hst, Nat.min_eq_left (by omega)]
    rw [hrun]
    exact (take_sublist _ _).trans (drop_sublist _ _)
  exact (hsub.map _).sum_le_sum fun _ _ ↦ Nat.zero_le _

/-- **Compaction starves unless there is a run without hole in the leading run.** What it picks is
in any case smaller than the threshold. -/
theorem does_not_starve_iff (files : List SstMeta) (threshold maxFiles : ℕ)
    (hthreshold : threshold < 2 ^ 64) :
    DoesNotStarve files threshold maxFiles ↔
      (HasPair files threshold → ∀ start len,
        Leading files threshold (max maxFiles 2) start len →
          ∃ s n, start ≤ s ∧ s + n ≤ start + len ∧ 2 ≤ n ∧
            lsnSpansContiguous (runOf files s n) = true) := by
  obtain ⟨hleading, hnone⟩ := pickSizeTiered_leads files (max maxFiles 2) hthreshold
  constructor
  · intro h hpair start len hlead
    have hlen : 2 ≤ files.length := by
      obtain ⟨i, hi, -⟩ := hpair
      omega
    obtain ⟨⟨s, n⟩, hpick⟩ := isSome_iff_exists.mp (h.picks hpair)
    rw [pickCompaction_sizeTiered hlen] at hpick
    obtain ⟨⟨start', len'⟩, hraw, hshr⟩ := bind_eq_some_iff.mp hpick
    obtain ⟨rfl, rfl⟩ := hlead.unique (hleading _ _ hraw)
    obtain ⟨hmrg, hs, hn⟩ := shrink_spec hshr
    exact ⟨s, n, hs, hn, hmrg.two_le, hmrg.contiguous⟩
  · intro h
    refine ⟨fun hpair ↦ ?_, fun start len hpick ↦ ?_⟩
    · have ⟨i, hi, hbs, _⟩ := hpair
      have hlen : 2 ≤ files.length := by omega
      rw [pickCompaction_sizeTiered hlen]
      cases hraw : pickSizeTiered files threshold (max maxFiles 2) with
      | none => exact absurd ⟨le_rfl, le_max_right _ _, hi, hbs⟩ (hnone hraw i 2)
      | some r =>
        obtain ⟨start, len⟩ := r
        have hlead := hleading start len hraw
        obtain ⟨s, n, hs, hn, htwo, hcont⟩ := h hpair start len hlead
        have hmrg : Mergeable files s n := ⟨htwo, hn.trans hlead.le_length, hcont⟩
        exact isSome_shrink hlead.two_le hlead.le_length hmrg hs hn
    · unfold pickCompaction at hpick
      split at hpick
      · cases hpick
      · obtain ⟨⟨_, _⟩, hraw, hshr⟩ := bind_eq_some_iff.mp hpick
        obtain ⟨-, hs, hn⟩ := shrink_spec hshr
        exact (runBytes_le_of_inside hs hn).trans_lt (hleading _ _ hraw).bytes_lt

/-- The leading run is that of all files, which has a part without hole. -/
theorem gappedMetas_do_not_starve : DoesNotStarve gappedMetas 100 8 := by
  refine (does_not_starve_iff gappedMetas 100 8 (by decide)).mpr fun _ start len hlead ↦ ?_
  have hall : Affordable gappedMetas 100 8 0 3 := ⟨by decide, by decide, by decide, by decide⟩
  have hleads := hlead.leads 0 3 hall
  have hlen : start + len ≤ 3 := hlead.le_length
  obtain ⟨rfl, rfl⟩ : start = 0 ∧ len = 3 := by
    simp only [Leads] at hleads
    omega
  exact ⟨0, 2, by decide, by decide, by decide, by decide +kernel⟩

/-- Three small files with holes between them, and behind them two larger ones without. -/
def starvedMetas : List SstMeta :=
  [sizedMeta 10 1 1, sizedMeta 10 3 3, sizedMeta 10 5 5, sizedMeta 20 7 7, sizedMeta 14 8 8]

/-- The three small files are the longest run under the threshold. No two of them can be merged, and
the two behind them are not considered. -/
theorem starvedMetas_starve :
    HasPair starvedMetas 35 ∧ pickCompaction starvedMetas .sizeTiered 35 8 = none :=
  ⟨⟨3, by decide, by decide, by decide +kernel⟩, by decide +kernel⟩

end MonoTS
