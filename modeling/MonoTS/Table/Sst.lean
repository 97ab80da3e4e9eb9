import MonoTS.Table.MemTable

/-!
# SSTs in the index

What the table and the WAL know of an SST: its sealed LSN span. The index is a list without a
particular order here; nothing in this part depends on where in the index a file stands. For
statements about what a table holds, an SST comes with its contents: the writes of the memtable
snapshot it was written from, or the batches recovery rebuilt it from.
-/

namespace MonoTS

/-- An SST in the index: its sealed LSN span and what it holds. -/
structure Sst (ρ : Type*) where
  baseLsn : ℕ
  maxLsn : ℕ
  contents : List ρ
  deriving DecidableEq, Repr

variable {ρ Batch : Type*}

namespace Sst

def hasLsnBounds (s : Sst ρ) : Bool := 0 < s.baseLsn ∨ 0 < s.maxLsn

def coversLsn (s : Sst ρ) (lsn : ℕ) : Bool :=
  s.hasLsnBounds ∧ s.baseLsn ≤ lsn ∧ lsn ≤ s.maxLsn

theorem coversLsn_iff {s : Sst ρ} {lsn : ℕ} :
    s.coversLsn lsn = true ↔ (0 < s.baseLsn ∨ 0 < s.maxLsn) ∧ s.baseLsn ≤ lsn ∧ lsn ≤ s.maxLsn := by
  simp [coversLsn, hasLsnBounds]

/-- The order of the SST layers of a scan: by base LSN, then by largest LSN. -/
def keyLe (a b : Sst ρ) : Prop :=
  a.baseLsn < b.baseLsn ∨ a.baseLsn = b.baseLsn ∧ a.maxLsn ≤ b.maxLsn

instance : DecidableRel (@keyLe ρ) := fun _ _ ↦ inferInstanceAs (Decidable (_ ∨ _ ∧ _))

end Sst

/-- The SST of a memtable. -/
def MemTable.toSst (m : MemTable Batch) : Sst (Write Batch) := ⟨m.lsnSpan.1, m.lsnSpan.2, m.chunks⟩

/-! ## The trim point of recovery -/

def maxLsnInSstMetas (ssts : List (Sst ρ)) : ℕ := (ssts.map Sst.maxLsn).foldr max 0

variable {ssts : List (Sst ρ)}

theorem le_maxLsnInSstMetas {s : Sst ρ} (h : s ∈ ssts) : s.maxLsn ≤ maxLsnInSstMetas ssts :=
  List.le_max_of_le (List.mem_map_of_mem h) le_rfl

theorem maxLsnInSstMetas_lt {l : ℕ} (hpos : 0 < l) (h : ∀ s ∈ ssts, s.maxLsn < l) :
    maxLsnInSstMetas ssts < l := by
  have hle : maxLsnInSstMetas ssts ≤ l - 1 :=
    List.max_le_of_forall_le _ _ (List.forall_mem_map.mpr fun s hs ↦ Nat.le_sub_one_of_lt (h s hs))
  exact Nat.lt_of_le_sub_one hpos hle

theorem maxLsnInSstMetas_lt_iff {l : ℕ} (hpos : 0 < l) :
    maxLsnInSstMetas ssts < l ↔ ∀ s ∈ ssts, s.maxLsn < l :=
  ⟨fun h _ hs ↦ (le_maxLsnInSstMetas hs).trans_lt h, maxLsnInSstMetas_lt hpos⟩

theorem maxLsnInSstMetas_mono {ssts' : List (Sst ρ)} (h : ∀ s ∈ ssts, s ∈ ssts') :
    maxLsnInSstMetas ssts ≤ maxLsnInSstMetas ssts' := by
  refine Nat.lt_succ_iff.mp (maxLsnInSstMetas_lt (Nat.succ_pos _) fun s hs ↦ ?_)
  exact Nat.lt_succ_of_le (le_maxLsnInSstMetas (h s hs))

end MonoTS
