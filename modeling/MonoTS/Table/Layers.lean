import MonoTS.Table.Machine

/-!
# LSN strata

Recovery trims the WAL by one number: frames up to the largest LSN in an SST are taken to be
flushed. That is right if the LSNs of a table form strata: the SSTs below the queued memtables in
queue order, those below the mutable memtable, and all of them below the allocator.

This module says so of the layers alone. `Layers` is a table without locks, references and program
counters, and `Layers.Step` is what may happen to it: an LSN is recorded that is behind everything
there is, a memtable with rows is frozen, the front of the queue becomes an SST with the memtable's
own span, and a bulk load publishes its LSN when nothing is recorded in memory. The order of the
layers is an invariant of these steps, and a write stays accounted for.
-/

open List

namespace MonoTS

open MemTable

variable {Batch : Type*}

/-! ## Where a write is -/

/-- The memtable accounts for the write: it recorded its LSN and holds its rows, if any. -/
structure MemTable.Holds (shape : BatchShape Batch) (m : MemTable Batch) (w : Write Batch) :
    Prop where
  records : m.Records w.1
  rows : shape.numRows w.2 ≠ 0 → w ∈ m.chunks

/-- The SST accounts for the write: its span covers the LSN and it holds the rows, if any. -/
structure Sst.Holds (shape : BatchShape Batch) (s : Sst (Write Batch)) (w : Write Batch) :
    Prop where
  covers : s.coversLsn w.1 = true
  rows : shape.numRows w.2 ≠ 0 → w ∈ s.contents

section

variable {m : MemTable Batch}

theorem MemTable.toSst_of_pos (h : m.SpanOk) (hpos : 0 < m.baseLsn) :
    m.toSst = ⟨m.baseLsn, m.maxLsn, m.chunks⟩ := by
  rw [toSst, lsnSpan_of_pos h hpos]

theorem MemTable.Holds.toSst {shape : BatchShape Batch} {w : Write Batch} (h : m.Holds shape w) :
    m.toSst.Holds shape w := by
  rw [toSst_of_pos h.records.spanOk h.records.pos]
  exact ⟨Sst.coversLsn_iff.mpr ⟨.inl h.records.pos, h.records.base_le, h.records.le_max⟩, h.rows⟩

end

/-! ## Layers and their steps -/

/-- The layers of a table with their LSNs. -/
structure Layers (Batch : Type*) where
  sstables : List (Sst (Write Batch))
  /-- The frozen memtables, oldest first. -/
  queue : List (MemTable Batch)
  current : MemTable Batch
  /-- An LSN that was allocated for this table and is not recorded yet. -/
  pending : Option ℕ
  nextLsn : ℕ

namespace Layers

/-- The memtables, oldest first. -/
def mems (L : Layers Batch) : List (MemTable Batch) := L.queue ++ [L.current]

/-- What can happen to the layers. -/
inductive Step (L : Layers Batch) : Layers Batch → Prop where
  /-- An LSN goes elsewhere. -/
  | skip : Step L { L with nextLsn := L.nextLsn + 1 }
  | allocate : Step L { L with pending := some L.nextLsn, nextLsn := L.nextLsn + 1 }
  | record {lsn} (hp : L.pending = some lsn) :
    Step L { L with current := L.current.recordLsn lsn, pending := none }
  | store {m : MemTable Batch} (hpos : 0 < L.current.baseLsn)
    (hbase : m.baseLsn = L.current.baseLsn) (hmax : m.maxLsn = L.current.maxLsn)
    (hchunks : ∀ w ∈ L.current.chunks, w ∈ m.chunks) : Step L { L with current := m }
  | freeze (he : L.current.isEmpty = false) :
    Step L { L with queue := L.queue ++ [L.current], current := .new }
  | flush {m rest} (hq : L.queue = m :: rest) :
    Step L { L with sstables := L.sstables ++ [m.toSst], queue := rest }
  | publish {lsn} (writes : List (Write Batch)) (hp : L.pending = some lsn)
    (hq : L.queue = []) (hc : L.current.baseLsn = 0) :
    Step L { L with sstables := L.sstables ++ [⟨lsn, lsn, writes⟩], pending := none }

/-! ## The order of the layers -/

/-- A memtable's span is an interval, and whoever stored rows has recorded an LSN. -/
structure MemOk (m : MemTable Batch) : Prop where
  span : m.SpanOk
  stored : m.isEmpty = false → 0 < m.baseLsn

/-- An allocated LSN is behind everything recorded. -/
structure Fresh (L : Layers Batch) (lsn : ℕ) : Prop where
  pos : 0 < lsn
  lt_next : lsn < L.nextLsn
  sst_lt : ∀ s ∈ L.sstables, s.maxLsn < lsn
  mem_lt : ∀ m ∈ L.mems, m.maxLsn < lsn

/-- The layers are in the order of their LSNs. -/
structure Strata (L : Layers Batch) : Prop where
  next_pos : 0 < L.nextLsn
  memOk : ∀ m ∈ L.mems, MemOk m
  frozen : ∀ m ∈ L.queue, m.isEmpty = false
  sst_lt : ∀ s ∈ L.sstables, ∀ m ∈ L.mems, 0 < m.baseLsn → s.maxLsn < m.baseLsn
  increasing : L.mems.Pairwise fun m m' ↦ 0 < m'.baseLsn → m.maxLsn < m'.baseLsn
  sst_lt_next : ∀ s ∈ L.sstables, s.maxLsn < L.nextLsn
  mem_lt_next : ∀ m ∈ L.mems, m.maxLsn < L.nextLsn
  pending : ∀ lsn, L.pending = some lsn → L.Fresh lsn

variable {L L' : Layers Batch}

theorem mem_mems {m : MemTable Batch} : m ∈ L.mems ↔ m ∈ L.queue ∨ m = L.current := by
  rw [mems, mem_append, mem_singleton]

theorem current_mem : L.current ∈ L.mems := mem_mems.mpr (.inr rfl)

theorem forall_mems {P : MemTable Batch → Prop} :
    (∀ m ∈ L.mems, P m) ↔ (∀ m ∈ L.queue, P m) ∧ P L.current := by
  rw [mems, forall_mem_append, forall_mem_singleton]

theorem pairwise_mems {R : MemTable Batch → MemTable Batch → Prop} :
    L.mems.Pairwise R ↔ L.queue.Pairwise R ∧ ∀ m ∈ L.queue, R m L.current := by
  simp [mems, pairwise_append]

theorem strata_of_new (hqu : L.queue = []) (hcur : L.current = .new)
    (hpend : L.pending = none) (hpos : 0 < L.nextLsn)
    (hssts : ∀ s ∈ L.sstables, s.maxLsn < L.nextLsn) : L.Strata := by
  have hmems : L.mems = [.new] := by rw [mems, hqu, hcur, nil_append]
  refine ⟨hpos, ?_, ?_, ?_, ?_, hssts, ?_, ?_⟩
  · rw [hmems]
    exact forall_mem_singleton.mpr ⟨spanOk_new, Bool.noConfusion⟩
  · rw [hqu]
    exact forall_mem_nil _
  · rw [hmems]
    exact fun _ _ ↦ forall_mem_singleton.mpr fun hlt ↦ absurd hlt (lt_irrefl 0)
  · rw [hmems]
    exact pairwise_singleton _ _
  · rw [hmems]
    exact forall_mem_singleton.mpr hpos
  · rw [hpend]
    rintro _ ⟨⟩

namespace Strata

variable {m : MemTable Batch}

theorem pos_of_mem_queue (h : L.Strata) (hm : m ∈ L.queue) : 0 < m.baseLsn :=
  (h.memOk m (mem_mems.mpr (.inl hm))).stored (h.frozen m hm)

/-- Replacing the current memtable keeps the order if its span starts behind every other layer. -/
theorem setCurrent {p : Option ℕ} (h : L.Strata) (hm : MemOk m)
    (hsst : 0 < m.baseLsn → ∀ s ∈ L.sstables, s.maxLsn < m.baseLsn)
    (hqu : 0 < m.baseLsn → ∀ q ∈ L.queue, q.maxLsn < m.baseLsn) (hnext : m.maxLsn < L.nextLsn)
    (hp : ∀ lsn, p = some lsn → L.Fresh lsn ∧ m.maxLsn < lsn) :
    Strata { L with current := m, pending := p } where
  __ := h
  memOk := forall_mems.mpr ⟨(forall_mems.mp h.memOk).1, hm⟩
  sst_lt := fun s hs ↦
    forall_mems.mpr ⟨(forall_mems.mp (h.sst_lt s hs)).1, fun hpos ↦ hsst hpos s hs⟩
  increasing :=
    pairwise_mems.mpr ⟨(pairwise_mems.mp h.increasing).1, fun q hq hpos ↦ hqu hpos q hq⟩
  mem_lt_next := forall_mems.mpr ⟨(forall_mems.mp h.mem_lt_next).1, hnext⟩
  pending := fun lsn hlsn ↦
    have ⟨hfresh, hlt⟩ := hp lsn hlsn
    ⟨hfresh.pos, hfresh.lt_next, hfresh.sst_lt,
      forall_mems.mpr ⟨(forall_mems.mp hfresh.mem_lt).1, hlt⟩⟩

variable (h : L.Strata)

include h

theorem record {lsn : ℕ} (hp : L.pending = some lsn) :
    Strata { L with current := L.current.recordLsn lsn, pending := none } := by
  have hfresh := h.pending lsn hp
  have hlt : L.current.maxLsn < lsn := hfresh.mem_lt _ current_mem
  have hspan : L.current.SpanOk := (h.memOk _ current_mem).span
  have hrec := records_recordLsn hspan hlt
  have hbase := recordLsn_baseLsn hspan hlt
  refine h.setCurrent ⟨hrec.spanOk, fun _ ↦ hrec.pos⟩ ?_ ?_ ?_ (by rintro _ ⟨⟩)
  -- The span starts where it did, or at the new LSN.
  · intro _ s hs
    rw [hbase]
    split_ifs with hzero
    · exact hfresh.sst_lt s hs
    · exact h.sst_lt s hs _ current_mem (Nat.pos_of_ne_zero hzero)
  · intro _ q hq
    rw [hbase]
    split_ifs with hzero
    · exact hfresh.mem_lt q (mem_mems.mpr (.inl hq))
    · exact (pairwise_mems.mp h.increasing).2 q hq (Nat.pos_of_ne_zero hzero)
  · rw [recordLsn_maxLsn hlt]
    exact hfresh.lt_next

theorem freeze (he : L.current.isEmpty = false) :
    Strata { L with queue := L.queue ++ [L.current], current := .new } where
  __ := h
  memOk := forall_mems.mpr ⟨h.memOk, spanOk_new, Bool.noConfusion⟩
  frozen := forall_mem_append.mpr ⟨h.frozen, forall_mem_singleton.mpr he⟩
  sst_lt := fun s hs ↦ forall_mems.mpr ⟨h.sst_lt s hs, fun hpos ↦ absurd hpos (lt_irrefl 0)⟩
  increasing := pairwise_mems.mpr ⟨h.increasing, fun _ _ hpos ↦ absurd hpos (lt_irrefl 0)⟩
  mem_lt_next := forall_mems.mpr ⟨h.mem_lt_next, h.next_pos⟩
  pending := fun lsn hlsn ↦
    have hfresh := h.pending lsn hlsn
    ⟨hfresh.pos, hfresh.lt_next, hfresh.sst_lt, forall_mems.mpr ⟨hfresh.mem_lt, hfresh.pos⟩⟩

theorem flush {rest : List (MemTable Batch)} (hq : L.queue = m :: rest) :
    Strata { L with sstables := L.sstables ++ [m.toSst], queue := rest } := by
  have hmems : L.mems = m :: (rest ++ [L.current]) := by rw [mems, hq, cons_append]
  have hm : m ∈ L.mems := by rw [hmems]; exact mem_cons_self
  have hsub : ∀ x ∈ rest ++ [L.current], x ∈ L.mems := fun x hx ↦ by
    rw [hmems]; exact mem_cons_of_mem _ hx
  have hpos : 0 < m.baseLsn := h.pos_of_mem_queue (hq ▸ mem_cons_self)
  have hmax : m.toSst.maxLsn = m.maxLsn := by
    rw [toSst_of_pos (h.memOk m hm).span hpos]
  have hpair := hmems ▸ h.increasing
  rw [pairwise_cons] at hpair
  constructor
  · exact h.next_pos
  · exact fun x hx ↦ h.memOk x (hsub x hx)
  · exact fun x hx ↦ h.frozen x (hq ▸ mem_cons_of_mem _ hx)
  · exact forall_mem_append.mpr ⟨fun s hs x hx ↦ h.sst_lt s hs x (hsub x hx),
      forall_mem_singleton.mpr (hmax.symm ▸ hpair.1)⟩
  · exact hpair.2
  · exact forall_mem_append.mpr
      ⟨h.sst_lt_next, forall_mem_singleton.mpr (hmax.symm ▸ h.mem_lt_next m hm)⟩
  · exact fun x hx ↦ h.mem_lt_next x (hsub x hx)
  · intro lsn hlsn
    have hfresh := h.pending lsn hlsn
    refine ⟨hfresh.pos, hfresh.lt_next, ?_, fun x hx ↦ hfresh.mem_lt x (hsub x hx)⟩
    exact forall_mem_append.mpr
      ⟨hfresh.sst_lt, forall_mem_singleton.mpr (hmax.symm ▸ hfresh.mem_lt m hm)⟩

theorem publish {lsn : ℕ} (writes : List (Write Batch)) (hp : L.pending = some lsn)
    (hq : L.queue = []) (hc : L.current.baseLsn = 0) :
    Strata { L with sstables := L.sstables ++ [⟨lsn, lsn, writes⟩], pending := none } := by
  have hfresh := h.pending lsn hp
  -- With nothing queued and nothing recorded, no memtable has a span to stay below.
  have hbase : ∀ m ∈ L.mems, ¬ 0 < m.baseLsn := by
    rw [forall_mems, hq]
    exact ⟨forall_mem_nil _, hc.not_gt⟩
  refine ⟨h.next_pos, h.memOk, h.frozen, fun _ _ m hm hpos ↦ absurd hpos (hbase m hm), h.increasing,
    ?_, h.mem_lt_next, by rintro _ ⟨⟩⟩
  exact forall_mem_append.mpr ⟨h.sst_lt_next, forall_mem_singleton.mpr hfresh.lt_next⟩

/-- **The order of the layers is kept by every step.** -/
theorem step (hs : Step L L') : L'.Strata := by
  have hsucc := Nat.lt_succ_self L.nextLsn
  have hsst : ∀ s ∈ L.sstables, s.maxLsn < L.nextLsn + 1 :=
    fun s hs ↦ (h.sst_lt_next s hs).trans hsucc
  have hmem : ∀ m ∈ L.mems, m.maxLsn < L.nextLsn + 1 := fun m hm ↦ (h.mem_lt_next m hm).trans hsucc
  cases hs with
  | skip =>
    refine ⟨Nat.succ_pos _, h.memOk, h.frozen, h.sst_lt, h.increasing, hsst, hmem, ?_⟩
    intro lsn hlsn
    have hfresh := h.pending lsn hlsn
    exact ⟨hfresh.pos, hfresh.lt_next.trans hsucc, hfresh.sst_lt, hfresh.mem_lt⟩
  | allocate =>
    refine ⟨Nat.succ_pos _, h.memOk, h.frozen, h.sst_lt, h.increasing, hsst, hmem, ?_⟩
    rintro _ ⟨⟩
    exact ⟨h.next_pos, hsucc, h.sst_lt_next, h.mem_lt_next⟩
  | record hp => exact h.record hp
  | store hpos hbase hmax _ =>
    have hok := (h.memOk _ current_mem).span
    refine h.setCurrent ⟨⟨hbase ▸ hmax ▸ hok.le, fun hzero ↦ ?_⟩, fun _ ↦ hbase ▸ hpos⟩ ?_ ?_ ?_ ?_
    · exact absurd (hbase ▸ hzero) hpos.ne'
    · exact fun _ s hs ↦ hbase ▸ h.sst_lt s hs _ current_mem hpos
    · exact fun _ q hq ↦ hbase ▸ (pairwise_mems.mp h.increasing).2 q hq hpos
    · exact hmax ▸ h.mem_lt_next _ current_mem
    · exact fun lsn hlsn ↦ ⟨h.pending lsn hlsn, hmax ▸ (h.pending lsn hlsn).mem_lt _ current_mem⟩
  | freeze he => exact h.freeze he
  | flush hq => exact h.flush hq
  | publish writes hp hq hc => exact h.publish writes hp hq hc

end Strata

/-! ## Writes stay accounted for -/

/-- A memtable or an SST accounts for the write. -/
def Placed (shape : BatchShape Batch) (L : Layers Batch) (w : Write Batch) : Prop :=
  (∃ m ∈ L.mems, m.Holds shape w) ∨ ∃ s ∈ L.sstables, s.Holds shape w

variable {shape : BatchShape Batch}

theorem Placed.step {w : Write Batch} (h : L.Placed shape w) (hL : L.Strata) (hs : Step L L') :
    L'.Placed shape w := by
  rcases h with ⟨m, hm, hw⟩ | ⟨s, hsst, hw⟩
  · cases hs with
    | skip | allocate | publish => exact .inl ⟨m, hm, hw⟩
    | @record lsn hp =>
      rcases mem_mems.mp hm with hm | rfl
      · exact .inl ⟨m, mem_mems.mpr (.inl hm), hw⟩
      · have hlt := (hL.pending lsn hp).mem_lt _ current_mem
        refine .inl ⟨_, current_mem, hw.records.recordLsn hlt, fun hrows ↦ ?_⟩
        rw [recordLsn_chunks]
        exact hw.rows hrows
    | store hpos hbase hmax hch =>
      rcases mem_mems.mp hm with hm | rfl
      · exact .inl ⟨m, mem_mems.mpr (.inl hm), hw⟩
      · have hrec := hw.records
        exact .inl ⟨_, current_mem, ⟨hbase ▸ hrec.pos, hbase ▸ hrec.base_le, hmax ▸ hrec.le_max⟩,
          fun hrows ↦ hch w (hw.rows hrows)⟩
    | freeze => exact .inl ⟨m, mem_mems.mpr (.inl hm), hw⟩
    | flush hq =>
      rw [mems, hq, cons_append, mem_cons] at hm
      rcases hm with rfl | hm
      · exact .inr ⟨_, mem_append_right _ mem_cons_self, hw.toSst⟩
      · exact .inl ⟨m, hm, hw⟩
  · cases hs with
    | skip | allocate | record | store | freeze => exact .inr ⟨s, hsst, hw⟩
    | flush | publish => exact .inr ⟨s, mem_append_left _ hsst, hw⟩

/-- What is accounted for and not behind the largest LSN of an SST is in an SST. -/
theorem Placed.in_sst {w : Write Batch} (h : L.Placed shape w) (hL : L.Strata)
    (hle : w.1 ≤ maxLsnInSstMetas L.sstables) : ∃ s ∈ L.sstables, s.Holds shape w := by
  rcases h with ⟨m, hm, hw⟩ | h
  · have hlt : maxLsnInSstMetas L.sstables < m.baseLsn :=
      maxLsnInSstMetas_lt hw.records.pos fun s hs ↦ hL.sst_lt s hs m hm hw.records.pos
    exact absurd (hlt.trans_le hw.records.base_le) hle.not_gt
  · exact h

end Layers

end MonoTS
