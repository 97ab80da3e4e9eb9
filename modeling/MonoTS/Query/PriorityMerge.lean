import MonoTS.Query.LsmStream

/-!
# What the merge stream of a query gives

The invariant of the merge stream is about the rows it has noted and the rows that are left of its
inputs. A poll that is pending keeps the batches that are still to be given, and one that gives a
batch takes the first of them (`pollNext_answers`); every poll has less work left, so that the
stream is done after some number of polls, and has then given all of them (`drain_eq`).

For a new stream they are the merge of what is read of the layers, which is what they have in front
of their first empty batch (`drain_new`). It is the merge of the layers if that is enough to decide
every timestamp (`yields_priorityMerge_iff`).
-/

open List KWayMerge

namespace MonoTS

open OrderDual (toDual)
open Windows

namespace LsmStream

variable {ρ : Type*} {table : Address → List (ℤ × ρ)}

/-- The row is where it is noted to be. -/
def Good (table : Address → List (ℤ × ρ)) (x : ℤ × Ref ρ) : Prop :=
  x.2.1.batch = table x.2.1.key ∧ x.2.1.batch[x.2.1.row]? = some (x.1, x.2.2)

/-- The row of a cursor. -/
def HeapCursor.ref (c : HeapCursor ρ) (v : ρ) : ℤ × Ref ρ :=
  (c.ts, ⟨c.batch, c.rowIdx, c.address⟩, v)

/-- The row itself. -/
def row (x : ℤ × Ref ρ) : ℤ × ρ := (x.1, x.2.2)

/-! ## What is read -/

/-- The rows in front of the first empty batch. -/
def readRowsOf : List (Event ρ) → List (ℤ × ρ)
  | [] => []
  | .batch [] :: _ => []
  | .batch (x :: rows) :: events => (x :: rows) ++ readRowsOf events
  | .pending :: events => readRowsOf events
  | .error _ :: events => readRowsOf events

variable (l : LayerStream ρ)

/-- The rows of a layer that are read. -/
def LayerStream.readRows : List (ℤ × ρ) := readRowsOf l.events

theorem LayerStream.readRows_sublist : l.readRows.Sublist l.rows := by
  obtain ⟨events, _, _⟩ := l
  induction events with
  | nil => exact .slnil
  | cons event events ih =>
    match event with
    | .pending => exact ih
    | .error _ => exact ih
    | .batch [] => exact nil_sublist _
    | .batch (x :: rows) => exact ih.append_left (x :: rows)

theorem map_row_visible (idx fetched : ℕ) (events : List (Event ρ)) :
    (visible idx fetched events).map row = readRowsOf events := by
  induction events generalizing fetched with
  | nil => rfl
  | cons event events ih =>
    match event with
    | .pending => exact ih fetched
    | .error _ => exact ih fetched
    | .batch [] => rfl
    | .batch (x :: rows) =>
      have htag : (tagBatch (idx, fetched + 1) (x :: rows)).map row = x :: rows := by
        rw [tagBatch, map_map]
        exact zipIdx_map_fst 0 (x :: rows)
      rw [visible, map_append, htag, ih, readRowsOf]

namespace MergeStream

/-! ## The invariant -/

/-- The state with the rows that have been noted. -/
structure Inv (table : Address → List (ℤ × ρ)) (s : MergeStream ρ) (noted : List (ℤ × Ref ρ)) :
    Prop where
  valid : s.Valid s.waiting
  phase : s.initialized = false → s.pendingStreamFetch = none
  ready : Ready (s.inputs s.waiting) s.lastEmittedTs
  chunk : s.chunk.Holds (noted.map fun x ↦ x.2.1)
  short : noted.length < outputBatchSize
  good_noted : ∀ x ∈ noted, Good table x
  good : ∀ c ∈ s.inputs s.waiting, ∀ x ∈ c.rows, Good table x

variable (s : MergeStream ρ) (noted : List (ℤ × Ref ρ))

/-- The batches that are still to be given. -/
def batchesLeft : List (List (ℤ × ρ)) :=
  (windowsFrom outputBatchSize noted
    (mergeAll (s.inputs s.waiting) s.lastEmittedTs)).map (List.map row)

/-- Every row is popped and handed on, and every answer of an input is taken. -/
def work : ℕ :=
  2 * size (s.inputs s.waiting) + s.eventsLeft + noted.length

/-- What a poll may answer. -/
def Answers (table : Address → List (ℤ × ρ)) (s : MergeStream ρ) (noted : List (ℤ × Ref ρ)) :
    Poll (Option (Result (List (ℤ × ρ)))) × MergeStream ρ → Prop
  | (.pending, s') => ∃ noted', s'.Inv table noted' ∧
      s.batchesLeft noted = s'.batchesLeft noted' ∧ s'.work noted' < s.work noted
  | (.ready none, _) => s.batchesLeft noted = []
  | (.ready (some (.ok batch)), s') => ∃ noted', s'.Inv table noted' ∧
      s.batchesLeft noted = batch :: s'.batchesLeft noted' ∧ s'.work noted' < s.work noted
  | (.ready (some (.error _)), _) => False

variable {s s' : MergeStream ρ} {noted noted' : List (ℤ × Ref ρ)}

theorem Answers.of_le {answer : Poll (Option (Result (List (ℤ × ρ)))) × MergeStream ρ}
    (h : s'.Answers table noted' answer) (hleft : s.batchesLeft noted = s'.batchesLeft noted')
    (hwork : s'.work noted' ≤ s.work noted) : s.Answers table noted answer := by
  match answer, h with
  | (.pending, _), ⟨noted'', hinv, hbs, hlt⟩ =>
    exact ⟨noted'', hinv, hleft.trans hbs, hlt.trans_le hwork⟩
  | (.ready none, _), h => exact hleft.trans h
  | (.ready (some (.ok _)), _), ⟨noted'', hinv, hbs, hlt⟩ =>
    exact ⟨noted'', hinv, hleft.trans hbs, hlt.trans_le hwork⟩

/-! ## Polling the inputs -/

/-- The second state has the same batches left. -/
structure Continues (table : Address → List (ℤ × ρ)) (noted : List (ℤ × Ref ρ))
    (s s' : MergeStream ρ) : Prop where
  inv : s'.Inv table noted
  left : s.batchesLeft noted = s'.batchesLeft noted
  size : size (s'.inputs s'.waiting) = size (s.inputs s.waiting)
  events : s'.eventsLeft ≤ s.eventsLeft

theorem Continues.work_le (h : Continues table noted s s') : s'.work noted ≤ s.work noted := by
  have := h.events
  rw [work, work, h.size]
  omega

theorem Continues.work_lt (h : Continues table noted s s') (hlt : s'.eventsLeft < s.eventsLeft) :
    s'.work noted < s.work noted := by
  rw [work, work, h.size]
  omega

theorem Continues.trans {s'' : MergeStream ρ} (h : Continues table noted s s')
    (h' : Continues table noted s' s'') :
    Continues table noted s s'' where
  inv := h'.inv
  left := h.left.trans h'.left
  size := h'.size.trans h.size
  events := h'.events.trans h.events

theorem Inv.continues (h : s.Inv table noted) (hkeep : s.Keeps s.waiting s' s'.waiting)
    (hph : s'.initialized = false → s'.pendingStreamFetch = none) :
    Continues table noted s s' where
  inv := by
    refine ⟨hkeep.valid, hph, ?_, hkeep.chunk ▸ h.chunk, h.short, h.good_noted,
      fun c hc ↦ h.good c (hkeep.inputs.mem_iff.mp hc)⟩
    rw [hkeep.lastTs]
    exact h.ready.perm hkeep.inputs.symm
  left := by
    rw [batchesLeft, batchesLeft, hkeep.lastTs, mergeAll_perm h.ready hkeep.inputs.symm]
  size := (hkeep.inputs.map _).sum_nat
  events := hkeep.events

/-- Initialization polls the inputs in turn, until one is pending. -/
theorem initializeFrom_spec {left : ℕ} (h : s.Inv table noted) (hinit : s.initialized = false)
    (hleft : s.streams.length - s.streamInitIdx = left) :
    ∃ s', Continues table noted s s' ∧
      (s.initializeFrom left = (.pending, s') ∧ s'.eventsLeft < s.eventsLeft ∨
        s.initializeFrom left = (.ready (.ok ()), s') ∧ s'.initialized = true ∧
          s'.pendingStreamFetch = none) := by
  induction left generalizing s with
  | zero =>
    refine ⟨{ s with initialized := true }, h.continues ?_ (by simp),
      .inr ⟨rfl, rfl, h.phase hinit⟩⟩
    have hwait : s.waiting = [] := by simp [waiting, hinit, h.phase hinit, hleft]
    rw [hwait, waiting_eq_nil rfl (by exact h.phase hinit)]
    exact (Keeps.refl (hwait ▸ h.valid)).congr rfl rfl rfl rfl
  | succ left ih =>
    have hwait : s.waiting = s.streamInitIdx :: List.range' (s.streamInitIdx + 1) left := by
      simp [waiting, hinit, h.phase hinit, hleft, range'_succ]
    rw [initializeFrom]
    obtain ⟨streams, heap, ⟨hft, hkeep, hevs⟩ | ⟨hft, hkeep⟩⟩ := fetch_keeps (hwait ▸ h.valid)
    · refine ⟨{ s with streams := streams, heap := heap }, h.continues ?_ h.phase, .inl ⟨?_, hevs⟩⟩
      · have hlen := hkeep.length
        have hwait' : ({ s with streams := streams, heap := heap } : MergeStream ρ).waiting =
            s.waiting := by
          simp only [waiting] at hlen ⊢
          rw [hlen]
        rw [hwait', hwait]
        exact hkeep
      · rw [hft]
    · have hlen : streams.length = s.streams.length := hkeep.length
      have hcont : Continues table noted s
          { s with streams := streams, heap := heap, streamInitIdx := s.streamInitIdx + 1 } := by
        refine h.continues ?_ h.phase
        have hwait' : ({ s with
            streams := streams
            heap := heap
            streamInitIdx := s.streamInitIdx + 1 } : MergeStream ρ).waiting =
              List.range' (s.streamInitIdx + 1) left := by
          simp only [waiting, hinit, h.phase hinit, hlen]
          rw [show s.streams.length - (s.streamInitIdx + 1) = left by omega]
          simp
        rw [hwait', hwait]
        exact hkeep.congr rfl rfl rfl rfl
      obtain ⟨s', hcont', hans⟩ := ih hcont.inv hinit (by simp only [hlen]; omega)
      refine ⟨s', hcont.trans hcont', ?_⟩
      rw [hft]
      exact hans.imp_left fun hp ↦ ⟨hp.1, hp.2.trans_le hcont.events⟩

theorem ensureInitialized_spec (h : s.Inv table noted) (hpend : s.pendingStreamFetch = none) :
    ∃ s', Continues table noted s s' ∧
      (s.ensureInitialized = (.pending, s') ∧ s'.eventsLeft < s.eventsLeft ∨
        s.ensureInitialized = (.ready (.ok ()), s') ∧ s'.initialized = true ∧
          s'.pendingStreamFetch = none) := by
  rw [ensureInitialized]
  split_ifs with hinit
  · exact ⟨s, ⟨h, rfl, rfl, le_rfl⟩, .inr ⟨rfl, hinit, hpend⟩⟩
  · exact initializeFrom_spec h (by simpa using hinit) rfl

theorem continuePendingFetch_spec {idx : ℕ} (h : s.Inv table noted)
    (hpend : s.pendingStreamFetch = some idx) :
    ∃ s', Continues table noted s s' ∧
      (s.continuePendingFetch idx = (.pending, s') ∧ s'.eventsLeft < s.eventsLeft ∨
        s.continuePendingFetch idx = (.ready (.ok ()), s') ∧ s'.pendingStreamFetch = none) := by
  have hinit : s.initialized = true := by
    by_contra hnot
    cases hpend.symm.trans (h.phase (by simpa using hnot))
  have hwait := waiting_eq_singleton hinit hpend
  rw [continuePendingFetch]
  obtain ⟨streams, heap, ⟨hft, hkeep, hevs⟩ | ⟨hft, hkeep⟩⟩ := fetch_keeps (hwait ▸ h.valid)
  · refine ⟨{ s with streams := streams, heap := heap }, h.continues ?_ h.phase, .inl ⟨?_, hevs⟩⟩
    · rw [hwait, waiting_eq_singleton (by exact hinit) (by exact hpend)]
      exact hkeep
    · rw [hft]
  · refine ⟨{ s with streams := streams, heap := heap, pendingStreamFetch := none },
      h.continues ?_ fun _ ↦ rfl, .inr ⟨?_, rfl⟩⟩
    · rw [hwait, waiting_eq_nil (by exact hinit) rfl]
      exact hkeep.congr rfl rfl rfl rfl
    · rw [hft]

/-! ## The merge loop -/

theorem takeChunk_eq (hch : s.chunk.Holds (noted.map fun x ↦ x.2.1))
    (hgood : ∀ x ∈ noted, Good table x) :
    s.takeChunk = (.ok (noted.map row), { s with chunk := .empty }) := by
  have hgath : Gather.gather s.chunk.sources s.chunk.indices = some (noted.map row) := by
    rw [Gather.gather_eq_some, hch.map_rowAt, map_map, map_map]
    refine map_congr_left fun x hx ↦ ?_
    have hmem : x.2.1 ∈ noted.map fun x ↦ x.2.1 := mem_map_of_mem hx
    refine (Gather.resolve_eq hmem fun f hf hkey ↦ ?_).trans (hgood x hx).2
    obtain ⟨y, hy, rfl⟩ := mem_map.mp hf
    rw [(hgood y hy).1, hkey, (hgood x hx).1]
  rw [takeChunk, hgath]

theorem outputBatchSize_pos : 0 < outputBatchSize := Nat.succ_pos _

theorem flush_answers (h : s.Inv table noted) (hin : s.inputs s.waiting = []) :
    s.Answers table noted s.flush := by
  have hleft {noted : List (ℤ × Ref ρ)} {s : MergeStream ρ} (hin : s.inputs s.waiting = []) :
      s.batchesLeft noted = if noted.isEmpty then [] else [noted.map row] := by
    rw [batchesLeft, hin, mergeAll, size, map_nil, sum_nil, KWayMerge.merge, windowsFrom]
    split_ifs <;> rfl
  have hemp : s.chunk.indices.isEmpty = noted.isEmpty := by
    rw [Bool.eq_iff_iff, isEmpty_iff_length_eq_zero, isEmpty_iff_length_eq_zero,
      h.chunk.length_indices, length_map]
  rw [flush, hemp]
  split_ifs with hnoted
  · exact (hleft hin).trans (if_pos hnoted)
  · rw [takeChunk_eq h.chunk h.good_noted]
    refine ⟨[], ⟨h.valid.congr rfl rfl, h.phase, h.ready, Gather.Table.holds_empty,
      outputBatchSize_pos, forall_mem_nil _, h.good⟩, ?_, ?_⟩
    · rw [hleft hin, if_neg hnoted, hleft (by exact hin), if_pos isEmpty_nil]
    · have hpos : 0 < noted.length :=
        length_pos_iff.mpr fun hnil ↦ hnoted (List.isEmpty_iff.mpr hnil)
      exact Nat.add_lt_add_left hpos _

/-- A cursor has been popped and advanced, and the given rows are left. -/
structure Advanced (table : Address → List (ℤ × ρ)) (s : MergeStream ρ)
    (rows noted : List (ℤ × Ref ρ)) (s' : MergeStream ρ) : Prop where
  inv : s'.Inv table noted
  initialized : s'.initialized = true
  left : s'.batchesLeft noted = (windowsFrom outputBatchSize noted rows).map (List.map row)
  size : size (s'.inputs s'.waiting) + 1 = size (s.inputs s.waiting)
  events : s'.eventsLeft ≤ s.eventsLeft

/-- **A popped cursor** has the first row of the merge, unless its timestamp was the last one. When
it has been advanced, the rest of the merge is left, whatever has become of the chunk. -/
theorem popCursor_advanced {c : HeapCursor ρ} {rest : List (HeapCursor ρ)} (h : s.Inv table noted)
    (hinit : s.initialized = true) (hpend : s.pendingStreamFetch = none)
    (hpop : popCursor s.heap = some (c, rest)) :
    ∃ (v : ρ) (rows : List (ℤ × Ref ρ)), Good table (c.ref v) ∧
      mergeAll (s.inputs s.waiting) s.lastEmittedTs =
        (if s.lastEmittedTs = some c.ts then rows else c.ref v :: rows) ∧
      ∀ (noted' : List (ℤ × Ref ρ)) (chunk : Gather.Table Address (ℤ × ρ)),
        chunk.Holds (noted'.map fun x ↦ x.2.1) → noted'.length < outputBatchSize →
        (∀ x ∈ noted', Good table x) →
        ∃ s', s.Advanced table rows noted' s' ∧
          let popped : MergeStream ρ :=
            { s with heap := rest, lastEmittedTs := some c.ts, chunk := chunk }
          (popped.advanceCursor c = (.ready (.ok ()), s') ∧ s'.pendingStreamFetch = none ∨
            popped.advanceCursor c = (.pending, s')) := by
  have hwait := waiting_eq_nil hinit hpend
  have hval := h.valid
  have hrdy := h.ready
  have hgood := h.good
  rw [hwait] at hval hrdy hgood ⊢
  obtain ⟨hval', v, -, hperm, hfst⟩ := inputs_perm_of_popCursor hval hpop
  have hmem : s.refCursor c v ∈ s.inputs [] := hperm.mem_iff.mpr mem_cons_self
  have hprio := (hval.cursors c ((popMin_spec hpop).1.mem_iff.mpr mem_cons_self)).priority
  refine ⟨v, mergeAll (push (s.refCursor c v)
    (({ s with heap := rest } : MergeStream ρ).inputs [])) (some c.ts),
    hgood _ hmem _ mem_cons_self, ?_, fun noted' chunk hch hshort hgood' ↦ ?_⟩
  · rw [mergeAll_of_first hrdy hperm hfst]
    change (if s.lastEmittedTs = some c.ts then _ else _) = _
    split_ifs with hlast
    · rw [hlast]
    · rfl
  · obtain ⟨s', hval', hinit', hin, hlast, hch', hevs, hans⟩ :=
      advanceCursor_spec (s := { s with heap := rest, lastEmittedTs := some c.ts, chunk := chunk })
        (v := v) (hval'.congr rfl rfl) hprio hinit hpend
    have hrdy' := hrdy.push_of_first hperm hfst
    refine ⟨s', ⟨⟨hval', ?_, ?_, ?_, hshort, hgood', ?_⟩, hinit', ?_, ?_, hevs⟩, hans⟩
    · intro hnot
      cases hinit'.symm.trans hnot
    · rw [hlast]
      exact hrdy'.perm hin.symm
    · rw [hch']
      exact hch
    · intro d hd x hx
      rcases mem_push.mp (hin.mem_iff.mp hd) with ⟨-, hrows⟩ | hd
      · exact hgood _ hmem x (mem_cons_of_mem _ (hrows ▸ hx))
      · exact hgood d (hperm.mem_iff.mpr (mem_cons_of_mem _ hd)) x hx
    · rw [batchesLeft, hlast]
      exact congrArg
        (fun rows ↦ (windowsFrom outputBatchSize noted' rows).map (List.map row))
        (mergeAll_perm (hrdy'.perm hin.symm) hin)
    · rw [hwait, ← size_push hperm]
      exact congrArg (· + 1) (hin.map _).sum_nat

theorem Advanced.work_lt {rows : List (ℤ × Ref ρ)} (h : s.Advanced table rows noted' s')
    (hle : noted'.length ≤ noted.length + 1) : s'.work noted' < s.work noted := by
  have := h.size
  have := h.events
  rw [work, work]
  omega

/-- **The merge loop** ends before its bound. -/
theorem mergeLoop_answers {fuel : ℕ} (h : s.Inv table noted) (hinit : s.initialized = true)
    (hpend : s.pendingStreamFetch = none) (hfuel : size (s.inputs s.waiting) < fuel) :
    s.Answers table noted (s.mergeLoop fuel) := by
  induction fuel generalizing s noted with
  | zero => exact absurd hfuel (Nat.not_lt_zero _)
  | succ fuel ih =>
    have hnotF : ¬ outputBatchSize ≤ s.chunk.indices.length := by
      rw [h.chunk.length_indices, length_map]
      exact h.short.not_ge
    rw [mergeLoop, if_neg hnotF]
    cases hpop : popCursor s.heap with
    | none =>
      refine flush_answers h ?_
      rw [waiting_eq_nil hinit hpend, inputs_nil, popMin_eq_none.mp hpop]
      rfl
    | some popped =>
      obtain ⟨c, _⟩ := popped
      obtain ⟨v, _, hgood, hmrg, hadv⟩ := popCursor_advanced h hinit hpend hpop
      simp only
      by_cases hlast : s.lastEmittedTs = some c.ts
      · -- the timestamp was the last one: nothing is noted
        rw [if_pos hlast] at hmrg ⊢
        obtain ⟨s', hs', hans⟩ := hadv noted s.chunk h.chunk h.short h.good_noted
        have hleft : s.batchesLeft noted = s'.batchesLeft noted := by
          rw [hs'.left, batchesLeft, hmrg]
        have hlt : s'.work noted < s.work noted := hs'.work_lt (Nat.le_succ _)
        have hsize := hs'.size
        rw [← hlast] at hans
        rcases hans with ⟨hadv, hnone⟩ | hadv
        · rw [hadv]
          exact (ih hs'.inv hs'.initialized hnone (by omega)).of_le hleft hlt.le
        · rw [hadv]
          exact ⟨noted, hs'.inv, hleft, hlt⟩
      · rw [if_neg hlast] at hmrg ⊢
        have hhold : (s.chunk.push c.batch c.rowIdx c.address).Holds
            ((noted ++ [c.ref v]).map fun x ↦ x.2.1) := by
          rw [map_append]
          exact h.chunk.push ⟨c.batch, c.rowIdx, c.address⟩
        have hgood' : ∀ x ∈ noted ++ [c.ref v], Good table x :=
          forall_mem_append.mpr ⟨h.good_noted, forall_mem_singleton.mpr hgood⟩
        rw [hhold.length_indices, length_map]
        split_ifs with hfull
        · -- the row fills the chunk, which is handed on before the cursor is advanced
          rw [takeChunk_eq (by exact hhold) hgood']
          simp only
          obtain ⟨s', hs', hans⟩ :=
            hadv [] .empty Gather.Table.holds_empty outputBatchSize_pos nofun
          have hleft : s.batchesLeft noted = (noted ++ [c.ref v]).map row :: s'.batchesLeft [] := by
            rw [hs'.left, batchesLeft, hmrg, windowsFrom, if_pos hfull, map_cons]
          have hlt : s'.work [] < s.work noted := hs'.work_lt (Nat.zero_le _)
          rcases hans with ⟨hadv, -⟩ | hadv
          all_goals
            rw [hadv]
            exact ⟨[], hs'.inv, hleft, hlt⟩
        · obtain ⟨s', hs', hans⟩ := hadv _ _ hhold (Nat.lt_of_not_le hfull) hgood'
          have hleft : s.batchesLeft noted = s'.batchesLeft (noted ++ [c.ref v]) := by
            rw [hs'.left, batchesLeft, hmrg, windowsFrom, if_neg hfull]
          have hlt := hs'.work_lt (length_append).le
          have hsize := hs'.size
          rcases hans with ⟨hadv, hnone⟩ | hadv
          · rw [hadv]
            exact (ih hs'.inv hs'.initialized hnone (by omega)).of_le hleft hlt.le
          · rw [hadv]
            exact ⟨_, hs'.inv, hleft, hlt⟩

/-! ## Polls -/

theorem length_visible_le (idx fetched : ℕ) (l : LayerStream ρ) :
    (visible idx fetched l.events).length ≤ l.rows.length := by
  rw [← length_map row, map_row_visible]
  exact l.readRows_sublist.length_le

theorem size_inputs_le_rowsLeft (s : MergeStream ρ) : size (s.inputs []) ≤ s.rowsLeft := by
  rw [inputs_nil, size_sources, map_map, rowsLeft]
  refine sum_le_sum fun c _ ↦ ?_
  have hstr : (s.streamRows c.streamIdx).length ≤
      s.streams[c.streamIdx]?.elim 0 fun l ↦ l.rows.length := by
    rw [streamRows]
    cases s.streams[c.streamIdx]? with
    | none => exact le_rfl
    | some l => exact length_visible_le _ _ _
  simp only [Function.comp_apply, cursorRows, tagBatch, length_append, length_drop,
    length_map, length_zipIdx]
  omega

section

variable (h : s.Inv table noted)

include h

theorem pollInitialized_answers (hpend : s.pendingStreamFetch = none) :
    s.Answers table noted s.pollInitialized := by
  rw [pollInitialized]
  obtain ⟨s', hs', ⟨hans, hlt⟩ | ⟨hans, hinit, hnone⟩⟩ := ensureInitialized_spec h hpend
  · rw [hans]
    exact ⟨noted, hs'.inv, hs'.left, hs'.work_lt hlt⟩
  · rw [hans]
    refine (mergeLoop_answers hs'.inv hinit hnone ?_).of_le hs'.left hs'.work_le
    rw [waiting_eq_nil hinit hnone]
    exact Nat.lt_succ_of_le s'.size_inputs_le_rowsLeft

/-- **A poll** is pending, or gives the next batch, or nothing is left. -/
theorem pollNext_answers : s.Answers table noted s.pollNext := by
  rw [pollNext]
  cases hpend : s.pendingStreamFetch with
  | none => exact pollInitialized_answers h hpend
  | some idx =>
    obtain ⟨_, hs', ⟨hans, hlt⟩ | ⟨hans, hnone⟩⟩ := continuePendingFetch_spec h hpend
    · simp only [hans]
      exact ⟨noted, hs'.inv, hs'.left, hs'.work_lt hlt⟩
    · simp only [hans]
      exact (pollInitialized_answers hs'.inv hnone).of_le hs'.left hs'.work_le

/-- **The stream is drained** by some number of polls. -/
theorem drain_eq : ∃ polls, s.drain polls = some (s.batchesLeft noted) := by
  -- by induction on the work that is left
  induction hwork : s.work noted using Nat.strong_induction_on generalizing s noted with
  | _ n ih =>
    subst hwork
    have hansw := pollNext_answers h
    match hpoll : s.pollNext, hansw with
    | (.pending, s'), ⟨noted', hinv, hleft, hlt⟩ =>
      obtain ⟨polls, hdrain⟩ := ih _ hlt hinv rfl
      refine ⟨polls + 1, ?_⟩
      rw [drain, hpoll, hleft]
      exact hdrain
    | (.ready none, _), hleft =>
      refine ⟨1, ?_⟩
      rw [drain, hpoll, hleft]
    | (.ready (some (.ok batch)), s'), ⟨noted', hinv, hleft, hlt⟩ =>
      obtain ⟨polls, hdrain⟩ := ih _ hlt hinv rfl
      refine ⟨polls + 1, ?_⟩
      rw [drain, hpoll, hleft]
      simp only [hdrain, Option.map_some]

end

theorem drain_unique {polls polls' : ℕ} {out out' : List (List (ℤ × ρ))}
    (h : s.drain polls = some out) (h' : s.drain polls' = some out') : out = out' := by
  induction polls generalizing s polls' out out' with
  | zero => cases h
  | succ polls ih =>
    cases polls' with
    | zero => cases h'
    | succ =>
      rw [drain] at h h'
      match hpoll : s.pollNext with
      | (.pending, s') =>
        simp only [hpoll] at h h'
        exact ih h h'
      | (.ready none, _) =>
        simp only [hpoll] at h h'
        cases h
        cases h'
        rfl
      | (.ready (some (.ok batch)), s') =>
        simp only [hpoll] at h h'
        obtain ⟨_, hrest, rfl⟩ := Option.map_eq_some_iff.mp h
        obtain ⟨_, hrest', rfl⟩ := Option.map_eq_some_iff.mp h'
        rw [ih hrest hrest']
      | (.ready (some (.error _)), _) =>
        simp only [hpoll] at h
        cases h

end MergeStream

/-! ## A new stream -/

theorem LayerStream.readRows_eq_rows {l : LayerStream ρ} (h : .batch [] ∉ l.events) :
    l.readRows = l.rows := by
  obtain ⟨events, _, _⟩ := l
  induction events with
  | nil => rfl
  | cons event events ih =>
    obtain ⟨hev, hevs⟩ := not_or.mp (mt mem_cons.mpr h)
    match event with
    | .pending => exact ih hevs
    | .error _ => exact ih hevs
    | .batch [] => exact absurd rfl hev
    | .batch (x :: rows) => exact congrArg _ (ih hevs)

/-- The batch with the given number. -/
def nthBatch : List (Event ρ) → ℕ → List (ℤ × ρ)
  | [], _ => []
  | .batch rows :: _, 0 => rows
  | .batch _ :: events, n + 1 => nthBatch events n
  | .pending :: events, n => nthBatch events n
  | .error _ :: events, n => nthBatch events n

theorem good_tagBatch {address : Address} {batch : List (ℤ × ρ)} (htab : table address = batch)
    {x : ℤ × Ref ρ} (hx : x ∈ tagBatch address batch) : Good table x := by
  obtain ⟨⟨_, _⟩, hy, rfl⟩ := mem_map.mp hx
  exact ⟨htab.symm, mem_zipIdx_iff_getElem?.mp hy⟩

theorem good_visible {idx fetched : ℕ} {events : List (Event ρ)}
    (htab : ∀ n, table (idx, fetched + n + 1) = nthBatch events n) :
    ∀ x ∈ visible idx fetched events, Good table x := by
  induction events generalizing fetched with
  | nil => nofun
  | cons event events ih =>
    match event with
    | .pending => exact ih htab
    | .error _ => exact ih htab
    | .batch [] => nofun
    | .batch (x :: rows) =>
      refine forall_mem_append.mpr ⟨fun y hy ↦ good_tagBatch (htab 0) hy, ih fun n ↦ ?_⟩
      rw [Nat.add_right_comm fetched 1 n]
      exact htab (n + 1)

/-- The batches of the layers by their addresses. -/
def batchTable (layers : List (LayerStream ρ)) (address : Address) : List (ℤ × ρ) :=
  layers[address.1]?.elim [] fun l ↦ nthBatch l.events (address.2 - l.fetched - 1)

namespace MergeStream

variable (layers : List (LayerStream ρ))

theorem waiting_new : (new layers).waiting = List.range layers.length := by
  simp [waiting, new, range_eq_range']

theorem sources_new_map :
    ((new layers).sources (new layers).waiting).map (fun p ↦ (p.1, p.2.map row)) =
      layers.map fun l ↦ (toDual l.priority, l.readRows) := by
  rw [waiting_new, sources]
  refine ext_getElem (by simp [new]) fun i hi hi' ↦ ?_
  have hlt : i < layers.length := by simpa using hi'
  simp [new, priorityOf, streamRows, hlt, map_row_visible, LayerStream.readRows]

section

variable {layers : List (LayerStream ρ)} (hsorted : ∀ l ∈ layers, l.rows.Pairwise (·.1 ≤ ·.1))
  (hdistinct : (layers.map LayerStream.priority).Nodup)
  (hnoError : ∀ l ∈ layers, ∀ e, .error e ∉ l.events)

include hsorted hdistinct hnoError

theorem inv_new : (new layers).Inv (batchTable layers) [] where
  valid := by
    rw [waiting_new]
    refine ⟨nofun, ?_, fun idx hidx ↦ mem_range.mp hidx, hnoError⟩
    exact nodup_range
  phase _ := rfl
  ready := by
    refine ready_sources (fun p hp ↦ ?_) ?_
    · have hmem := mem_map_of_mem (f := fun p ↦ (p.1, p.2.map row)) hp
      rw [sources_new_map] at hmem
      obtain ⟨l, hl, heq⟩ := mem_map.mp hmem
      have hrows : p.2.map row = l.readRows := (congrArg Prod.snd heq).symm
      have hread : l.readRows.Pairwise (·.1 ≤ ·.1) := (hsorted l hl).sublist l.readRows_sublist
      rw [← hrows, pairwise_map] at hread
      exact hread
    · have hfst : ((new layers).sources (new layers).waiting).map Prod.fst =
          (layers.map LayerStream.priority).map toDual := by
        have hmap := congrArg (List.map Prod.fst) (sources_new_map layers)
        rw [map_map, map_map] at hmap
        rw [map_map]
        exact hmap
      rw [hfst]
      exact hdistinct.map toDual.injective
  chunk := Gather.Table.holds_empty
  short := outputBatchSize_pos
  good_noted := nofun
  good := by
    intro c hc x hx
    obtain ⟨_, hp, hcp⟩ := mem_filterMap.mp hc
    rw [(Cursor.ofRows_eq_some.mp hcp).2] at hx
    rw [waiting_new] at hp
    obtain ⟨idx, hidx, rfl⟩ := mem_map.mp hp
    obtain ⟨l, hl⟩ : ∃ l, layers[idx]? = some l := ⟨_, getElem?_eq_getElem (mem_range.mp hidx)⟩
    refine good_visible (fun n ↦ ?_) x (streamRows_eq (s := new layers) hl ▸ hx)
    rw [batchTable, hl, Option.elim_some, Nat.add_assoc, Nat.add_sub_cancel_left,
      Nat.add_sub_cancel]

/-- **A new stream** gives the merge of what it reads. -/
theorem drain_new : ∃ polls out, (new layers).drain polls = some out ∧ out.flatten =
    mergeSources (layers.map fun l ↦ (toDual l.priority, l.readRows)) := by
  obtain ⟨polls, hdrain⟩ := drain_eq (inv_new hsorted hdistinct hnoError)
  refine ⟨polls, _, hdrain, ?_⟩
  rw [batchesLeft, ← map_flatten, flatten_windowsFrom, nil_append, ← sources_new_map]
  refine Eq.trans ?_ (mergeSources_map Prod.snd _).symm
  exact congrArg (List.map row) (mergeSources_eq_mergeAll _).symm

end

end MergeStream

/-! ## The merge of the layers -/

/-- The row that decides a timestamp: the first one of the layer with the smallest priority that has
the timestamp among the given rows. -/
def Decides (rowsOf : LayerStream ρ → List (ℤ × ρ)) (layers : List (LayerStream ρ)) (t : ℤ)
    (r : ρ) : Prop :=
  ∃ l ∈ layers, (rowsOf l).lookup t = some r ∧
    ∀ l' ∈ layers, t ∈ (rowsOf l').map Prod.fst → l.priority ≤ l'.priority

/-- The rows of the layers, one for every timestamp, in order. -/
structure PriorityMerge (layers : List (LayerStream ρ)) (rows : List (ℤ × ρ)) : Prop where
  sorted : rows.Pairwise (·.1 < ·.1)
  mem_iff : ∀ t r, (t, r) ∈ rows ↔ Decides LayerStream.rows layers t r

variable {layers : List (LayerStream ρ)}

theorem exists_decides {rowsOf : LayerStream ρ → List (ℤ × ρ)} {l : LayerStream ρ} {t : ℤ}
    (hl : l ∈ layers) (ht : t ∈ (rowsOf l).map Prod.fst) : ∃ r, Decides rowsOf layers t r := by
  classical
  have hex : ∃ p, ∃ l ∈ layers, t ∈ (rowsOf l).map Prod.fst ∧ l.priority = p := ⟨_, l, hl, ht, rfl⟩
  obtain ⟨m, hm, hkey, hprio⟩ := Nat.find_spec hex
  obtain ⟨r, hr⟩ : ∃ r, (rowsOf m).lookup t = some r := by
    refine Option.ne_none_iff_exists'.mp fun hnone ↦ ?_
    exact KWayMerge.lookup_eq_none_iff.mp hnone hkey
  exact ⟨r, m, hm, hr, fun l' hl' ht' ↦ hprio ▸ Nat.find_min' hex ⟨l', hl', ht', rfl⟩⟩

theorem decides_readRows_of_no_empty (h : ∀ l ∈ layers, .batch [] ∉ l.events) {t : ℤ} {r : ρ}
    (hdecs : Decides LayerStream.rows layers t r) : Decides LayerStream.readRows layers t r := by
  obtain ⟨l, hl, _, hmin⟩ := hdecs
  refine ⟨l, hl, ?_, fun l' hl' ht ↦ hmin l' hl' ?_⟩
  · rwa [LayerStream.readRows_eq_rows (h l hl)]
  · rwa [LayerStream.readRows_eq_rows (h l' hl')] at ht

/-- **The merge stream** gives the merge of its layers if and only if what is in front of their
empty batches decides every timestamp as all of their rows do. -/
theorem yields_priorityMerge_iff {layers : List (LayerStream ρ)}
    (hsorted : ∀ l ∈ layers, l.rows.Pairwise (·.1 ≤ ·.1))
    (hdistinct : (layers.map LayerStream.priority).Nodup)
    (hnoError : ∀ l ∈ layers, ∀ e, .error e ∉ l.events) :
    (∃ polls out, (MergeStream.new layers).drain polls = some out ∧
        PriorityMerge layers out.flatten) ↔
      ∀ t r, Decides LayerStream.rows layers t r → Decides LayerStream.readRows layers t r := by
  obtain ⟨polls, out, hdrain, hout⟩ := MergeStream.drain_new hsorted hdistinct hnoError
  have hread : ∀ s ∈ layers.map fun l ↦ (toDual l.priority, l.readRows), s.2.Pairwise (·.1 ≤ ·.1) :=
    forall_mem_map.mpr fun l hl ↦ (hsorted l hl).sublist l.readRows_sublist
  have hprio : ((layers.map fun l ↦ (toDual l.priority, l.readRows)).map Prod.fst).Nodup := by
    have hnd := hdistinct.map toDual.injective
    rw [map_map] at hnd ⊢
    exact hnd
  have hlook (t : ℤ) (r : ρ) : out.flatten.lookup t = some r ↔
      Decides LayerStream.readRows layers t r := by
    rw [hout, lookup_mergeSources hread hprio]
    constructor
    · rintro ⟨_, hs, hr, hmin⟩
      obtain ⟨l, hl, rfl⟩ := mem_map.mp hs
      exact ⟨l, hl, hr, fun l' hl' ↦ hmin _ (mem_map_of_mem hl')⟩
    · rintro ⟨l, hl, hr, hmin⟩
      exact ⟨_, mem_map_of_mem hl, hr, forall_mem_map.mpr hmin⟩
  have hord : out.flatten.Pairwise (·.1 < ·.1) := hout ▸ mergeSources_sorted hread hprio
  constructor
  · rintro ⟨_, _, hdrai', hmrg⟩ t r hdecs
    rw [← hlook, MergeStream.drain_unique hdrain hdrai', lookup_eq_some_iff_mem hmrg.sorted]
    exact (hmrg.mem_iff t r).mpr hdecs
  · intro hdecs
    refine ⟨polls, out, hdrain, hord, fun t r ↦ ?_⟩
    rw [← lookup_eq_some_iff_mem hord, hlook]
    refine ⟨fun h ↦ ?_, hdecs t r⟩
    -- some row decides the timestamp, and it is the one that was found
    have ⟨l, hl, hr, _⟩ := h
    have hkey : t ∈ l.rows.map Prod.fst := (l.readRows_sublist.map _).subset (mem_keys_of_lookup hr)
    obtain ⟨r', hr'⟩ := exists_decides hl hkey
    have hfd := (hlook t r').mpr (hdecs t r' hr')
    obtain rfl : r = r' := Option.some.inj (((hlook t r).mpr h).symm.trans hfd)
    exact hr'

/-- Two layers that have rows for one timestamp, in several batches and with inputs that are pending
in between. -/
def sampleLayers : List (LayerStream ℕ) :=
  [⟨[.batch [(1, 10)], .pending, .batch [(4, 40)]], 1, 0⟩,
    ⟨[.pending, .batch [(1, 11), (2, 21)]], 0, 0⟩]

theorem sampleLayers_merged : ∃ polls out,
    (MergeStream.new sampleLayers).drain polls = some out ∧
      PriorityMerge sampleLayers out.flatten :=
  (yields_priorityMerge_iff (by decide) (by decide) (by simp [sampleLayers])).mpr fun _ _ ↦
    decides_readRows_of_no_empty (by decide)

/-- A layer with an empty batch between two others, as a filter leaves it. -/
def gapLayers : List (LayerStream ℕ) := [⟨[.batch [(1, 10)], .batch [], .batch [(2, 20)]], 0, 0⟩]

/-- The row behind the empty batch is lost, though no other layer has its timestamp. -/
theorem row_behind_empty_batch_lost :
    (MergeStream.new gapLayers).drain 2 = some [[(1, 10)]] ∧
      Decides LayerStream.rows gapLayers 2 20 ∧
      ¬ ∃ polls out, (MergeStream.new gapLayers).drain polls = some out ∧
        PriorityMerge gapLayers out.flatten := by
  have hdrain : (MergeStream.new gapLayers).drain 2 = some [[(1, 10)]] := by decide +kernel
  have hdecs : Decides LayerStream.rows gapLayers 2 20 :=
    ⟨_, mem_singleton_self _, rfl, fun l hl _ ↦ (mem_singleton.mp hl).symm ▸ le_rfl⟩
  refine ⟨hdrain, hdecs, ?_⟩
  rintro ⟨_, _, hout, hmrg⟩
  obtain rfl := MergeStream.drain_unique hdrain hout
  have hmem := (hmrg.mem_iff 2 20).mpr hdecs
  simp at hmem

end LsmStream

end MonoTS
