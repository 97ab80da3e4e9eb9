import MonoTS.Catalog.Compaction
import MonoTS.Lib.Reorder

/-!
# The order of the metadata WAL among concurrent calls

A call changes the memory and appends its record in separate steps, so that two calls can be in the
WAL in the other order than they took effect. Replay applies the records in the order of the file
and does not look at their sequence numbers. This file says when that matters: for two operations
that `conflict`, the order is visible in the maps whatever they were before
(`same_apply_comm_iff`), and for others it is not.

Without compactions, the WAL and the calls whose records are still to come make up the memory at
every moment: applying the records, and then the rest in the order in which it took effect, gives
the maps (`Settles`). Appending a record moves a call from the rest into the WAL, past the calls
that took effect before it and are not appended yet; the maps stay the same when it conflicts with
none of those. Once every call has returned there is no rest.
-/

open List

namespace MonoTS

open LittleEndian MetaWal Transition

/-! ## Operations that conflict -/

/-- The two operations set the same map of a table to different values. -/
def RecordOp.conflicts : RecordOp → RecordOp → Bool
  | .putSchema (some s), .putSchema (some s') => s.tableName = s'.tableName ∧ s ≠ s'
  | .putSchema (some s), .dropTable t => s.tableName = t
  | .dropTable t, .putSchema (some s) => s.tableName = t
  | .setManifest t files, .setManifest t' files' => t = t' ∧ files ≠ files'
  | .setManifest t _, .dropTable t' => t = t'
  | .dropTable t', .setManifest t _ => t = t'
  | _, _ => false

open RecordOp

namespace MetaMaps

variable (maps : MetaMaps) (op : RecordOp) (table : String)

theorem Same.refl : maps.Same maps := fun _ ↦ ⟨rfl, rfl⟩

variable {maps} {b : MetaMaps}

theorem Same.symm (h : maps.Same b) : b.Same maps :=
  fun t ↦ ⟨(h t).1.symm, (h t).2.symm⟩

theorem Same.trans {c : MetaMaps} (h : maps.Same b) (h' : b.Same c) : maps.Same c :=
  fun t ↦ ⟨(h t).1.trans (h' t).1, (h t).2.trans (h' t).2⟩

theorem Same.apply (h : maps.Same b) (op : RecordOp) : (maps.apply op).Same (b.apply op) := by
  intro t
  rw [lookup_schemas_apply, lookup_schemas_apply, lookup_manifests_apply, lookup_manifests_apply,
    (h t).1, (h t).2]
  exact ⟨rfl, rfl⟩

theorem same_apply_comm (maps : MetaMaps) {a b : RecordOp} (h : a.conflicts b = false) :
    ((maps.apply a).apply b).Same ((maps.apply b).apply a) := by
  intro table
  simp only [lookup_schemas_apply, lookup_manifests_apply]
  rcases a with (_ | s) | ⟨t, files⟩ | t <;> rcases b with (_ | s') | ⟨t', files'⟩ | t'
  all_goals grind [conflicts, schemaAt, manifestAt]

/-- **The order of two operations is visible exactly when they conflict.** -/
theorem same_apply_comm_iff (maps : MetaMaps) (a b : RecordOp) :
    ((maps.apply a).apply b).Same ((maps.apply b).apply a) ↔ a.conflicts b = false := by
  refine ⟨fun h ↦ Bool.eq_false_iff.mpr fun hc ↦ ?_, same_apply_comm maps⟩
  simp only [Same, lookup_schemas_apply, lookup_manifests_apply] at h
  rcases a with (_ | s) | ⟨t, files⟩ | t <;> rcases b with (_ | s') | ⟨t', files'⟩ | t'
  all_goals simp only [conflicts, decide_eq_true_eq, Bool.false_eq_true] at hc
  · -- Two schemas of one table: the second one stays.
    obtain ⟨_, hne⟩ := hc
    have := (h s.tableName).1
    simp_all [schemaAt]
  · have := (h s.tableName).1
    simp_all [schemaAt]
  · obtain ⟨rfl, _⟩ := hc
    have := (h t).2
    simp_all [manifestAt]
  · have := (h t).2
    simp_all [manifestAt]
  · have := (h t).1
    simp_all [schemaAt]
  · have := (h t).2
    simp_all [manifestAt]

end MetaMaps

namespace MetaRace

/-! ## Runs in the order of the memory -/

variable (calls : List MetaTask)

/-- The calls that have changed the memory and not yet appended their records. -/
def unlogged : List ℕ :=
  (List.range calls.length).filter fun k ↦ !(phaseAt calls k).any committed

variable (codec : RecordCodec)

/-- There is no compaction, and a record is appended only when the calls that took effect before it
and are not in the WAL yet do not conflict with it. The length field of a frame has 32 bits. -/
def InOrder (s : MetaRace) : RaceAction → Prop
  | .append k now =>
    (∀ i ∈ unlogged s.calls, i < k →
      ∀ a ∈ opAt s.calls i, ∀ b ∈ opAt s.calls k, a.conflicts b = false) ∧
      (codec.encode (recordAt s.calls k now)).length < 2 ^ 32
  | .build _ | .save _ | .truncate _ => False
  | .update _ | .number _ | .finish _ => True

instance (s : MetaRace) (a : RaceAction) : Decidable (s.InOrder codec a) :=
  match a with
  | .append .. => inferInstanceAs (Decidable (_ ∧ _))
  | .build _ | .save _ | .truncate _ => isFalse id
  | .update _ | .number _ | .finish _ => isTrue trivial

/-- The WAL, and after it the calls that are still to be logged, make up the memory. -/
def Settles (wal : List ℕ) : Prop :=
  ((opsOf calls (wal ++ unlogged calls)).foldl MetaMaps.apply .empty).Same
    (mapsAfter calls calls.length)

section

variable {calls : List MetaTask} {wal : List ℕ} {k : ℕ} {old : CallPhase}

theorem mem_unlogged :
    k ∈ unlogged calls ↔ k < calls.length ∧ (phaseAt calls k).any committed = false := by
  rw [unlogged, mem_filter, mem_range, Bool.not_eq_true']

theorem opsOf_setPhase (k : ℕ) (phase : CallPhase) (ks : List ℕ) :
    opsOf (setPhase calls k phase) ks = opsOf calls ks := by
  simp only [opsOf, opAt_setPhase]

variable (t : MetaTask)

theorem opsOf_append_of_lt {ks : List ℕ} (h : ∀ k ∈ ks, k < calls.length) :
    opsOf (calls ++ [t]) ks = opsOf calls ks :=
  filterMap_congr fun k hk ↦ opAt_append_of_lt calls t (h k hk)

variable {phase : CallPhase}

theorem unlogged_setPhase (hold : phaseAt calls k = some old)
    (hsame : committed phase = committed old) :
    unlogged (setPhase calls k phase) = unlogged calls := by
  rw [unlogged, unlogged, length_setPhase]
  exact filter_congr fun i _ ↦ congrArg not (any_committed_setPhase hold hsame i)

theorem Settles.setPhase (h : Settles calls wal)
    (hold : phaseAt calls k = some old) (hsame : committed phase = committed old) :
    Settles (setPhase calls k phase) wal := by
  rw [Settles, unlogged_setPhase hold hsame, opsOf_setPhase, mapsAfter_setPhase, length_setPhase]
  exact h

theorem phaseAt_append_self : phaseAt (calls ++ [t]) calls.length = some t.phase :=
  (phaseAt_append_eq_some calls t).mpr (.inr ⟨rfl, rfl⟩)

theorem phaseAt_append_of_lt (h : k < calls.length) :
    phaseAt (calls ++ [t]) k = phaseAt calls k := by
  rw [phaseAt, phaseAt, getElem?_append_left h]

theorem unlogged_append {t : MetaTask} (ht : committed t.phase = false) :
    unlogged (calls ++ [t]) = unlogged calls ++ [calls.length] := by
  rw [unlogged, length_append, length_singleton, range_succ, filter_append,
    filter_singleton, phaseAt_append_self, Option.any_some, ht]
  congr 1
  refine filter_congr fun k hk ↦ ?_
  rw [phaseAt_append_of_lt t (mem_range.mp hk)]

theorem Settles.update {t : MetaTask} (h : Settles calls wal) (hwal : ∀ k ∈ wal, k < calls.length)
    (ht : committed t.phase = false) : Settles (calls ++ [t]) wal := by
  have hlt : ∀ k ∈ wal ++ unlogged calls, k < calls.length := by
    intro k hk
    exact (mem_append.mp hk).elim (hwal k) fun hk ↦ (mem_unlogged.mp hk).1
  have hop : opAt (calls ++ [t]) calls.length = some t.op := by
    rw [opAt, getElem?_concat_length]
    rfl
  rw [Settles, unlogged_append ht, ← append_assoc, opsOf_append, opsOf_append_of_lt t hlt,
    opsOf_cons _ hop, foldl_append]
  rw [Settles, mapsAfter, ← length_map MetaTask.op, take_length] at h
  rw [mapsAfter, ← length_map MetaTask.op, take_length, map_append, foldl_append]
  exact h.apply t.op

theorem unlogged_eq_append_cons (hold : phaseAt calls k = some old) (hun : committed old = false) :
    ∃ front back, unlogged calls = front ++ k :: back ∧
      unlogged (setPhase calls k .appended) = front ++ back ∧ ∀ i ∈ front, i < k := by
  have hk := lt_of_phaseAt calls k hold
  have hself : (!(phaseAt calls k).any committed) = true := by
    rw [hold, Option.any_some, hun]
    rfl
  have hself' : (!(phaseAt (setPhase calls k .appended) k).any committed) = false := by
    rw [phaseAt_setPhase_self calls k .appended hold]
    rfl
  have hoth : ∀ ks : List ℕ, k ∉ ks →
      ks.filter (fun i ↦ !(phaseAt (setPhase calls k .appended) i).any committed)
        = ks.filter fun i ↦ !(phaseAt calls i).any committed := by
    intro ks hks
    refine filter_congr fun i hi ↦ ?_
    rw [phaseAt_setPhase_ne calls .appended (ne_of_mem_of_not_mem hi hks)]
  refine ⟨(List.range k).filter fun i ↦ !(phaseAt calls i).any committed,
    (List.range' (k + 1) (calls.length - (k + 1))).filter fun i ↦ !(phaseAt calls i).any committed,
    ?_, ?_, ?_⟩
  · rw [unlogged, range_eq_append_cons hk, filter_append, filter_cons, if_pos hself]
  · rw [unlogged, length_setPhase, range_eq_append_cons hk, filter_append, filter_cons,
      hself', if_neg Bool.false_ne_true, hoth _ not_mem_range_self, hoth]
    intro hmem
    exact absurd (mem_range'_1.mp hmem).1 (Nat.not_succ_le_self k)
  · exact fun i hi ↦ mem_range.mp (mem_filter.mp hi).1

/-- **A record that conflicts with nothing it overtakes keeps the balance.** -/
theorem Settles.append (h : Settles calls wal) (hold : phaseAt calls k = some old)
    (hun : committed old = false) (hok : ∀ i ∈ unlogged calls, i < k →
      ∀ a ∈ opAt calls i, ∀ b ∈ opAt calls k, a.conflicts b = false) :
    Settles (MetaRace.setPhase calls k .appended) (wal ++ [k]) := by
  -- the record overtakes those of the calls in `front`
  obtain ⟨front, back, hunl, haft, hfrt⟩ := unlogged_eq_append_cons hold hun
  obtain ⟨op, hop⟩ : ∃ op, opAt calls k = some op := by
    obtain ⟨t, ht, -⟩ := Option.map_eq_some_iff.mp hold
    exact ⟨t.op, by rw [opAt, ht]; rfl⟩
  have hcomm : ∀ b ∈ opsOf calls front, ∀ maps : MetaMaps,
      ((maps.apply b).apply op).Same ((maps.apply op).apply b) := by
    intro b hb maps
    obtain ⟨i, hi, hib⟩ := mem_filterMap.mp hb
    have hmem : i ∈ unlogged calls := hunl ▸ mem_append_left _ hi
    exact maps.same_apply_comm (hok i hmem (hfrt i hi) b hib op hop)
  have hmove := Reorder.foldl_move_front MetaMaps.Same.refl (fun _ _ _ ↦ MetaMaps.Same.trans)
    (fun a s t hst ↦ MetaMaps.Same.apply hst a) hcomm (opsOf calls back)
    ((opsOf calls wal).foldl MetaMaps.apply .empty)
  have hbef : opsOf calls (wal ++ (front ++ k :: back))
      = opsOf calls wal ++ (opsOf calls front ++ op :: opsOf calls back) := by
    rw [opsOf_append, opsOf_append, opsOf_cons calls hop]
  have hnow : opsOf calls (wal ++ [k] ++ (front ++ back))
      = opsOf calls wal ++ op :: (opsOf calls front ++ opsOf calls back) := by
    rw [append_assoc, opsOf_append, singleton_append, opsOf_cons calls hop, opsOf_append]
  rw [Settles, hunl, hbef, foldl_append] at h
  rw [Settles, haft, opsOf_setPhase, mapsAfter_setPhase, length_setPhase, hnow, foldl_append]
  exact hmove.symm.trans h

end

variable {crc32 : Bytes → UInt32} {codec : RecordCodec}
  {normalize : String → Result String}

/-- The WAL is in order: it is the records of the logged calls, and they settle the memory. -/
def Logged (crc32 : Bytes → UInt32) (codec : RecordCodec)
    (normalize : String → Result String) (s : MetaRace) : Prop :=
  s.compactions = [] ∧ ∃ wal records,
    Ledger crc32 codec normalize s.node s.calls [] [] wal records 0 ∧ Settles s.calls wal

theorem logged_initial (limit : ℕ) : (initial limit).Logged crc32 codec normalize :=
  ⟨rfl, [], [], ledger_initial limit, .refl _⟩

theorem Logged.step {s s' : MetaRace} {a : RaceAction} (h : s.Logged crc32 codec normalize)
    (hok : s.InOrder codec a) (hstep : s.step crc32 codec normalize a = some s') :
    s'.Logged crc32 codec normalize := by
  obtain ⟨_, _, _⟩ := s
  obtain ⟨hnone, wal, records, h, hset⟩ := h
  dsimp only at hnone h hset
  subst hnone
  cases a with
  | update =>
    obtain ⟨budget, rfl | ⟨hval, rfl⟩⟩ := of_step_update hstep
    · exact ⟨rfl, wal, records, { h with }, hset⟩
    · exact ⟨rfl, wal, records, h.update hval budget, hset.update (fun k ↦ h.lt_of_mem) rfl⟩
  | number =>
    obtain ⟨hph, rfl⟩ := of_step_number hstep
    exact ⟨rfl, wal, records, h.number hph, hset.setPhase hph rfl⟩
  | append k now =>
    obtain ⟨_, _, hph, hfl, rfl⟩ := of_step_append h.flushed hstep
    exact ⟨rfl, wal ++ [k], _, h.append hph now (fun _ ht ↦ absurd ht not_mem_nil) hok.2
      hfl, hset.append hph rfl hok.1⟩
  | finish =>
    obtain ⟨hph, rfl⟩ := of_step_finish hstep
    exact ⟨rfl, wal, records, h.finish hph, hset.setPhase hph rfl⟩
  | build | save | truncate => exact hok.elim

theorem unlogged_of_returned {calls : List MetaTask} (h : ∀ t ∈ calls, t.phase = .returned) :
    unlogged calls = [] := by
  refine filter_eq_nil_iff.mpr fun k hk ↦ ?_
  have hget := getElem?_eq_getElem (mem_range.mp hk)
  rw [phaseAt, hget, Option.map_some, h _ (mem_of_getElem? hget)]
  exact Bool.false_ne_true

/-- **Memory and log agree when conflicting calls are logged in the order of the memory.** In every
run without compactions in which no record overtakes that of a conflicting call, opening the files
after all calls have returned gives the maps of the memory. -/
theorem replay_same_of_inOrder {limit : ℕ} {s : MetaRace}
    (h : Reaches (guarded (InOrder codec) (step crc32 codec normalize)) (initial limit) s)
    (hall : ∀ t ∈ s.calls, t.phase = .returned) (limit' : ℕ) :
    ∃ n, MetaStore.open crc32 codec normalize limit' s.node.disk = .ok n ∧
      n.store.toMetaMaps.Same s.node.store.toMetaMaps := by
  have hlogg : s.Logged crc32 codec normalize :=
    h.invariant_guarded (logged_initial limit) fun _ _ _ hs ↦ hs.step
  obtain ⟨-, _, _, hled, hset⟩ := hlogg
  obtain ⟨n, hopen, hmaps⟩ := hled.replay limit'
  refine ⟨n, hopen, ?_⟩
  rw [Settles, unlogged_of_returned hall, append_nil, ← hled.memory] at hset
  rw [hmaps]
  exact hset

/-- A table is created, and two threads call the store at the same time. The second call to change
the memory is the first one in the WAL. -/
def overtaking (first second : MetaCall) : List RaceAction :=
  [.update (.createSchema (timeSchema "t")), .number 0, .append 0 0, .finish 0,
    .update first, .update second, .number 1, .number 2, .append 2 0, .append 1 0, .finish 1,
    .finish 2]

/-- A manifest and a schema do not conflict. -/
theorem schema_overtakes_manifest :
    ∃ s, Reaches (guarded (InOrder .plain) (step lengthCrc .plain .ok)) (initial 4096) s ∧
      s.calls.length = 3 ∧
      ∃ n, MetaStore.open lengthCrc .plain .ok 4096 s.node.disk = .ok n ∧
        n.store.toMetaMaps.Same s.node.store.toMetaMaps := by
  refine exists_reaches_of (overtaking (.setManifest "t" [firstFile]) (.putSchema (timeSchema "t")))
    (p := fun s ↦ s.calls.length = 3 ∧ ∀ t ∈ s.calls, t.phase = .returned) (by decide +kernel)
    fun s hrch ⟨hlen, hall⟩ ↦ ?_
  exact ⟨hlen, replay_same_of_inOrder hrch hall 4096⟩

/-- **Two manifests of one table, logged in the other order**: the memory has the second one and
the restart brings back the first. -/
theorem manifest_overtakes_manifest :
    ∃ s, Reaches (step lengthCrc .plain .ok) (initial 4096) s ∧
      s.calls.map MetaTask.phase = [.returned, .returned, .returned] ∧ s.compactions.length = 0 ∧
      s.node.store.manifests.lookup "t" = some ⟨[]⟩ ∧
      ∃ n, MetaStore.open lengthCrc .plain .ok 4096 s.node.disk = .ok n ∧
        n.store.manifests.lookup "t" = some ⟨[firstFile]⟩ ∧
        ¬ n.store.toMetaMaps.Same s.node.store.toMetaMaps := by
  refine exists_reaches_of (overtaking (.setManifest "t" [firstFile]) (.setManifest "t" []))
    (p := fun s ↦ s.calls.map MetaTask.phase = [.returned, .returned, .returned] ∧
      s.compactions.length = 0 ∧ s.node.store.manifests.lookup "t" = some ⟨[]⟩ ∧
      (MetaStore.open lengthCrc .plain .ok 4096 s.node.disk).map
        (fun n ↦ n.store.manifests.lookup "t") = .ok (some ⟨[firstFile]⟩)) (by decide +kernel)
    fun s _ ⟨hphs, hcomp, hmem, hopen⟩ ↦ ?_
  obtain ⟨n, hn⟩ : ∃ n, MetaStore.open lengthCrc .plain .ok 4096 s.node.disk = .ok n := by
    cases h : MetaStore.open lengthCrc .plain .ok 4096 s.node.disk with
    | ok n => exact ⟨n, rfl⟩
    | error =>
      rw [h] at hopen
      cases hopen
  rw [hn] at hopen
  have hdisk : n.store.manifests.lookup "t" = some ⟨[firstFile]⟩ := Except.ok.inj hopen
  refine ⟨hphs, hcomp, hmem, n, hn, hdisk, fun hsame ↦ ?_⟩
  have hman := (hsame "t").2
  rw [hmem, hdisk] at hman
  exact absurd hman (by decide)

end MetaRace

end MonoTS
