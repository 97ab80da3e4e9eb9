import MonoTS.Catalog.Journal
import MonoTS.Lib.Transition

/-!
# The memory budget of the metadata store

The budget is a counter. A call that adds something reserves bytes for it and one that removes
something releases them, so that the counter should follow the charge of the maps: the estimated
bytes of all schemas and of all manifests. `Exact` says that a call does so, that is, the counter
changes by as much as the charge when the call succeeds and not at all when it fails. The equation
is one of natural numbers, so that a counter that wraps below zero breaks it.

Creating a table adds a schema and an empty manifest and reserves the bytes of the schema only,
while dropping a table releases the bytes of both. So no call that creates a table is exact, and
what the drop releases too much is taken from the bytes of other tables, until the counter wraps and
every later reservation fails. `call_exact_iff` says of each call when it is exact.
-/

open Transition List Option

namespace MonoTS

open LittleEndian

/-! ## Totals over a map -/

namespace DashMap

variable {V : Type} (f : String → V → ℕ) (map : DashMap V)

/-- The sum of a value over the entries of a map. -/
def total : ℕ := (map.entries.map fun e ↦ f e.1 e.2).sum

variable (key : String)

/-- The value at a key, 0 without an entry. -/
def valueAt : ℕ := ((map.lookup key).map (f key)).getD 0

theorem sum_kerase (entries : List (Sigma fun _ : String ↦ V)) (key : String) :
    ((entries.kerase key).map fun e ↦ f e.1 e.2).sum + ((entries.dlookup key).map (f key)).getD 0
      = (entries.map fun e ↦ f e.1 e.2).sum := by
  induction entries with
  | nil => rfl
  | cons e entries ih =>
    obtain ⟨k, v⟩ := e
    by_cases h : key = k
    · subst h
      have hker : List.kerase key (⟨key, v⟩ :: entries) = entries := kerase_cons_eq rfl
      rw [hker, dlookup_cons_eq, map_cons, sum_cons]
      exact Nat.add_comm _ _
    · rw [kerase_cons_ne h, dlookup_cons_ne _ _ h, map_cons, sum_cons,
        map_cons, sum_cons, ← ih, Nat.add_assoc]

theorem total_erase : total f (map.erase key) + valueAt f map key = total f map :=
  sum_kerase f map.entries key

theorem total_insert (v : V) :
    total f (map.insert key v) + valueAt f map key = total f map + f key v := by
  rw [← total_erase f map key, total, AList.entries_insert, map_cons, sum_cons]
  rw [total, AList.erase]
  dsimp only
  omega

end DashMap

open DashMap

/-! ## The charge of the maps -/

namespace MetaMaps

/-- The bytes the store holds, by its own estimates. -/
def charge (maps : MetaMaps) : ℕ :=
  maps.schemas.total (fun _ schema ↦ estimateSchemaBytes schema) +
    maps.manifests.total fun table manifest ↦ estimateManifestDelta table manifest.files

variable (maps : MetaMaps) (table : String)

def schemaBytes : ℕ := maps.schemas.valueAt (fun _ schema ↦ estimateSchemaBytes schema) table

def manifestBytes : ℕ :=
  maps.manifests.valueAt (fun table manifest ↦ estimateManifestDelta table manifest.files) table

theorem charge_dropTable :
    (maps.dropTable table).charge + (maps.schemaBytes table + maps.manifestBytes table)
      = maps.charge := by
  have hs := total_erase (fun _ schema ↦ estimateSchemaBytes schema) maps.schemas table
  have hm := total_erase
    (fun table manifest ↦ estimateManifestDelta table manifest.files) maps.manifests table
  rw [charge, charge, ← hs, ← hm]
  simp only [dropTable, schemaBytes, manifestBytes]
  omega

theorem charge_setManifest (files : List ParquetFileMeta) :
    (maps.setManifest table files).charge + maps.manifestBytes table
      = maps.charge + estimateManifestDelta table files := by
  have hm := total_insert
    (fun table manifest ↦ estimateManifestDelta table manifest.files) maps.manifests table ⟨files⟩
  dsimp only at hm
  simp only [charge, setManifest, manifestBytes]
  omega

variable {schema : TableSchema}

theorem charge_putSchema_of_some {m : TableManifest}
    (h : maps.manifests.lookup schema.tableName = some m) :
    (maps.putSchema schema).charge + maps.schemaBytes schema.tableName
      = maps.charge + estimateSchemaBytes schema := by
  have hs := total_insert (fun _ schema ↦ estimateSchemaBytes schema) maps.schemas
    schema.tableName schema
  simp only [charge, putSchema, schemaBytes, orDefault, h]
  omega

/-- A new table comes with an empty manifest, which has a charge of its own. -/
theorem charge_putSchema_of_none (h : maps.manifests.lookup schema.tableName = none) :
    (maps.putSchema schema).charge + maps.schemaBytes schema.tableName
      = maps.charge + estimateSchemaBytes schema + estimateManifestDelta schema.tableName [] := by
  have hs := total_insert (fun _ schema ↦ estimateSchemaBytes schema) maps.schemas
    schema.tableName schema
  have hm := total_insert
    (fun table manifest ↦ estimateManifestDelta table manifest.files) maps.manifests
    schema.tableName ⟨[]⟩
  rw [valueAt, h, map_none, getD_none, Nat.add_zero] at hm
  dsimp only at hm
  simp only [charge, putSchema, schemaBytes, orDefault, h]
  omega

end MetaMaps

/-! ## The counter -/

namespace MetaMemoryBudget

variable {budget : MetaMemoryBudget} {bytes : ℕ}

section

variable (h : budget.usedBytes < 2 ^ 64)

include h

theorem release_exact_iff (bytes : ℕ) :
    (budget.release bytes).usedBytes + bytes = budget.usedBytes ↔ bytes ≤ budget.usedBytes := by
  dsimp only [release]
  omega

theorem release_of_le (hle : bytes ≤ budget.usedBytes) :
    (budget.release bytes).usedBytes = budget.usedBytes - bytes := by
  have := (release_exact_iff h bytes).mpr hle
  omega

theorem release_zero : budget.release 0 = budget := by
  have hused : (budget.usedBytes + (2 ^ 64 - 0 % 2 ^ 64)) % 2 ^ 64 = budget.usedBytes := by omega
  rw [release, hused]

end

theorem usedBytes_release_lt : (budget.release bytes).usedBytes < 2 ^ 64 :=
  Nat.mod_lt _ (Nat.two_pow_pos 64)

/-- There is room for as many bytes more. -/
def Fits (budget : MetaMemoryBudget) (bytes : ℕ) : Prop :=
  saturatingAdd budget.usedBytes bytes ≤ budget.limitBytes

theorem Fits.le (h : budget.Fits bytes) (hlimit : budget.limitBytes < 2 ^ 64 - 1) :
    budget.usedBytes + bytes ≤ budget.limitBytes := by
  rw [Fits, saturatingAdd] at h
  omega

theorem tryReserve_of_fits (h : budget.Fits bytes) :
    budget.tryReserve bytes = some { budget with usedBytes := budget.usedBytes + bytes } := by
  rw [tryReserve, if_neg (Nat.not_lt_of_le h)]
  split_ifs with h0
  · rw [h0, Nat.add_zero]
  · rfl

theorem tryReserve_of_not_fits (hpos : 0 < bytes) (h : ¬ budget.Fits bytes) :
    budget.tryReserve bytes = none := by
  rw [tryReserve, if_neg hpos.ne', if_pos (Nat.lt_of_not_le h)]

end MetaMemoryBudget

open MetaMemoryBudget

variable (schema : TableSchema)

theorem estimateSchemaBytes_pos : 0 < estimateSchemaBytes schema := by
  rw [estimateSchemaBytes]
  omega

theorem estimateManifestDelta_pos (table : String) (files : List ParquetFileMeta) :
    0 < estimateManifestDelta table files := by
  rw [estimateManifestDelta]
  omega

theorem estimateManifestDelta_nil_le :
    estimateManifestDelta schema.tableName [] ≤ estimateSchemaBytes schema := by
  rw [estimateManifestDelta, estimateSchemaBytes, map_nil, sum_nil]
  omega

/-! ## Exact calls -/

namespace MetaStore

variable (store : MetaStore) (result : Result Unit) (store' : MetaStore)

/-- The counter follows the charge: by as much when the call succeeds, and not at all when it
fails. -/
def Exact : Prop :=
  match result with
  | .ok () => store'.budget.usedBytes + store.charge = store.budget.usedBytes + store'.charge
  | .error _ => store'.budget.usedBytes = store.budget.usedBytes

instance : Decidable (store.Exact result store') := by
  unfold Exact
  split <;> infer_instance

section

variable (normalize : String → Result String) (store : MetaStore)

/-- When a call is exact. A table that is new to the store is never accounted for, so such a call
has to fail; otherwise there has to be as much in the counter as is released, and a new manifest has
to fit. -/
def Accounted : MetaCall → Prop
  | .createSchema schema =>
    validateSchemaProto normalize schema = .ok () →
      store.schemas.lookup schema.tableName = none →
        ¬ store.budget.Fits (estimateSchemaBytes schema)
  | .putSchema schema =>
    validateSchemaProto normalize schema = .ok () →
      if (store.schemas.lookup schema.tableName).isSome then
        store.schemaBytes schema.tableName - estimateSchemaBytes schema ≤ store.budget.usedBytes
      else ¬ store.budget.Fits (estimateSchemaBytes schema)
  | .setManifest table files =>
    (store.schemas.lookup table).isSome →
      store.manifestBytes table ≤ store.budget.usedBytes ∧
        (store.budget.release (store.manifestBytes table)).Fits (estimateManifestDelta table files)
  | .dropTable table =>
    (store.schemas.lookup table).isSome →
      store.schemaBytes table + store.manifestBytes table ≤ store.budget.usedBytes

/-- What holds of every store: the counter is a machine word, every table has a manifest, and the
estimate of a manifest has been reserved, so that it is a machine word too. -/
structure Counted (store : MetaStore) : Prop where
  used : store.budget.usedBytes < 2 ^ 64
  limit : store.budget.limitBytes < 2 ^ 64 - 1
  keys : ∀ table, (store.schemas.lookup table).isSome = (store.manifests.lookup table).isSome
  manifests : ∀ table, store.manifestBytes table < 2 ^ 64

variable {normalize store}

theorem exact_congr {result : Result Unit} {store₁ store₂ : MetaStore}
    (hmaps : store₁.toMetaMaps = store₂.toMetaMaps) (hbud : store₁.budget = store₂.budget) :
    store.Exact result store₁ ↔ store.Exact result store₂ := by
  cases result with
  | ok => rw [Exact, Exact, hmaps, hbud]
  | error => rw [Exact, Exact, hbud]

theorem exact_of_unchanged {e : TsdbError} : store.Exact (.error e) store := rfl

theorem exact_ok_iff {store' : MetaStore} : store.Exact (.ok ()) store' ↔
    store'.budget.usedBytes + store.charge = store.budget.usedBytes + store'.charge := Iff.rfl

variable {table : String} {schema : TableSchema} {budget : MetaMemoryBudget}

theorem schemaBytes_of_none (h : store.schemas.lookup table = none) :
    store.schemaBytes table = 0 := by
  rw [MetaMaps.schemaBytes, valueAt, h]
  rfl

theorem Counted.lookup_manifest (h : store.Counted)
    (hs : store.schemas.lookup table = some schema) :
    ∃ m, store.manifests.lookup table = some m := by
  refine isSome_iff_exists.mp ?_
  rw [← h.keys, hs]
  rfl

theorem Counted.lookup_manifest_none (h : store.Counted) (hs : store.schemas.lookup table = none) :
    store.manifests.lookup table = none := by
  rw [← not_isSome_iff_eq_none, ← h.keys, hs]
  exact Bool.false_ne_true

/-! ### What the calls do

A call that fails because of the schema leaves the store alone, and so does one that fails before
it has released anything. -/

theorem createSchemaInMemory_of_fits (hval : validateSchemaProto normalize schema = .ok ())
    (hnew : store.schemas.lookup schema.tableName = none)
    (hfits : store.budget.Fits (estimateSchemaBytes schema)) :
    store.createSchemaInMemory normalize schema = (.ok (), { store with
      toMetaMaps := store.toMetaMaps.putSchema schema
      budget := { store.budget with
        usedBytes := store.budget.usedBytes + estimateSchemaBytes schema } }) := by
  simp only [createSchemaInMemory, hval, hnew, tryReserve_of_fits hfits]

theorem createSchemaInMemory_of_refused (h : store.Accounted normalize (.createSchema schema)) :
    ∃ e, store.createSchemaInMemory normalize schema = (.error e, store) := by
  rw [createSchemaInMemory]
  rcases hval : validateSchemaProto normalize schema with e | _
  · exact ⟨e, rfl⟩
  rcases hold : store.schemas.lookup schema.tableName with _ | old
  · dsimp only
    rw [tryReserve_of_not_fits (estimateSchemaBytes_pos schema) (h hval hold)]
    exact ⟨_, rfl⟩
  · exact ⟨_, rfl⟩

/-- The counter after a schema has been put, if there was room. -/
def putBudget (store : MetaStore) (schema : TableSchema) : MetaMemoryBudget :=
  if store.schemaBytes schema.tableName < estimateSchemaBytes schema then
    { store.budget with
      usedBytes := store.budget.usedBytes +
        (estimateSchemaBytes schema - store.schemaBytes schema.tableName) }
  else store.budget.release (store.schemaBytes schema.tableName - estimateSchemaBytes schema)

theorem putSchemaInMemory_cases (normalize : String → Result String) (h : store.Counted)
    (schema : TableSchema) :
    (∃ e, store.putSchemaInMemory normalize schema = (.error e, store) ∧
      (validateSchemaProto normalize schema = .ok () →
        store.schemaBytes schema.tableName < estimateSchemaBytes schema ∧
        ¬ store.budget.Fits (estimateSchemaBytes schema - store.schemaBytes schema.tableName))) ∨
    (store.putSchemaInMemory normalize schema = (.ok (), { store with
        toMetaMaps := store.toMetaMaps.putSchema schema, budget := store.putBudget schema }) ∧
      validateSchemaProto normalize schema = .ok () ∧
      (store.schemaBytes schema.tableName < estimateSchemaBytes schema →
        store.budget.Fits (estimateSchemaBytes schema - store.schemaBytes schema.tableName))) := by
  have hbs : ((store.schemas.lookup schema.tableName).map estimateSchemaBytes).getD 0
      = store.schemaBytes schema.tableName := rfl
  rw [putSchemaInMemory, hbs]
  rcases hval : validateSchemaProto normalize schema with e | _
  · exact .inl ⟨e, rfl, by simp⟩
  dsimp only
  by_cases hlt : store.schemaBytes schema.tableName < estimateSchemaBytes schema
  · rw [if_pos hlt, putBudget, if_pos hlt]
    by_cases hfits : store.budget.Fits
        (estimateSchemaBytes schema - store.schemaBytes schema.tableName)
    · rw [tryReserve_of_fits hfits]
      exact .inr ⟨rfl, rfl, fun _ ↦ hfits⟩
    · rw [tryReserve_of_not_fits (Nat.sub_pos_of_lt hlt) hfits]
      exact .inl ⟨_, rfl, fun _ ↦ ⟨hlt, hfits⟩⟩
  · rw [if_neg hlt, putBudget, if_neg hlt]
    by_cases hgt : estimateSchemaBytes schema < store.schemaBytes schema.tableName
    · rw [if_pos hgt]
      exact .inr ⟨rfl, rfl, fun h ↦ absurd h hlt⟩
    · rw [if_neg hgt, Nat.sub_eq_zero_of_le (Nat.le_of_not_lt hgt), release_zero h.used]
      exact .inr ⟨rfl, rfl, fun h ↦ absurd h hlt⟩

/-- The old manifest is released first, and the new one reserved in what is left. -/
theorem setManifestInMemory_cases (h : store.Counted) (table : String)
    (files : List ParquetFileMeta) (hs : (store.schemas.lookup table).isSome) :
    let released := store.budget.release (store.manifestBytes table)
    let bytes := estimateManifestDelta table files
    (¬ released.Fits bytes ∧ ∃ e, store.setManifestInMemory table files
        = (.error e, { store with budget := released })) ∨
      (released.Fits bytes ∧ store.setManifestInMemory table files = (.ok (), { store with
        toMetaMaps := store.toMetaMaps.setManifest table files
        budget := { released with usedBytes := released.usedBytes + bytes } })) := by
  intro released bytes
  obtain ⟨_, hs⟩ := isSome_iff_exists.mp hs
  obtain ⟨m, hm⟩ := h.lookup_manifest hs
  have hrel : store.budget.release (estimateManifestDelta table m.files) = released := by
    simp only [released, MetaMaps.manifestBytes, valueAt, hm]
    rfl
  simp only [setManifestInMemory, hs, hm, hrel]
  by_cases hfits : released.Fits bytes
  · rw [tryReserve_of_fits hfits]
    exact .inr ⟨hfits, rfl⟩
  · rw [tryReserve_of_not_fits (estimateManifestDelta_pos table files) hfits]
    exact .inl ⟨hfits, _, rfl⟩

theorem dropTableInMemory_of_some (hs : (store.schemas.lookup table).isSome) :
    store.dropTableInMemory table = (.ok (), { store with
      toMetaMaps := store.toMetaMaps.dropTable table
      budget := (store.budget.release (store.schemaBytes table)).release
        (store.manifestBytes table) }) := by
  obtain ⟨schema, hs⟩ := isSome_iff_exists.mp hs
  have hbs : store.schemaBytes table = estimateSchemaBytes schema := by
    rw [MetaMaps.schemaBytes, valueAt, hs]
    rfl
  simp only [dropTableInMemory, hs, hbs]
  rfl

/-! ### Every call keeps the counter a machine word -/

section

variable (h : store.Counted)
  (hlimit : budget.limitBytes = store.budget.limitBytes)
  (hused : budget.usedBytes < 2 ^ 64)

include h hlimit hused

theorem Counted.putSchema
    (hsize : store.schemas.lookup schema.tableName = none → estimateSchemaBytes schema < 2 ^ 64) :
    Counted { store with toMetaMaps := store.toMetaMaps.putSchema schema, budget } where
  used := hused
  limit := hlimit ▸ h.limit
  keys table := by
    by_cases htab : table = schema.tableName
    · subst htab
      simp only [MetaMaps.putSchema, AList.lookup_insert, orDefault]
      split
      · next m hm => rw [hm]; rfl
      · rw [AList.lookup_insert]; rfl
    · simp only [MetaMaps.putSchema, orDefault, AList.lookup_insert_ne htab, h.keys]
      split
      · rfl
      · rw [AList.lookup_insert_ne htab]
  manifests table := by
    have hold := h.manifests table
    simp only [MetaMaps.manifestBytes, valueAt] at hold ⊢
    simp only [MetaMaps.putSchema, orDefault]
    split
    · exact hold
    · next hm =>
      by_cases htab : table = schema.tableName
      · subst htab
        rw [AList.lookup_insert]
        refine (estimateManifestDelta_nil_le schema).trans_lt (hsize ?_)
        rw [← not_isSome_iff_eq_none, h.keys, hm]
        exact Bool.false_ne_true
      · rw [AList.lookup_insert_ne htab]
        exact hold

theorem Counted.setManifest {files : List ParquetFileMeta}
    (hs : (store.schemas.lookup table).isSome)
    (hsize : estimateManifestDelta table files < 2 ^ 64) :
    Counted { store with toMetaMaps := store.toMetaMaps.setManifest table files, budget } where
  used := hused
  limit := hlimit ▸ h.limit
  keys t := by
    by_cases ht : t = table
    · subst ht
      simp only [MetaMaps.setManifest, AList.lookup_insert, hs, isSome_some]
    · simp only [MetaMaps.setManifest, AList.lookup_insert_ne ht, h.keys]
  manifests t := by
    have hold := h.manifests t
    simp only [MetaMaps.manifestBytes, valueAt, MetaMaps.setManifest] at hold ⊢
    by_cases ht : t = table
    · subst ht
      rw [AList.lookup_insert]
      exact hsize
    · rw [AList.lookup_insert_ne ht]
      exact hold

theorem Counted.dropTable :
    Counted { store with toMetaMaps := store.toMetaMaps.dropTable table, budget } where
  used := hused
  limit := hlimit ▸ h.limit
  keys t := by
    by_cases ht : t = table
    · subst ht
      simp only [MetaMaps.dropTable, AList.lookup_erase]
      rfl
    · simp only [MetaMaps.dropTable, AList.lookup_erase_ne ht, h.keys]
  manifests t := by
    have hold := h.manifests t
    simp only [MetaMaps.manifestBytes, valueAt, MetaMaps.dropTable] at hold ⊢
    by_cases ht : t = table
    · subst ht
      rw [AList.lookup_erase]
      exact Nat.two_pow_pos 64
    · rw [AList.lookup_erase_ne ht]
      exact hold

end

theorem Counted.reserved_lt (h : store.Counted) {bytes : ℕ} (hfits : store.budget.Fits bytes) :
    store.budget.usedBytes + bytes < 2 ^ 64 :=
  (hfits.le h.limit).trans_lt (h.limit.trans_le (Nat.sub_le _ _))

theorem Counted.inMemory (h : store.Counted) (normalize : String → Result String) (c : MetaCall) :
    (store.inMemory normalize c).2.Counted := by
  cases c with
  | createSchema schema =>
    by_cases hacc : store.Accounted normalize (.createSchema schema)
    · obtain ⟨e, he⟩ := createSchemaInMemory_of_refused hacc
      rw [MetaStore.inMemory, he]
      exact h
    · simp only [Accounted, Classical.not_imp, not_not] at hacc
      obtain ⟨hval, hnew, hfits⟩ := hacc
      rw [MetaStore.inMemory, createSchemaInMemory_of_fits hval hnew hfits]
      have hlt := h.reserved_lt hfits
      exact h.putSchema rfl hlt fun _ ↦ (Nat.le_add_left _ _).trans_lt hlt
  | putSchema schema =>
    rw [MetaStore.inMemory]
    rcases putSchemaInMemory_cases normalize h schema with
      ⟨e, he, -⟩ | ⟨hok, -, hfits⟩
    · rw [he]
      exact h
    rw [hok, putBudget]
    by_cases hlt : store.schemaBytes schema.tableName < estimateSchemaBytes schema
    · rw [if_pos hlt]
      have hused := h.reserved_lt (hfits hlt)
      refine h.putSchema rfl hused fun hnone ↦ ?_
      rw [schemaBytes_of_none hnone, Nat.sub_zero] at hused
      exact (Nat.le_add_left _ _).trans_lt hused
    · rw [if_neg hlt]
      refine h.putSchema rfl usedBytes_release_lt fun hnone ↦ ?_
      rw [schemaBytes_of_none hnone] at hlt
      exact absurd (estimateSchemaBytes_pos schema) hlt
  | setManifest table files =>
    by_cases hs : (store.schemas.lookup table).isSome
    · rw [MetaStore.inMemory]
      rcases setManifestInMemory_cases h table files hs with ⟨-, _, he⟩ | ⟨hfits, hok⟩
      · rw [he]
        exact { h with used := usedBytes_release_lt }
      · rw [hok]
        have hlt := (hfits.le h.limit).trans_lt (h.limit.trans_le (Nat.sub_le _ _))
        exact h.setManifest (by rfl) hlt hs ((Nat.le_add_left _ _).trans_lt hlt)
    · rw [MetaStore.inMemory, setManifestInMemory, not_isSome_iff_eq_none.mp hs]
      exact h
  | dropTable table =>
    by_cases hs : (store.schemas.lookup table).isSome
    · rw [MetaStore.inMemory, dropTableInMemory_of_some hs]
      exact h.dropTable rfl usedBytes_release_lt
    · rw [MetaStore.inMemory, dropTableInMemory, not_isSome_iff_eq_none.mp hs]
      exact h

/-! ### When each call is exact -/

variable (h : store.Counted)

include h

theorem createSchema_exact_iff (schema : TableSchema) :
    store.Exact (store.createSchemaInMemory normalize schema).1
        (store.createSchemaInMemory normalize schema).2 ↔
      store.Accounted normalize (.createSchema schema) := by
  refine ⟨fun hex hval hnew hfits ↦ ?_, fun hacc ↦ ?_⟩
  · rw [createSchemaInMemory_of_fits hval hnew hfits, exact_ok_iff] at hex
    have hchg := store.charge_putSchema_of_none (h.lookup_manifest_none hnew)
    rw [schemaBytes_of_none hnew] at hchg
    have hpos := estimateManifestDelta_pos schema.tableName []
    dsimp only at hex
    omega
  · obtain ⟨_, he⟩ := createSchemaInMemory_of_refused hacc
    rw [he]
    exact exact_of_unchanged

theorem putSchema_exact_iff (schema : TableSchema) :
    store.Exact (store.putSchemaInMemory normalize schema).1
        (store.putSchemaInMemory normalize schema).2 ↔
      store.Accounted normalize (.putSchema schema) := by
  rcases hs : store.schemas.lookup schema.tableName with _ | old
  · -- A new table: the call is exact only if it fails.
    have hbs := schemaBytes_of_none hs
    have hacc : store.Accounted normalize (.putSchema schema) ↔
        (validateSchemaProto normalize schema = .ok () →
          ¬ store.budget.Fits (estimateSchemaBytes schema)) := by
      rw [Accounted, hs]
      exact Iff.rfl
    rw [hacc]
    have hcases := putSchemaInMemory_cases normalize h schema
    simp only [hbs, Nat.sub_zero] at hcases
    rcases hcases with ⟨e, he, hfail⟩ | ⟨hok, hval, hfits⟩
    · rw [he]
      exact iff_of_true exact_of_unchanged fun hval ↦ (hfail hval).2
    · have hpos := estimateSchemaBytes_pos schema
      refine iff_of_false (fun hex ↦ ?_) fun hall ↦ hall hval (hfits hpos)
      have hchg := store.charge_putSchema_of_none (h.lookup_manifest_none hs)
      have hman := estimateManifestDelta_pos schema.tableName []
      rw [hok, exact_ok_iff, putBudget, hbs, if_pos hpos] at hex
      dsimp only at hex
      omega
  · -- A schema that replaces another: only a release can go wrong.
    obtain ⟨_, hm⟩ := h.lookup_manifest hs
    have hchg := store.charge_putSchema_of_some hm
    have hacc : store.Accounted normalize (.putSchema schema) ↔
        (validateSchemaProto normalize schema = .ok () →
          store.schemaBytes schema.tableName - estimateSchemaBytes schema
            ≤ store.budget.usedBytes) := by
      rw [Accounted, hs]
      exact Iff.rfl
    rw [hacc]
    rcases putSchemaInMemory_cases normalize h schema with
      ⟨e, he, hfail⟩ | ⟨hok, hval, -⟩
    · rw [he]
      refine iff_of_true exact_of_unchanged fun hval ↦ ?_
      have hlt := (hfail hval).1
      omega
    · rw [hok, exact_ok_iff, putBudget]
      by_cases hlt : store.schemaBytes schema.tableName < estimateSchemaBytes schema
      · rw [if_pos hlt]
        dsimp only
        refine iff_of_true ?_ fun _ ↦ ?_ <;> omega
      · rw [if_neg hlt]
        have hrel := release_exact_iff h.used
          (store.schemaBytes schema.tableName - estimateSchemaBytes schema)
        dsimp only
        refine ⟨fun hex _ ↦ hrel.mp ?_, fun hle ↦ ?_⟩
        · omega
        · have := hrel.mpr (hle hval)
          omega

theorem setManifest_exact_iff (table : String) (files : List ParquetFileMeta) :
    store.Exact (store.setManifestInMemory table files).1
        (store.setManifestInMemory table files).2 ↔
      store.Accounted normalize (.setManifest table files) := by
  by_cases hs : (store.schemas.lookup table).isSome
  · have hchg := store.charge_setManifest table files
    have hrel := release_exact_iff h.used (store.manifestBytes table)
    have hpos : 0 < store.manifestBytes table := by
      obtain ⟨_, hs⟩ := isSome_iff_exists.mp hs
      obtain ⟨m, hm⟩ := h.lookup_manifest hs
      rw [MetaMaps.manifestBytes, valueAt, hm]
      exact estimateManifestDelta_pos table m.files
    rcases setManifestInMemory_cases h table files hs with ⟨hfits, _, he⟩ | ⟨hfits, hok⟩
    · -- The old manifest stays released, and its size is not a multiple of 2 ^ 64.
      rw [he]
      refine iff_of_false (fun hex ↦ ?_) fun hacc ↦ hfits (hacc hs).2
      have hword := h.manifests table
      have hused := h.used
      simp only [Exact, release] at hex
      omega
    · rw [hok, exact_ok_iff]
      dsimp only
      refine ⟨fun hex _ ↦ ⟨hrel.mp ?_, hfits⟩, fun hacc ↦ ?_⟩
      · omega
      · have := hrel.mpr (hacc hs).1
        omega
  · rw [setManifestInMemory, not_isSome_iff_eq_none.mp hs]
    exact iff_of_true exact_of_unchanged fun h ↦ absurd h hs

theorem dropTable_exact_iff (table : String) :
    store.Exact (store.dropTableInMemory table).1 (store.dropTableInMemory table).2 ↔
      store.Accounted normalize (.dropTable table) := by
  by_cases hs : (store.schemas.lookup table).isSome
  · have hchg := store.charge_dropTable table
    rw [dropTableInMemory_of_some hs, exact_ok_iff]
    dsimp only
    refine ⟨fun hex _ ↦ ?_, fun hacc ↦ ?_⟩
    · omega
    · have hle := hacc hs
      have hfst := release_of_le h.used ((Nat.le_add_right _ _).trans hle)
      have hleft : store.manifestBytes table
          ≤ (store.budget.release (store.schemaBytes table)).usedBytes := by omega
      have hsnd := release_of_le usedBytes_release_lt hleft
      omega
  · rw [dropTableInMemory, not_isSome_iff_eq_none.mp hs]
    exact iff_of_true exact_of_unchanged fun h ↦ absurd h hs

theorem inMemory_exact_iff (c : MetaCall) :
    store.Exact (store.inMemory normalize c).1 (store.inMemory normalize c).2 ↔
      store.Accounted normalize c := by
  cases c with
  | createSchema schema => exact createSchema_exact_iff h schema
  | putSchema schema => exact putSchema_exact_iff h schema
  | setManifest table files => exact setManifest_exact_iff h table files
  | dropTable table => exact dropTable_exact_iff h table

end

end MetaStore

open MetaStore

/-! ## Sequences of calls -/

namespace MetaNode

variable (crc32 : Bytes → UInt32) (codec : RecordCodec)
  (normalize : String → Result String)

/-- A call, with what the disk does and the time. -/
def callStep (n : MetaNode) (a : MetaIo × ℤ × MetaCall) : Option MetaNode :=
  some (n.call crc32 codec normalize a.1 a.2.1 a.2.2).2

variable {crc32 codec normalize} {n : MetaNode}

theorem counted_call (h : n.store.Counted) (io : MetaIo) (now : ℤ) (c : MetaCall) :
    (n.call crc32 codec normalize io now c).2.store.Counted := by
  obtain ⟨-, hmaps, hbud⟩ := memory_call crc32 codec normalize io now n c
  have hm := h.inMemory normalize c
  refine ⟨?_, ?_, ?_, ?_⟩
  · rw [hbud]
    exact hm.used
  · rw [hbud]
    exact hm.limit
  · rw [hmaps]
    exact hm.keys
  · rw [hmaps]
    exact hm.manifests

theorem counted_open {limit : ℕ} (hlimit : limit < 2 ^ 64 - 1)
    (h : MetaStore.open crc32 codec normalize limit .empty = .ok n) : n.store.Counted := by
  rw [open_empty] at h
  cases h
  have hused : 64 < 2 ^ 64 := by decide
  exact ⟨hused, max_lt hlimit (by decide), fun _ ↦ rfl, fun _ ↦ Nat.two_pow_pos 64⟩

theorem counted_of_reaches {limit : ℕ} {n₀ : MetaNode} (hlimit : limit < 2 ^ 64 - 1)
    (hopen : MetaStore.open crc32 codec normalize limit .empty = .ok n₀)
    (h : Reaches (callStep crc32 codec normalize) n₀ n) : n.store.Counted :=
  h.invariant (I := fun n ↦ n.store.Counted) (counted_open hlimit hopen) fun _ a _ hs hstep ↦
    some.inj hstep ▸ counted_call hs a.1 a.2.1 a.2.2

/-- **When a call is exact.** After any calls on a store that was opened on an empty directory, the
next call changes `used_bytes` by exactly the change of the charge if it succeeds, without wrapping,
and not at all if it fails, if and only if it is `Accounted` for: it creates no table, there are as
many bytes in the counter as it releases, and a new manifest fits. -/
theorem call_exact_iff {limit : ℕ} {n₀ n : MetaNode} (hlimit : limit < 2 ^ 64 - 1)
    (hopen : MetaStore.open crc32 codec normalize limit .empty = .ok n₀)
    (h : Reaches (callStep crc32 codec normalize) n₀ n) (io : MetaIo) (now : ℤ)
    (c : MetaCall) :
    n.store.Exact (n.call crc32 codec normalize io now c).1
        (n.call crc32 codec normalize io now c).2.store ↔
      n.store.Accounted normalize c := by
  obtain ⟨hres, hmaps, hbud⟩ := memory_call crc32 codec normalize io now n c
  rw [hres, exact_congr hmaps hbud]
  exact inMemory_exact_iff (counted_of_reaches hlimit hopen h) c

/-- A manifest that is set again fits, and there is enough to release. -/
theorem set_manifest_exact : ∃ n₀ n,
    MetaStore.open (fun _ ↦ 0) .plain .ok 1000 .empty = .ok n₀ ∧
    Reaches (callStep (fun _ ↦ 0) .plain .ok) n₀ n ∧ n.store.budget.usedBytes = 139 ∧
    n.store.Exact (n.call (fun _ ↦ 0) .plain .ok .healthy 0 (.setManifest "t" [])).1
      (n.call (fun _ ↦ 0) .plain .ok .healthy 0 (.setManifest "t" [])).2.store := by
  have hopen : MetaStore.open (fun _ ↦ 0) .plain .ok 1000 .empty
      = .ok ((MetaLog.opened 1000 0 none []).node []) := open_empty ..
  have hrun : Reaches (callStep (fun _ ↦ 0) .plain .ok)
      ((MetaLog.opened 1000 0 none []).node []) _ :=
    reaches_of_run [(MetaIo.healthy, 0, MetaCall.createSchema (timeSchema "t"))] rfl
  refine ⟨_, _, hopen, hrun, by decide +kernel, ?_⟩
  refine (call_exact_iff (by decide) hopen hrun .healthy 0 (.setManifest "t" [])).mpr fun _ ↦ ?_
  rw [MetaMemoryBudget.Fits]
  decide +kernel

/-- Creating a table is not exact, creating and dropping one takes 33 bytes from the counter, and
doing so twice makes it wrap. -/
theorem create_and_drop_wraps : ∃ n₀,
    MetaStore.open (fun _ ↦ 0) .plain .ok 1000 .empty = .ok n₀ ∧
    n₀.store.budget.usedBytes = 64 ∧
    ¬ n₀.store.Exact
      (n₀.call (fun _ ↦ 0) .plain .ok .healthy 0 (.createSchema (timeSchema "t"))).1
      (n₀.call (fun _ ↦ 0) .plain .ok .healthy 0 (.createSchema (timeSchema "t"))).2.store ∧
    (let r := n₀.run (fun _ ↦ 0) .plain .ok
        [(0, .createSchema (timeSchema "t")), (0, .dropTable "t")]
     r.2.length = 2 ∧ r.1.store.budget.usedBytes = 31) ∧
    (let r := n₀.run (fun _ ↦ 0) .plain .ok
        [(0, .createSchema (timeSchema "t")), (0, .dropTable "t"),
          (0, .createSchema (timeSchema "t")), (0, .dropTable "t")]
     r.2.length = 4 ∧ r.1.store.budget.usedBytes = 2 ^ 64 - 2) := by
  refine ⟨_, open_empty .., rfl, ?_, ?_, ?_⟩
  all_goals decide +kernel

end MetaNode

end MonoTS
