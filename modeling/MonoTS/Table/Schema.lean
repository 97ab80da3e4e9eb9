import MonoTS.Catalog.Store

/-!
# Schemas that grow, and batches of an older schema

A table's schema is a list of columns with distinct names. It changes in one way: a nullable column
is appended. Rows written before that keep the columns they had, in memory, in the WAL and in SSTs,
and whoever reads an SST aligns its batches to the current schema, with nulls for what is missing.

`align_of_extends` says that this works for every batch whose schema the current one extends.
-/

open List

namespace MonoTS

/-! ## Schemas -/

/-- The columns of a table. `create_table` rejects duplicate names. -/
structure Schema where
  columns : List ColumnDef
  nodup : (columns.map ColumnDef.name).Nodup

namespace Schema

/-- `CatalogManager::add_column`, on the columns: appended columns are nullable, since historic rows
have no value. -/
def addColumn (normalizeTypeName : String → Result String) (schema : Schema) (newCol : ColumnDef) :
    Result Schema := do
  let dataType ← normalizeTypeName newCol.dataType
  if h : newCol.name ∈ schema.columns.map ColumnDef.name then
    .error (.schema s!"column {newCol.name} already exists")
  else
    .ok
      { columns := schema.columns ++ [⟨newCol.name, dataType, true⟩]
        nodup := by
          rw [map_append, map_singleton]
          exact schema.nodup.append (nodup_singleton _) (disjoint_singleton.mpr h) }

/-- The schema is the older one with nullable columns appended. -/
def Extends (schema : Schema) (older : List ColumnDef) : Prop :=
  ∃ added, schema.columns = older ++ added ∧ ∀ c ∈ added, c.nullable = true

variable {schema schema' : Schema} {older : List ColumnDef}

theorem extends_self (h : older = schema.columns) : schema.Extends older :=
  ⟨[], by rw [h, append_nil], forall_mem_nil _⟩

variable {normalizeTypeName : String → Result String} {newCol : ColumnDef}

theorem columns_addColumn (h : schema.addColumn normalizeTypeName newCol = .ok schema') :
    ∃ dataType, schema'.columns = schema.columns ++ [⟨newCol.name, dataType, true⟩] := by
  unfold addColumn at h
  cases hn : normalizeTypeName newCol.dataType with
  | error =>
    rw [hn] at h
    cases h
  | ok dataType =>
    rw [hn] at h
    change dite _ _ _ = _ at h
    split_ifs at h
    cases h
    exact ⟨dataType, rfl⟩

theorem Extends.addColumn (h : schema.Extends older)
    (hadd : schema.addColumn normalizeTypeName newCol = .ok schema') : schema'.Extends older := by
  obtain ⟨added, hcols, hnull⟩ := h
  obtain ⟨dataType, hcols'⟩ := columns_addColumn hadd
  refine ⟨added ++ [⟨newCol.name, dataType, true⟩], ?_, ?_⟩
  · rw [hcols', hcols, append_assoc]
  · exact forall_mem_append.mpr ⟨hnull, forall_mem_singleton.mpr rfl⟩

end Schema

/-! ## Batches -/

/-- An Arrow batch: its columns with their values, all of one length. -/
structure RecordBatch (Value : Type*) where
  numRows : ℕ
  fields : List (ColumnDef × List.Vector (Option Value) numRows)
  deriving DecidableEq

namespace RecordBatch

variable {Value : Type*} (batch : RecordBatch Value)

/-- The batch's own schema. -/
def schema : List ColumnDef := batch.fields.map Prod.fst

def nullArray (numRows : ℕ) : List.Vector (Option Value) numRows := List.Vector.replicate _ none

/-- The values of a column, nulls if the batch does not have it. -/
def values (batch : RecordBatch Value) (field : ColumnDef) :
    List.Vector (Option Value) batch.numRows :=
  match batch.fields.find? fun f ↦ f.1.name = field.name with
  | some (_, values) => values
  | none => nullArray _

variable (source : RecordBatch Value)

/-- The values of one column of the target schema. -/
def alignColumn (field : ColumnDef) :
    Result (ColumnDef × List.Vector (Option Value) source.numRows) :=
  match source.fields.find? fun f ↦ f.1.name = field.name with
  | some (sourceField, values) =>
    if sourceField.dataType ≠ field.dataType then
      .error (.schema (s!"column `{field.name}` type mismatch: expected {field.dataType}, " ++
        s!"got {sourceField.dataType}"))
    else .ok (field, values)
  | none =>
    if field.nullable = false then
      .error (.schema s!"cannot align batch: column `{field.name}` is not nullable")
    else .ok (field, nullArray _)

/-- `BatchAligner::align`, with which SSTs of an older schema are read. -/
def align (target : Schema) : Result (RecordBatch Value) :=
  if source.schema = target.columns then .ok source
  else do
    let fields ← target.columns.mapM source.alignColumn
    .ok ⟨source.numRows, fields⟩

/-- The batch with null columns appended. -/
def withNulls (added : List ColumnDef) : RecordBatch Value :=
  ⟨batch.numRows, batch.fields ++ added.map fun c ↦ (c, nullArray _)⟩

@[simp] theorem withNulls_nil : batch.withNulls [] = batch := by
  simp [withNulls]

theorem mapM_eq_ok {α β : Type*} {f : α → Result β} {as : List α} {bs : List β}
    (h : List.Forall₂ (fun a b ↦ f a = .ok b) as bs) : as.mapM f = .ok bs := by
  induction h with
  | nil => rfl
  | cons ha _ ih =>
    rw [mapM_cons, ha, ih]
    rfl

variable {source : RecordBatch Value} {target : Schema}

theorem alignColumn_own (hnd : (source.schema.map ColumnDef.name).Nodup)
    {f : ColumnDef × List.Vector (Option Value) source.numRows} (hf : f ∈ source.fields) :
    source.alignColumn f.1 = .ok f := by
  have hfind : source.fields.find? (fun g ↦ g.1.name = f.1.name) = some f := by
    obtain ⟨before, behind, hflds⟩ := append_of_mem hf
    refine find?_eq_some_iff_append.mpr ⟨decide_eq_true rfl, before, behind, hflds, ?_⟩
    rw [schema, hflds, map_append, map_append, map_cons, map_cons] at hnd
    intro g hg
    have hne : g.1.name ≠ f.1.name := fun heq ↦ (disjoint_of_nodup_append hnd)
      (mem_map_of_mem (mem_map_of_mem hg)) (heq ▸ mem_cons_self)
    rw [decide_eq_false hne, Bool.not_false]
  unfold alignColumn
  rw [hfind]
  exact if_neg (not_not_intro rfl)

theorem alignColumn_added {c : ColumnDef} (hname : c.name ∉ source.schema.map ColumnDef.name)
    (hnull : c.nullable = true) : source.alignColumn c = .ok (c, nullArray _) := by
  have hfind : source.fields.find? (fun g ↦ g.1.name = c.name) = none := by
    refine find?_eq_none.mpr fun g hg heq ↦ hname ?_
    rw [← of_decide_eq_true heq]
    exact mem_map_of_mem (mem_map_of_mem hg)
  unfold alignColumn
  rw [hfind]
  exact if_neg (by rw [hnull]; exact Bool.noConfusion)

/-- **A batch of an older schema reads as it is, with nulls in the columns added since.** -/
theorem align_of_extends {added : List ColumnDef}
    (hcols : target.columns = source.schema ++ added) (hnull : ∀ c ∈ added, c.nullable = true) :
    source.align target = .ok (source.withNulls added) := by
  have hnd := target.nodup
  rw [hcols, map_append] at hnd
  have hflds : target.columns.mapM source.alignColumn = .ok (source.withNulls added).fields := by
    rw [hcols]
    refine mapM_eq_ok (rel_append (R := fun c f ↦ source.alignColumn c = .ok f) ?_ ?_)
    · refine forall₂_map_left_iff.mpr (forall₂_same.mpr fun f hf ↦ ?_)
      exact alignColumn_own (List.Nodup.of_append_left hnd) hf
    · refine forall₂_map_right_iff.mpr (forall₂_same.mpr fun c hc ↦ ?_)
      exact alignColumn_added (fun hname ↦ disjoint_of_nodup_append hnd hname
        (mem_map_of_mem hc)) (hnull c hc)
  unfold align
  split_ifs with heq
  · -- The same schema: nothing was added.
    obtain rfl := append_right_eq_self.mp (hcols.symm.trans heq.symm)
    rw [withNulls_nil]
  · rw [hflds]
    rfl

end RecordBatch

end MonoTS
