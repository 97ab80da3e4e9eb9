import MonoTS.Query.Provider

/-!
# Pruning by time

A scan folds the filters it is given into one range of timestamps, skips the files outside of it and
drops rows of the others. A comparison of the time column with a literal narrows the range, an
equality replaces it, and everything else leaves it alone.

A filter is a DataFusion expression. What an expression says about a row is fixed here for the forms
the extraction looks at; for all others it is up to the row, which says of every expression whether
it holds and of every operand what its value is. So the results hold whatever these expressions
mean.

The extraction reads `time NOT BETWEEN a AND b` as if it were `time BETWEEN a AND b`, which is the
range its rows lie outside of. Bounds extracted in front of an equality are forgotten, so this does
harm only behind the last equality: `pruning_sound_iff`.
-/

open List Option

namespace MonoTS

variable {ρ : Type*}

/-! ## Expressions -/

/-- The unit of a timestamp. -/
inductive TimeUnit where
  | second
  | millisecond
  | microsecond
  | nanosecond
  deriving DecidableEq, Repr

/-- The types the time column can have. -/
inductive TimeType where
  | int64
  | timestamp (unit : TimeUnit)

/-- A literal; `none` is NULL. Time zones are left out. -/
inductive ScalarValue where
  | int64 (v : Option ℤ)
  | timestamp (unit : TimeUnit) (v : Option ℤ)
  | other (text : String)

/-- A binary operator. -/
inductive Operator where
  | eq
  | notEq
  | lt
  | ltEq
  | gt
  | gtEq
  | other (name : String)

/-- A DataFusion expression. -/
inductive Expr where
  | column (name : String)
  | literal (value : ScalarValue)
  | binaryExpr (left : Expr) (op : Operator) (right : Expr)
  | between (expr : Expr) (negated : Bool) (low high : Expr)
  | aliased (expr : Expr) (name : String)
  | other (text : String)

def timeColumn : String := "time"

namespace Expr

def isTimestampColumn : Expr → Bool
  | .column name => name = timeColumn
  | _ => false

/-- The filters that are advertised to the optimizer as pushed down inexactly. -/
def isTimeFilter : Expr → Bool
  | .binaryExpr left _ right => left.isTimestampColumn || right.isTimestampColumn
  | .between expr _ _ _ => expr.isTimestampColumn
  | .aliased expr _ => expr.isTimeFilter
  | _ => false

def scalarToI64 : Expr → Option ℤ
  | .literal (.int64 v) => v
  | .literal (.timestamp _ v) => v
  | _ => none

end Expr

/-! ## The extraction -/

namespace TimeRange

variable (range : TimeRange)

/-- `range.min_ts.map_or(val, |m| m.max(val))` -/
def raiseMin (val : ℤ) : TimeRange :=
  { range with minTs := some (range.minTs.elim val fun m ↦ max m val) }

/-- `range.max_ts.map_or(val, |m| m.min(val))` -/
def lowerMax (val : ℤ) : TimeRange :=
  { range with maxTs := some (range.maxTs.elim val fun m ↦ min m val) }

/-- `TimeRange::default()` -/
def unbounded : TimeRange := ⟨none, none⟩

end TimeRange

open TimeRange

variable (range : TimeRange)

def applyTsOp (op : Operator) (right : Expr) : TimeRange :=
  match right.scalarToI64 with
  | none => range
  | some val =>
    match op with
    | .gt | .gtEq => range.raiseMin val
    | .lt | .ltEq => range.lowerMax val
    | .eq => ⟨some val, some val⟩
    | _ => range

def applyTsOpReversed (op : Operator) (left : Expr) : TimeRange :=
  match left.scalarToI64 with
  | none => range
  | some val =>
    match op with
    | .lt | .ltEq => range.raiseMin val
    | .gt | .gtEq => range.lowerMax val
    | .eq => ⟨some val, some val⟩
    | _ => range

def extractFromExpr (range : TimeRange) : Expr → TimeRange
  | .binaryExpr left op right =>
    if left.isTimestampColumn then applyTsOp range op right
    else if right.isTimestampColumn then applyTsOpReversed range op left
    else range
  | .between expr _ low high =>
    if expr.isTimestampColumn then
      -- whether the range is negated is not looked at
      let range := low.scalarToI64.elim range range.raiseMin
      high.scalarToI64.elim range range.lowerMax
    else range
  | .aliased expr _ => extractFromExpr range expr
  | _ => range

def extractTimeRange (filters : List Expr) : TimeRange :=
  filters.foldl extractFromExpr .unbounded

/-- The rows of a batch within the range; `none` if there are none left. -/
def filterBatchByTime (batch : List (ℤ × ρ)) (range : TimeRange) : Option (List (ℤ × ρ)) :=
  if range.minTs.isNone && range.maxTs.isNone then some batch
  else
    let keep := batch.map fun x ↦ range.contains x.1
    if keep.all id then some batch
    else if keep.all not then none
    else
      let filtered := batch.filter fun x ↦ range.contains x.1
      if filtered.isEmpty then none else some filtered

/-! ## What the filters mean -/

/-- A comparison, for the operators the extraction knows and for `<>`. -/
def Operator.compare : Operator → Option (ℤ → ℤ → Bool)
  | .eq => some fun a b ↦ a = b
  | .notEq => some fun a b ↦ a ≠ b
  | .lt => some fun a b ↦ a < b
  | .ltEq => some fun a b ↦ a ≤ b
  | .gt => some fun a b ↦ b < a
  | .gtEq => some fun a b ↦ b ≤ a
  | .other _ => none

/-- The value of a literal of the column's own type; NULL is `some none`. -/
def ScalarValue.valueIn : TimeType → ScalarValue → Option (Option ℤ)
  | .int64, .int64 v => some v
  | .timestamp unit, .timestamp unit' v => if unit = unit' then some v else none
  | _, _ => none

/-- A row as the filters see it: its timestamp, and an answer for every expression the forms below
do not settle. -/
structure FilterRow where
  ts : ℤ
  /-- Operands, as numbers in the unit of the time column; `none` is NULL. -/
  value : Expr → Option ℤ
  truth : Expr → Bool

namespace FilterRow

variable (unit : TimeType) (row : FilterRow)

def operand : Expr → Option ℤ
  | .column name => if name = timeColumn then some row.ts else row.value (.column name)
  | .literal v => (v.valueIn unit).getD (row.value (.literal v))
  | e => row.value e

/-- The filter lets the row through. -/
def Holds : Expr → Prop
  | .binaryExpr left op right =>
    if left.isTimestampColumn || right.isTimestampColumn then
      match op.compare with
      | some cmp => ∃ a ∈ row.operand unit left, ∃ b ∈ row.operand unit right, cmp a b = true
      | none => row.truth (.binaryExpr left op right) = true
    else row.truth (.binaryExpr left op right) = true
  | .between expr negated low high =>
    if expr.isTimestampColumn then
      if negated then
        (∃ a ∈ row.operand unit low, row.ts < a) ∨ ∃ b ∈ row.operand unit high, b < row.ts
      else (∃ a ∈ row.operand unit low, a ≤ row.ts) ∧ ∃ b ∈ row.operand unit high, row.ts ≤ b
    else row.truth (.between expr negated low high) = true
  | .aliased expr _ => Holds expr
  | e => row.truth e = true

/-- The row passes the conjunction of the filters. -/
def Satisfies (filters : List Expr) : Prop := ∀ e ∈ filters, row.Holds unit e

end FilterRow

open FilterRow

namespace Expr

/-- A literal that the extraction would read is one of the column's own type. -/
def LiteralInUnit (unit : TimeType) : Expr → Prop
  | .literal v => (literal v).scalarToI64.isSome → (v.valueIn unit).isSome
  | _ => True

/-- Literals that are compared with the time column are of its own type. -/
def InUnit (unit : TimeType) : Expr → Prop
  | .binaryExpr left _ right =>
    (left.isTimestampColumn → right.LiteralInUnit unit) ∧
      (right.isTimestampColumn → left.LiteralInUnit unit)
  | .between expr _ low high =>
    expr.isTimestampColumn → low.LiteralInUnit unit ∧ high.LiteralInUnit unit
  | .aliased expr _ => expr.InUnit unit
  | _ => True

/-- The value an equality of the time column and a literal asks for. -/
def equality : Expr → Option ℤ
  | .binaryExpr left .eq right =>
    if left.isTimestampColumn then right.scalarToI64
    else if right.isTimestampColumn then left.scalarToI64
    else none
  | .aliased expr _ => expr.equality
  | _ => none

/-- `time NOT BETWEEN _ AND _` -/
def isNegatedRange : Expr → Bool
  | .between expr negated _ _ => expr.isTimestampColumn && negated
  | .aliased expr _ => expr.isNegatedRange
  | _ => false

/-- The literal bounds of a range. -/
def bounds : Expr → TimeRange
  | .between _ _ low high => ⟨low.scalarToI64, high.scalarToI64⟩
  | .aliased expr _ => expr.bounds
  | _ => .unbounded

/-- What is extracted from a filter on its own. -/
def extracted (e : Expr) : TimeRange := extractFromExpr .unbounded e

/-- A negated range is extracted like the range itself. -/
theorem extracted_eq_bounds {e : Expr} (h : e.isNegatedRange = true) : e.extracted = e.bounds := by
  induction e with
  | between expr negated low high =>
    rw [extracted, extractFromExpr, if_pos (Bool.and_eq_true_iff.mp h).1, bounds]
    cases low.scalarToI64 <;> cases high.scalarToI64 <;> rfl
  | aliased expr name ih => exact ih h
  | _ => cases h

end Expr

/-- The filters behind the last equality. -/
def behindLastEquality (filters : List Expr) : List Expr :=
  filters.rtakeWhile fun e ↦ e.equality.isNone

/-! ## One filter -/

namespace TimeRange

variable {range : TimeRange} {ts val : ℤ}

@[simp] theorem contains_unbounded : unbounded.contains ts = true := rfl

theorem contains_raiseMin :
    (range.raiseMin val).contains ts = true ↔ range.contains ts = true ∧ val ≤ ts := by
  obtain ⟨_ | _, _⟩ := range
  · simp [raiseMin, contains, and_comm]
  · simp only [raiseMin, contains, elim_some, all_some, Bool.and_eq_true,
      decide_eq_true_eq, sup_le_iff]
    rw [and_right_comm]

theorem contains_lowerMax :
    (range.lowerMax val).contains ts = true ↔ range.contains ts = true ∧ ts ≤ val := by
  obtain ⟨_, _ | _⟩ := range
  · simp [lowerMax, contains]
  · simp only [lowerMax, contains, elim_some, all_some, Bool.and_eq_true,
      decide_eq_true_eq, le_inf_iff]
    rw [and_assoc]

theorem contains_singleton : (⟨some val, some val⟩ : TimeRange).contains ts = true ↔ ts = val := by
  simp only [contains, all_some, Bool.and_eq_true, decide_eq_true_eq]
  exact ⟨fun h ↦ h.2.antisymm h.1, fun h ↦ ⟨h.ge, h.le⟩⟩

end TimeRange

section

variable {range : TimeRange} {ts val : ℤ} {e : Expr} {op : Operator}

theorem contains_applyTsOp (hop : op ≠ .eq ∨ e.scalarToI64 = none) :
    (applyTsOp range op e).contains ts = true ↔
      range.contains ts = true ∧ (applyTsOp .unbounded op e).contains ts = true := by
  unfold applyTsOp
  cases hval : e.scalarToI64 with
  | none => simp
  | some val =>
    have hop := hop.resolve_right (by simp [hval])
    cases op with
    | eq => exact absurd rfl hop
    | lt | ltEq => simp [contains_lowerMax]
    | gt | gtEq => simp [contains_raiseMin]
    | notEq | other => simp

/-- The operator with its operands exchanged. -/
def Operator.mirror : Operator → Operator
  | .lt => .gt
  | .ltEq => .gtEq
  | .gt => .lt
  | .gtEq => .ltEq
  | op => op

theorem applyTsOpReversed_eq : applyTsOpReversed range op e = applyTsOp range op.mirror e := by
  unfold applyTsOpReversed applyTsOp
  cases op <;> rfl

theorem contains_applyTsOpReversed (hop : op ≠ .eq ∨ e.scalarToI64 = none) :
    (applyTsOpReversed range op e).contains ts = true ↔
      range.contains ts = true ∧ (applyTsOpReversed .unbounded op e).contains ts = true := by
  rw [applyTsOpReversed_eq, applyTsOpReversed_eq]
  refine contains_applyTsOp (hop.imp_left fun hne ↦ ?_)
  cases op <;> first | exact hne | exact nofun

theorem extractFromExpr_of_equality (h : e.equality = some val) :
    extractFromExpr range e = ⟨some val, some val⟩ := by
  induction e with
  | binaryExpr left op =>
    cases op with
    | eq =>
      rw [Expr.equality] at h
      rw [extractFromExpr]
      split_ifs at h ⊢
      · rw [applyTsOp, h]
      · rw [applyTsOpReversed, h]
    | _ => cases h
  | aliased expr name ih => exact ih h
  | _ => cases h

/-- **What one filter does to the range**, unless it is an equality: it narrows it by its bounds. -/
theorem contains_extractFromExpr (h : e.equality = none) :
    (extractFromExpr range e).contains ts = true ↔
      range.contains ts = true ∧ e.extracted.contains ts = true := by
  induction e with
  | binaryExpr left op =>
    have hop {operand : Expr} (hscal : op = .eq → operand.scalarToI64 = none) :
        op ≠ .eq ∨ operand.scalarToI64 = none :=
      (em (op = .eq)).symm.imp_right hscal
    simp only [extractFromExpr, Expr.extracted]
    split_ifs with hleft hrt
    · refine contains_applyTsOp (hop ?_)
      rintro rfl
      rwa [Expr.equality, if_pos hleft] at h
    · refine contains_applyTsOpReversed (hop ?_)
      rintro rfl
      rwa [Expr.equality, if_neg hleft, if_pos hrt] at h
    · simp
  | between expr negated low high =>
    simp only [extractFromExpr, Expr.extracted]
    split_ifs
    · cases low.scalarToI64 <;> cases high.scalarToI64 <;>
        simp [contains_raiseMin, contains_lowerMax, and_assoc]
    · simp
  | aliased expr name ih => exact ih h
  | column | literal | other => simp [extractFromExpr, Expr.extracted]

end

theorem extractFromExpr_of_not_isTimeFilter {e : Expr} (h : e.isTimeFilter = false)
    (range : TimeRange) : extractFromExpr range e = range := by
  induction e with
  | binaryExpr =>
    obtain ⟨hleft, hrt⟩ := Bool.or_eq_false_iff.mp h
    simp [extractFromExpr, hleft, hrt]
  | between =>
    rw [Expr.isTimeFilter] at h
    simp [extractFromExpr, h]
  | aliased expr name ih => exact ih h
  | column | literal | other => rfl

/-- So it does not matter that only the advertised filters are passed to the scan. -/
theorem extractTimeRange_filter_isTimeFilter (filters : List Expr) :
    extractTimeRange (filters.filter Expr.isTimeFilter) = extractTimeRange filters := by
  unfold extractTimeRange
  generalize unbounded = range
  induction filters generalizing range with
  | nil => rfl
  | cons e filters ih =>
    cases h : e.isTimeFilter with
    | true => rw [filter_cons_of_pos h, foldl_cons, foldl_cons, ih]
    | false =>
      rw [filter_cons_of_neg (by simp [h]), foldl_cons, ih, extractFromExpr_of_not_isTimeFilter h]

section

variable {unit : TimeType} {row : FilterRow} {e : Expr} {val : ℤ}

theorem FilterRow.operand_of_isTimestampColumn (h : e.isTimestampColumn = true) :
    row.operand unit e = some row.ts := by
  cases e with
  | column => rw [operand, if_pos (of_decide_eq_true h)]
  | _ => cases h

theorem FilterRow.operand_of_scalarToI64 (hunit : e.LiteralInUnit unit)
    (h : e.scalarToI64 = some val) : row.operand unit e = some val := by
  cases e with
  | literal v =>
    have hval := isSome_iff_exists.mp (hunit (isSome_of_eq_some h))
    obtain ⟨_, hx⟩ := hval
    rw [operand, hx, getD_some, ← h]
    cases v with
    | int64 =>
      cases unit with
      | int64 => exact (some.inj hx).symm
      | timestamp => cases hx
    | timestamp =>
      cases unit with
      | int64 => cases hx
      | timestamp => exact ((ite_none_right_eq_some.mp hx).2 |> some.inj).symm
    | other => cases h
  | _ => cases h

variable {op : Operator} {cmp : ℤ → ℤ → Bool}

theorem contains_applyTsOp_of_compare (hunit : e.LiteralInUnit unit) (hcmp : op.compare = some cmp)
    (h : ∃ b ∈ row.operand unit e, cmp row.ts b = true) :
    (applyTsOp .unbounded op e).contains row.ts = true := by
  unfold applyTsOp
  cases hval : e.scalarToI64 with
  | none => rfl
  | some val =>
    obtain ⟨b, hb, h⟩ := h
    obtain rfl : val = b := some.inj ((operand_of_scalarToI64 hunit hval).symm.trans hb)
    cases op with
    | eq =>
      cases hcmp
      exact contains_singleton.mpr (of_decide_eq_true h)
    | lt =>
      cases hcmp
      exact contains_lowerMax.mpr ⟨rfl, (of_decide_eq_true h).le⟩
    | ltEq =>
      cases hcmp
      exact contains_lowerMax.mpr ⟨rfl, of_decide_eq_true h⟩
    | gt =>
      cases hcmp
      exact contains_raiseMin.mpr ⟨rfl, (of_decide_eq_true h).le⟩
    | gtEq =>
      cases hcmp
      exact contains_raiseMin.mpr ⟨rfl, of_decide_eq_true h⟩
    | notEq | other => rfl

theorem contains_applyTsOpReversed_of_compare (hunit : e.LiteralInUnit unit)
    (hcmp : op.compare = some cmp) (h : ∃ a ∈ row.operand unit e, cmp a row.ts = true) :
    (applyTsOpReversed .unbounded op e).contains row.ts = true := by
  obtain ⟨cmp', hcmp', hswap⟩ : ∃ cmp', op.mirror.compare = some cmp' ∧
      ∀ a b, cmp' b a = cmp a b := by
    cases op <;> cases hcmp <;> exact ⟨_, rfl, fun a b ↦ by simp [eq_comm]⟩
  obtain ⟨a, ha, h⟩ := h
  rw [applyTsOpReversed_eq]
  exact contains_applyTsOp_of_compare hunit hcmp' ⟨a, ha, (hswap a row.ts).trans h⟩

theorem applyTsOp_of_compare_eq_none (hcmp : op.compare = none) (range : TimeRange) :
    applyTsOp range op e = range ∧ applyTsOpReversed range op e = range := by
  unfold applyTsOp applyTsOpReversed
  cases op with
  | other => cases e.scalarToI64 <;> exact ⟨rfl, rfl⟩
  | _ => cases hcmp

/-- **The bounds of a filter contain the rows that pass it**, unless it is a negated range. -/
theorem contains_extracted_of_holds (hunit : e.InUnit unit) (hneg : e.isNegatedRange = false)
    (h : row.Holds unit e) : e.extracted.contains row.ts = true := by
  induction e with
  | binaryExpr left op right =>
    obtain ⟨hrt, hleft⟩ := hunit
    simp only [Expr.extracted, extractFromExpr]
    cases hcmp : op.compare with
    | none =>
      obtain ⟨happ, -⟩ := applyTsOp_of_compare_eq_none (e := right) hcmp .unbounded
      obtain ⟨-, hrev⟩ := applyTsOp_of_compare_eq_none (e := left) hcmp .unbounded
      rw [happ, hrev]
      split_ifs <;> rfl
    | some cmp =>
      split_ifs with hl hr
      · simp only [Holds, hl, Bool.true_or, if_true, hcmp] at h
        obtain ⟨a, ha, h⟩ := h
        rw [operand_of_isTimestampColumn hl, mem_some] at ha
        exact contains_applyTsOp_of_compare (hrt hl) hcmp (ha ▸ h)
      · simp only [Holds, hr, Bool.or_true, if_true, hcmp] at h
        obtain ⟨a, ha, b, hb, h⟩ := h
        rw [operand_of_isTimestampColumn hr, mem_some] at hb
        exact contains_applyTsOpReversed_of_compare (hleft hr) hcmp ⟨a, ha, hb ▸ h⟩
      · rfl
  | between expr negated low high =>
    simp only [Expr.extracted, extractFromExpr]
    split_ifs with hexpr
    · obtain ⟨hlow, hhigh⟩ := hunit hexpr
      have hneg : negated = false := by simpa [Expr.isNegatedRange, hexpr] using hneg
      simp only [Holds, hexpr, hneg, if_true, Bool.false_eq_true, if_false] at h
      obtain ⟨⟨_, ha, hle⟩, _, hb, hge⟩ := h
      have hmin : (low.scalarToI64.elim unbounded unbounded.raiseMin).contains row.ts = true := by
        cases hval : low.scalarToI64 with
        | none => rfl
        | some val =>
          rw [operand_of_scalarToI64 hlow hval, mem_some] at ha
          exact contains_raiseMin.mpr ⟨rfl, ha ▸ hle⟩
      cases hval : high.scalarToI64 with
      | none => exact hmin
      | some val =>
        rw [operand_of_scalarToI64 hhigh hval, mem_some] at hb
        exact contains_lowerMax.mpr ⟨hmin, hb ▸ hge⟩
    · rfl
  | aliased expr name ih => exact ih hunit hneg h
  | column | literal | other => rfl

theorem eq_of_equality (hunit : e.InUnit unit) (h : row.Holds unit e)
    (heq : e.equality = some val) : row.ts = val := by
  have hneg : e.isNegatedRange = false := by
    induction e with
    | aliased expr name ih => exact ih hunit h heq
    | between => cases heq
    | _ => rfl
  have hbds := contains_extracted_of_holds hunit hneg h
  rw [Expr.extracted, extractFromExpr_of_equality heq] at hbds
  exact contains_singleton.mp hbds

end

/-! ## All filters -/

section

variable {unit : TimeType} {filters : List Expr} {row : FilterRow}

/-- **The range of a list of filters**, for a row that passes them: what was extracted in front of
the last equality does not count. -/
theorem contains_extractTimeRange (hunit : ∀ e ∈ filters, e.InUnit unit)
    (h : row.Satisfies unit filters) : (extractTimeRange filters).contains row.ts = true ↔
      ∀ e ∈ behindLastEquality filters, e.extracted.contains row.ts = true := by
  unfold extractTimeRange behindLastEquality
  induction filters using List.reverseRecOn with
  | nil => simp
  | append_singleton filters e ih =>
    have hlast : e ∈ filters ++ [e] := mem_append_right _ mem_cons_self
    have hinit {e' : Expr} (he : e' ∈ filters) : e' ∈ filters ++ [e] := mem_append_left _ he
    rw [foldl_append, foldl_cons, foldl_nil]
    cases heq : e.equality with
    | some val =>
      rw [extractFromExpr_of_equality heq, contains_singleton,
        rtakeWhile_concat_neg _ _ _ (by simp [heq])]
      simpa using eq_of_equality (hunit e hlast) (h e hlast) heq
    | none =>
      rw [contains_extractFromExpr heq, rtakeWhile_concat_pos _ _ _ (by simp [heq]),
        ih (fun e' he ↦ hunit e' (hinit he)) (fun e' he ↦ h e' (hinit he))]
      simp [or_imp, forall_and]

end

theorem mem_filterBatchByTime {batch : List (ℤ × ρ)} {range : TimeRange} {x : ℤ × ρ}
    (hx : x ∈ batch) (h : range.contains x.1 = true) :
    ∃ kept, filterBatchByTime batch range = some kept ∧ x ∈ kept := by
  have hkeep : range.contains x.1 ∈ batch.map fun y ↦ range.contains y.1 :=
    List.mem_map.mpr ⟨x, hx, rfl⟩
  have hmem : x ∈ batch.filter fun y ↦ range.contains y.1 := mem_filter.mpr ⟨hx, h⟩
  simp only [filterBatchByTime]
  split_ifs with hopen hall hnone hemp
  · exact ⟨batch, rfl, hx⟩
  · exact ⟨batch, rfl, hx⟩
  · have := List.all_eq_true.mp hnone _ hkeep
    simp [h] at this
  · rw [List.isEmpty_iff.mp hemp] at hmem
    cases hmem
  · exact ⟨_, rfl, hmem⟩

variable (ρ) in
/-- A row with the timestamp is neither skipped with its file nor dropped from its batch. -/
structure TimeRange.Keeps (range : TimeRange) (ts : ℤ) : Prop where
  inside : range.contains ts = true
  file : ∀ fileMin fileMax, fileMin ≤ ts → ts ≤ fileMax → range.overlaps fileMin fileMax = true
  row : ∀ batch : List (ℤ × ρ), ∀ x ∈ batch, x.1 = ts →
    ∃ kept, filterBatchByTime batch range = some kept ∧ x ∈ kept

theorem TimeRange.keeps_iff {range : TimeRange} {ts : ℤ} :
    range.Keeps ρ ts ↔ range.contains ts = true := by
  refine ⟨Keeps.inside, fun h ↦ ⟨h, fun _ _ ↦ overlaps_of_contains h, ?_⟩⟩
  rintro batch x hx rfl
  exact mem_filterBatchByTime hx h

/-- **When pruning by time is sound.** A row that passes all filters is kept if and only if it lies
within the bounds of every negated range behind the last equality. -/
theorem pruning_sound_iff {unit : TimeType} {filters : List Expr} {row : FilterRow}
    (hunit : ∀ e ∈ filters, e.InUnit unit) (h : row.Satisfies unit filters) :
    (extractTimeRange filters).Keeps ρ row.ts ↔ ∀ e ∈ behindLastEquality filters,
      e.isNegatedRange = true → e.bounds.contains row.ts = true := by
  rw [keeps_iff, contains_extractTimeRange hunit h]
  refine forall₂_congr fun e he ↦ ?_
  cases hneg : e.isNegatedRange with
  | true => simp [Expr.extracted_eq_bounds hneg]
  | false =>
    have hmem : e ∈ filters := (rtakeWhile_suffix _ _).subset he
    exact iff_of_true (contains_extracted_of_holds (hunit e hmem) hneg (h e hmem)) nofun

/-- A negated range in front of an equality, then `5 < time` and a range that is not negated. -/
def sampleFilters : List Expr :=
  [.between (.column "time") true (.literal (.int64 (some 10))) (.literal (.int64 (some 20))),
    .binaryExpr (.column "time") .eq (.literal (.int64 (some 30))),
    .binaryExpr (.literal (.int64 (some 5))) .lt (.column "time"),
    .between (.column "time") false (.literal (.int64 (some 0))) (.literal (.int64 (some 40)))]

/-- A row of which only the timestamp is looked at. -/
def rowAtTime (ts : ℤ) : FilterRow := ⟨ts, fun _ ↦ none, fun _ ↦ false⟩

theorem pruning_keeps_row_behind_equality :
    (rowAtTime 30).Satisfies .int64 sampleFilters ∧
      (extractTimeRange sampleFilters).Keeps Unit 30 := by
  have hrow : (rowAtTime 30).Satisfies .int64 sampleFilters := by
    simp [Satisfies, sampleFilters, Holds, Expr.isTimestampColumn, timeColumn,
      Operator.compare, operand, ScalarValue.valueIn, rowAtTime]
  have hunit : ∀ e ∈ sampleFilters, e.InUnit .int64 := by
    simp [sampleFilters, Expr.InUnit, Expr.LiteralInUnit, ScalarValue.valueIn]
  refine ⟨hrow, (pruning_sound_iff hunit hrow).mpr fun e he hneg ↦ ?_⟩
  have hnone : ∀ e ∈ behindLastEquality sampleFilters, e.isNegatedRange = false := by decide
  cases (hnone e he).symm.trans hneg

/-- `time NOT BETWEEN 10 AND 20` lets the timestamp `5` through, and the extracted range is
`[10, 20]`: a file with timestamps up to `5` is skipped. -/
theorem pruning_drops_row_outside_negated_range :
    ∃ filters : List Expr, (∀ e ∈ filters, e.InUnit .int64) ∧
      (rowAtTime 5).Satisfies .int64 filters ∧
      extractTimeRange filters = ⟨some 10, some 20⟩ ∧
      (extractTimeRange filters).overlaps 0 5 = false ∧
      ¬ (extractTimeRange filters).Keeps Unit 5 := by
  refine ⟨[.between (.column "time") true (.literal (.int64 (some 10)))
    (.literal (.int64 (some 20)))], ?_, ?_, by decide, by decide, fun h ↦ ?_⟩
  · simp [Expr.InUnit, Expr.LiteralInUnit, ScalarValue.valueIn]
  · simp [Satisfies, Holds, Expr.isTimestampColumn, timeColumn,
      operand, ScalarValue.valueIn, rowAtTime]
  · exact absurd h.inside (by decide)

end MonoTS
