import MonoTS.Sql.Date

/-!
# Decimal columns

The precision and the scale of `DECIMAL(p, s)` come from the SQL parser as 64-bit numbers. They are
cast to 8 bits, and then the precision is checked; the scale is not checked at all. So
`DECIMAL(266, 2)` is accepted as `DECIMAL(10, 2)`, and `DECIMAL(10, 200)` makes a column with a
negative scale, into which no literal can be inserted. `decimalChecked_iff` says which parameters
are taken as they are or refused.

Of the column types and the parser of their canonical names only the decimal ones are here.
-/

open List

namespace MonoTS

/-- Max precision representable by Arrow `Decimal128`. -/
def decimal128MaxPrecision : ℕ := 38

/-- The arguments of `DECIMAL`. -/
inductive ExactNumberInfo where
  | none
  | precision (p : ℕ)
  | precisionAndScale (p s : ℕ)

/-- An Arrow decimal. -/
structure DecimalType where
  precision : ℕ
  scale : ℤ
  deriving DecidableEq

def clampDecimalPrecision (precision : ℕ) : Result ℕ :=
  if precision = 0 ∨ decimal128MaxPrecision < precision then
    .error (.schema (s!"DECIMAL precision must be 1..={decimal128MaxPrecision}, " ++
      s!"got {precision}"))
  else .ok precision

/-- The precision is cast to `u8` and the scale to `i8`. -/
def decimalPrecisionScale : ExactNumberInfo → Result DecimalType
  | .none => .ok ⟨38, 10⟩
  | .precision p => (clampDecimalPrecision (p % 2 ^ 8)).map (⟨·, 0⟩)
  | .precisionAndScale p s =>
    (clampDecimalPrecision (p % 2 ^ 8)).map (⟨·, ((s : ℤ) + 2 ^ 7) % 2 ^ 8 - 2 ^ 7⟩)

def DecimalType.toCanonical (t : DecimalType) : String := s!"Decimal({t.precision},{t.scale})"

/-- `str::parse` for an `u8`. -/
def parseU8 (raw : List Char) : Option ℕ :=
  if raw.head? = some '-' then none
  else ((parseInt raw).map Int.toNat).filter (· < 2 ^ 8)

/-- The text up to the closing parenthesis, and what is behind it. -/
def extractParenBody (text : List Char) : Option (List Char × List Char) :=
  match text.dropWhile (· ≠ ')') with
  | [] => none
  | _ :: rest => some (text.takeWhile (· ≠ ')'), rest)

/-- `ColumnType::parse` on a name that begins with `Decimal(`; other names are those of other
types. -/
def parseDecimalType (typeName : String) : Option (Result DecimalType) :=
  let input := trim typeName.toList
  if startsWith input "Decimal(" then
    some (match extractParenBody (input.drop 8) with
      | none => .error (.schema s!"unterminated type parameters: {String.ofList input}")
      | some (body, rest) =>
        let parts := body.splitOn ','
        match parts[0]?.bind fun part ↦ parseU8 (trim part),
            parts[1]?.bind fun part ↦ (parseInt (trim part)).filter (FitsInt 8 ·) with
        | none, _ =>
          .error (.schema s!"invalid decimal precision in {(String.ofList input).quote}")
        | _, none => .error (.schema s!"invalid decimal scale in {(String.ofList input).quote}")
        | some precision, some scale =>
          match clampDecimalPrecision precision with
          | .error e => .error e
          | .ok precision =>
            if rest = [] then .ok ⟨precision, scale⟩
            else .error (.schema (s!"invalid type suffix in {typeName.quote}: " ++
              (String.ofList rest).quote)))
  else none

def negativeScale : TsdbError := .query "negative-scale DECIMAL literals are not supported"

/-- A decimal literal as the number of units of the scale. -/
def parseDecimalI128 (token : String) (scale : ℤ) : Result ℤ :=
  if scale < 0 then .error negativeScale
  else
    let unsigned := token.toList.dropWhile (· ∈ ['+', '-'])
    let intPart := unsigned.takeWhile (· ≠ '.')
    let fracPart := (unsigned.dropWhile (· ≠ '.')).drop 1
    if (intPart ++ fracPart).all Char.isDigit then
      let frac := fracPart.take scale.toNat ++ replicate (scale.toNat - fracPart.length) '0'
      let magnitude := Nat.ofDigitChars 10 (intPart ++ frac) 0
      if magnitude < 2 ^ 127 then
        .ok (if token.toList.head? = some '-' then -(magnitude : ℤ) else magnitude)
      else .error (.query s!"decimal literal out of range: {token}")
    else .error (.query s!"invalid decimal literal: {token}")

/-- The parameters are refused if they are out of range. Otherwise they are those of the type, which
can be read back from its name, and no literal is refused for the scale. -/
def DecimalChecked (p s : ℕ) : Prop :=
  ((∃ t, decimalPrecisionScale (.precisionAndScale p s) = .ok t) ↔ (1 ≤ p ∧ p ≤ 38) ∧ s ≤ p) ∧
    ∀ t, decimalPrecisionScale (.precisionAndScale p s) = .ok t →
      (t.precision = p ∧ t.scale = s) ∧ parseDecimalType t.toCanonical = some (.ok t) ∧
        ∀ token, parseDecimalI128 token t.scale ≠ .error negativeScale

theorem clampDecimalPrecision_eq_ok {precision p : ℕ} :
    clampDecimalPrecision precision = .ok p ↔ (1 ≤ p ∧ p ≤ 38) ∧ precision = p := by
  unfold clampDecimalPrecision decimal128MaxPrecision
  split_ifs with h
  · exact ⟨nofun, fun ⟨hp, heq⟩ ↦ by omega⟩
  · rw [Except.ok.injEq]
    omega

/-- The numerals that stand in the name of a type. -/
theorem numeral (n : ℕ) (h : n < 39) : parseU8 (trim (Nat.toDigits 10 n)) = some n ∧
    (parseInt (trim (Nat.toDigits 10 n))).filter (FitsInt 8 ·) = some (n : ℤ) := by
  interval_cases n <;> decide +kernel

theorem ne_of_mem_toDigits {n : ℕ} {c d : Char} (hc : c ∈ Nat.toDigits 10 n)
    (hd : d.isDigit = false) : c ≠ d := by
  rintro rfl
  exact Bool.false_ne_true (hd.symm.trans (Nat.isDigit_of_mem_toDigits (by decide) (by decide) hc))

theorem toList_toCanonical (p s : ℕ) : (DecimalType.toCanonical ⟨p, s⟩).toList =
    "Decimal(".toList ++ (Nat.toDigits 10 p ++ ',' :: Nat.toDigits 10 s ++ [')']) := by
  have hscale : (toString (s : ℤ)).toList = Nat.toDigits 10 s := Nat.toList_repr
  simp only [DecimalType.toCanonical, String.toList_append, Nat.toString_eq_repr, Nat.toList_repr,
    hscale, append_assoc]
  rfl

theorem parseDecimalType_toCanonical {p s : ℕ} (hp : 1 ≤ p ∧ p ≤ 38) (hs : s ≤ 38) :
    parseDecimalType (DecimalType.toCanonical ⟨p, s⟩) = some (.ok ⟨p, s⟩) := by
  have hprec := (numeral p (by omega)).1
  have hscale := (numeral s (by omega)).2
  have hpart : (Nat.toDigits 10 p ++ ',' :: Nat.toDigits 10 s).splitOn ',' =
      [Nat.toDigits 10 p, Nat.toDigits 10 s] := by
    have hsplit := splitOnP_append_cons (Nat.toDigits 10 p) (Nat.toDigits 10 s)
      (p := (· == ',')) (beq_self_eq_true ',')
    rw [splitOn, hsplit, ← splitOn, ← splitOn,
      splitOn_eq_singleton fun h ↦ ne_of_mem_toDigits h rfl rfl,
      splitOn_eq_singleton fun h ↦ ne_of_mem_toDigits h rfl rfl, singleton_append]
  have hbody : ∀ c ∈ Nat.toDigits 10 p ++ ',' :: Nat.toDigits 10 s, decide (c ≠ ')') = true := by
    refine forall_mem_append.mpr ⟨fun c hc ↦ ?_, forall_mem_cons.mpr ⟨rfl, fun c hc ↦ ?_⟩⟩
    · exact decide_eq_true (ne_of_mem_toDigits hc rfl)
    · exact decide_eq_true (ne_of_mem_toDigits hc rfl)
  generalize hl : Nat.toDigits 10 p ++ ',' :: Nat.toDigits 10 s = body at hpart hbody
  have hextr : extractParenBody (body ++ [')']) = some (body, []) := by
    rw [extractParenBody, dropWhile_append_of_pos hbody, takeWhile_append_of_pos hbody]
    simp
  have htrim : trim (DecimalType.toCanonical ⟨p, s⟩).toList =
      "Decimal(".toList ++ (body ++ [')']) := by
    rw [toList_toCanonical, hl, trim]
    exact rdropWhile_concat_neg isWhitespace ("Decimal(".toList ++ body) ')' (by decide)
  have hclamp : clampDecimalPrecision p = .ok p := clampDecimalPrecision_eq_ok.mpr ⟨hp, rfl⟩
  have hst : startsWith ("Decimal(".toList ++ (body ++ [')'])) "Decimal(" = true :=
    decide_eq_true (prefix_append _ _)
  have hdrop : ("Decimal(".toList ++ (body ++ [')'])).drop 8 = body ++ [')'] := rfl
  simp only [parseDecimalType, htrim, hst, if_true, hdrop, hextr, hpart]
  simp [hprec, hscale, hclamp]

theorem parseDecimalI128_ne {scale : ℤ} (hscale : 0 ≤ scale) (token : String) :
    parseDecimalI128 token scale ≠ .error negativeScale := by
  -- the other refusals begin with another letter
  have htext {a : String} {c : Char} (hc : a.toList.head? = some c) (hne : c ≠ 'n') :
      (.error (.query (a ++ token)) : Result ℤ) ≠ .error negativeScale := by
    intro h
    have hhead : (a ++ token).toList.head? = some 'n' := by
      rw [TsdbError.query.inj (Except.error.inj h)]
      rfl
    rw [String.toList_append, head?_append, hc] at hhead
    exact hne (Option.some.inj hhead)
  rw [parseDecimalI128, if_neg (not_lt.mpr hscale)]
  dsimp only
  split_ifs
  · exact nofun
  · exact nofun
  · exact htext (a := "decimal literal out of range: ") rfl (by decide)
  · exact htext (a := "invalid decimal literal: ") rfl (by decide)

/-- **The parameters are checked or taken over**, except a precision that the cast makes one of the
allowed ones, and a scale that is larger than the precision. -/
theorem decimalChecked_iff {p s : ℕ} :
    DecimalChecked p s ↔ p % 2 ^ 8 = 0 ∨ 38 < p % 2 ^ 8 ∨ p ≤ 38 ∧ s ≤ p := by
  have hok (t : DecimalType) : decimalPrecisionScale (.precisionAndScale p s) = .ok t ↔
      (1 ≤ t.precision ∧ t.precision ≤ 38) ∧ p % 2 ^ 8 = t.precision ∧
        ((s : ℤ) + 2 ^ 7) % 2 ^ 8 - 2 ^ 7 = t.scale := by
    obtain ⟨precision, scale⟩ := t
    rw [← and_assoc, ← clampDecimalPrecision_eq_ok, decimalPrecisionScale]
    cases clampDecimalPrecision (p % 2 ^ 8) <;> simp [Except.map]
  constructor
  · rintro ⟨hiff, -⟩
    by_contra hcond
    have hrng := hiff.mp ⟨⟨p % 2 ^ 8, _⟩, (hok _).mpr ⟨by dsimp only; omega, rfl, rfl⟩⟩
    omega
  · intro h
    refine ⟨⟨?_, fun hrng ↦ ⟨⟨p, s⟩, (hok _).mpr ?_⟩⟩, fun t ht ↦ ?_⟩
    · rintro ⟨t, ht⟩
      have ht := (hok t).mp ht
      omega
    · dsimp only
      omega
    · obtain ⟨precision, scale⟩ := t
      have ht := (hok _).mp ht
      dsimp only at ht
      obtain ⟨rfl, rfl⟩ : p = precision ∧ (s : ℤ) = scale := by omega
      exact ⟨⟨rfl, rfl⟩, parseDecimalType_toCanonical ht.1 (by omega),
        parseDecimalI128_ne (Int.natCast_nonneg s)⟩

/-- A precision that is too large is taken for 10, and a column with the scale 200 takes no
literal. -/
theorem decimal_parameters_cut :
    decimalPrecisionScale (.precisionAndScale 266 2) = .ok ⟨10, 2⟩ ∧
    decimalPrecisionScale (.precisionAndScale 10 200) = .ok ⟨10, -56⟩ ∧
    parseDecimalI128 "1.5" (-56) = .error negativeScale ∧ ¬DecimalChecked 266 2 := by
  have hcut : decimalPrecisionScale (.precisionAndScale 266 2) = .ok ⟨10, 2⟩ := by decide
  exact ⟨hcut, by decide, rfl, fun h ↦ absurd (h.1.mp ⟨_, hcut⟩) (by decide)⟩

end MonoTS
