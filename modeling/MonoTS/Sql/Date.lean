import MonoTS.Sql.Route

/-!
# Dates

`days_from_civil` numbers the days of the Gregorian calendar from 1970-01-01. It counts years from
March, so that a leap day is the last day of its year, in eras of 400 years.

Here the calendar is stated by itself: the leap years, the lengths of the months and the date that
follows a date. The months are numbered through; from the first day of one to that of the next it is
as far as the month is long (`monthStart_succ`). The formula counts on from there
(`daysFromCivil_eq`).

The literals of a date column are checked for a month up to 12 and a day up to 31 only, and the
number of the day is cut to 32 bits (`storesDates_iff`).
-/

namespace MonoTS

/-- What 64 bits keep of a number. -/
def wrapI64 (x : ℤ) : ℤ := (x + 2 ^ 63) % 2 ^ 64 - 2 ^ 63

/-- What is only added and multiplied is cut to 64 bits at the end. -/
def daysFromCivil (y m d : ℤ) : ℤ :=
  let y := if m ≤ 2 then wrapI64 (y - 1) else y
  let era := (if 0 ≤ y then y else wrapI64 (y - 399)).tdiv 400
  let yoe := y - era * 400
  let doy := (153 * (if 2 < m then m - 3 else m + 9) + 2).tdiv 5 + d - 1
  let doe := yoe * 365 + yoe.tdiv 4 - yoe.tdiv 100 + doy
  wrapI64 (era * 146097 + doe - 719468)

/-! ## The calendar -/

def IsLeap (y : ℤ) : Prop := 4 ∣ y ∧ (100 ∣ y → 400 ∣ y)

instance : DecidablePred IsLeap := fun _ ↦ inferInstanceAs (Decidable (_ ∧ _))

def monthLength (y m : ℤ) : ℤ :=
  if m = 2 then if IsLeap y then 29 else 28
  else if m = 4 ∨ m = 6 ∨ m = 9 ∨ m = 11 then 30 else 31

theorem monthLength_mem (y m : ℤ) : 1 ≤ monthLength y m ∧ monthLength y m ≤ 31 := by
  unfold monthLength
  split_ifs <;> omega

/-- A date of the calendar. -/
@[ext]
structure CivilDate where
  year : ℤ
  month : ℤ
  day : ℤ
  month_mem : 1 ≤ month ∧ month ≤ 12
  day_mem : 1 ≤ day ∧ day ≤ monthLength year month

namespace CivilDate

variable (d : CivilDate)

/-- The date of the day after. -/
def succ : CivilDate :=
  if h : d.day < monthLength d.year d.month then
    { d with day := d.day + 1, day_mem := ⟨by have := d.day_mem; omega, h⟩ }
  else if h : d.month < 12 then
    ⟨d.year, d.month + 1, 1, ⟨by have := d.month_mem; omega, h⟩, le_rfl, (monthLength_mem _ _).1⟩
  else ⟨d.year + 1, 1, 1, by decide, le_rfl, (monthLength_mem _ _).1⟩

def Before (d e : CivilDate) : Prop :=
  d.year < e.year ∨ d.year = e.year ∧ (d.month < e.month ∨ d.month = e.month ∧ d.day < e.day)

def days : ℤ := daysFromCivil d.year d.month d.day

/-- The months are numbered from January of the year 0. -/
def monthIndex : ℤ := 12 * d.year + (d.month - 1)

end CivilDate

/-! ## Months -/

/-- The number of the first day of a month. -/
def monthStart (k : ℤ) : ℤ :=
  let y := (k - 2) / 12
  365 * y + y / 4 - y / 100 + y / 400 + (153 * ((k - 2) % 12) + 2) / 5 - 719468

theorem monthStart_succ (k : ℤ) :
    monthStart (k + 1) = monthStart k + monthLength (k / 12) (k % 12 + 1) := by
  obtain ⟨y, r, hk, _, _⟩ : ∃ y r, k = 12 * y + r ∧ 0 ≤ r ∧ r < 12 :=
    ⟨k / 12, k % 12, by omega, by omega, by omega⟩
  have hyear : k / 12 = y := by omega
  have hmonth : k % 12 = r := by omega
  rw [hyear, hmonth, hk]
  simp only [monthStart, monthLength, IsLeap]
  interval_cases r <;> simp <;> omega

theorem monthStart_strictMono : StrictMono monthStart := by
  refine strictMono_int_of_lt_succ fun k ↦ ?_
  have hpos := (monthLength_mem (k / 12) (k % 12 + 1)).1
  rw [monthStart_succ]
  omega

theorem wrapI64_of_lt {x : ℤ} (h : x.natAbs < 2 ^ 63) : wrapI64 x = x := by
  unfold wrapI64
  omega

/-- As long as it stays within 64 bits, the formula counts on from the first day of the month. -/
theorem daysFromCivil_eq {y m d : ℤ} (hy : y.natAbs < 2 ^ 40) (hm : 1 ≤ m ∧ m ≤ 12)
    (hd : 1 ≤ d ∧ d ≤ 31) : daysFromCivil y m d = monthStart (12 * y + (m - 1)) + (d - 1) := by
  have hyear : (if m ≤ 2 then wrapI64 (y - 1) else y) = (12 * y + (m - 1) - 2) / 12 := by
    rw [wrapI64_of_lt (by omega)]
    split_ifs <;> omega
  have hmonth : (if 2 < m then m - 3 else m + 9) = (12 * y + (m - 1) - 2) % 12 := by
    split_ifs <;> omega
  simp only [daysFromCivil, hyear, hmonth, monthStart]
  generalize hy' : (12 * y + (m - 1) - 2) / 12 = y'
  generalize hm' : (12 * y + (m - 1) - 2) % 12 = m'
  -- the division rounds towards zero, and is made to round down
  have hera : (if 0 ≤ y' then y' else wrapI64 (y' - 399)).tdiv 400 = y' / 400 := by
    have hsign : Int.sign 400 = 1 := rfl
    rw [wrapI64_of_lt (by omega), Int.tdiv_eq_ediv, hsign]
    split_ifs <;> omega
  rw [hera, Int.tdiv_eq_ediv_of_nonneg (by omega), Int.tdiv_eq_ediv_of_nonneg (by omega),
    Int.tdiv_eq_ediv_of_nonneg (by omega), wrapI64_of_lt (by omega)]
  omega

/-! ## Dates -/

namespace CivilDate

variable {d e : CivilDate}

/-- The number of the day, without the limits of the 64 bits. -/
def number (d : CivilDate) : ℤ := monthStart d.monthIndex + (d.day - 1)

theorem days_eq (h : d.year.natAbs < 2 ^ 40) : d.days = monthStart d.monthIndex + (d.day - 1) :=
  daysFromCivil_eq h d.month_mem ⟨d.day_mem.1, d.day_mem.2.trans (monthLength_mem _ _).2⟩

theorem monthStart_monthIndex_succ (d : CivilDate) :
    monthStart (d.monthIndex + 1) = monthStart d.monthIndex + monthLength d.year d.month := by
  have hmem := d.month_mem
  have hyear : d.monthIndex / 12 = d.year := by
    unfold monthIndex
    omega
  have hmonth : d.monthIndex % 12 + 1 = d.month := by
    unfold monthIndex
    omega
  rw [monthStart_succ, hyear, hmonth]

/-- The day after is the next one of the month or the first one of the next month. -/
theorem succ_cases (d : CivilDate) : d.succ.year.natAbs ≤ d.year.natAbs + 1 ∧
    (d.succ.monthIndex = d.monthIndex ∧ d.succ.day = d.day + 1 ∨
      d.succ.monthIndex = d.monthIndex + 1 ∧ d.succ.day = 1 ∧
        d.day = monthLength d.year d.month) := by
  have hmonth := d.month_mem
  have hday := d.day_mem
  unfold succ
  split_ifs
  · exact ⟨Nat.le_succ _, .inl ⟨rfl, rfl⟩⟩
  · exact ⟨Nat.le_succ _, .inr ⟨by dsimp only [monthIndex]; omega, rfl, by omega⟩⟩
  · exact ⟨by dsimp only; omega, .inr ⟨by dsimp only [monthIndex]; omega, rfl, by omega⟩⟩

theorem days_succ (h : d.year.natAbs + 1 < 2 ^ 40) : d.succ.days = d.days + 1 := by
  obtain ⟨_, hcase⟩ := d.succ_cases
  rw [days_eq (by omega), days_eq (by omega)]
  obtain ⟨hidx, hday⟩ | ⟨hidx, hday, hlast⟩ := hcase
  · rw [hidx, hday]
    omega
  · rw [hidx, hday, monthStart_monthIndex_succ, ← hlast]
    omega

theorem Before.monthIndex_cases (h : d.Before e) : d.monthIndex + 1 ≤ e.monthIndex ∨
    d.monthIndex = e.monthIndex ∧ d.day < e.day := by
  have hd := d.month_mem
  have he := e.month_mem
  unfold Before at h
  unfold monthIndex
  omega

theorem Before.days_lt (h : d.Before e) (hd : d.year.natAbs < 2 ^ 40)
    (he : e.year.natAbs < 2 ^ 40) : d.days < e.days := by
  rw [days_eq hd, days_eq he]
  obtain hlt | ⟨heq, hlt⟩ := h.monthIndex_cases
  · have hst := monthStart_strictMono.monotone hlt
    rw [monthStart_monthIndex_succ] at hst
    have hd := d.day_mem
    have he := e.day_mem
    omega
  · rw [heq]
    omega

/-- **The days are numbered in the order of the calendar**, one by one from 1970-01-01. -/
theorem days_number_dates :
    daysFromCivil 1970 1 1 = 0 ∧
    (∀ d : CivilDate, d.year.natAbs ≤ 1000000 → d.succ.days = d.days + 1) ∧
    (∀ d e : CivilDate, d.year.natAbs ≤ 1000000 → e.year.natAbs ≤ 1000000 → d.Before e →
      d.days < e.days) ∧
    Set.InjOn days {d | d.year.natAbs ≤ 1000000} := by
  have hlt : ∀ d e : CivilDate, d.year.natAbs ≤ 1000000 → e.year.natAbs ≤ 1000000 → d.Before e →
      d.days < e.days :=
    fun d e hd he h ↦ h.days_lt (by omega) (by omega)
  refine ⟨by decide, fun d h ↦ days_succ (by omega), hlt, fun d hd e he heq ↦ ?_⟩
  by_contra hne
  have hcases : d.Before e ∨ e.Before d := by
    rw [CivilDate.ext_iff] at hne
    unfold Before
    omega
  rcases hcases with h | h
  · exact (hlt d e hd he h).ne heq
  · exact (hlt e d he hd h).ne heq.symm

end CivilDate

/-! ## Date literals -/

/-- The number that a text is the decimal numeral of. -/
def parseInt : List Char → Option ℤ
  | '-' :: raw => (digits raw).map fun n ↦ -(n : ℤ)
  | '+' :: raw => (digits raw).map Nat.cast
  | raw => (digits raw).map Nat.cast
where
  digits (raw : List Char) : Option ℕ :=
    if raw ≠ [] ∧ raw.all Char.isDigit then some (Nat.ofDigitChars 10 raw 0) else none

/-- The number has `bits` bits. -/
def FitsInt (bits : ℕ) (x : ℤ) : Prop := -2 ^ (bits - 1) ≤ x ∧ x < 2 ^ (bits - 1)

instance (bits : ℕ) : DecidablePred (FitsInt bits) := fun _ ↦ inferInstanceAs (Decidable (_ ∧ _))

/-- `str::parse` for an `i64`. -/
def parseI64 (raw : List Char) : Option ℤ := (parseInt raw).filter (FitsInt 64 ·)

variable (s : String)

def parseDateToDays : Result ℤ :=
  match (trim s.toList).splitOn '-' with
  | [year, month, day] =>
    match parseI64 year, parseI64 month, parseI64 day with
    | none, _, _ => .error (.query s!"invalid date year: {s}")
    | _, none, _ => .error (.query s!"invalid date month: {s}")
    | _, _, none => .error (.query s!"invalid date day: {s}")
    | some y, some m, some d =>
      if (1 ≤ m ∧ m ≤ 12) ∧ 1 ≤ d ∧ d ≤ 31 then .ok (daysFromCivil y m d)
      else .error (.query s!"date out of range: {s}")
  | _ => .error (.query s!"invalid date literal (expected YYYY-MM-DD): {s}")

/-- A text in a date column: `parse_value` makes an `i64` of it, and `build_date32_array` casts that
to 32 bits. -/
def insertDate : Result ℤ :=
  (parseDateToDays s).map fun days ↦ (days + 2 ^ 31) % 2 ^ 32 - 2 ^ 31

/-- Year, month and day as they are written. -/
def dateFields : Option (ℤ × ℤ × ℤ) :=
  match (trim s.toList).splitOn '-' with
  | [year, month, day] =>
    (parseInt year).bind fun y ↦ (parseInt month).bind fun m ↦ (parseInt day).map fun d ↦ (y, m, d)
  | _ => none

/-- The text is that of the date, and its day has a number of 32 bits. -/
def CivilDate.Writes (d : CivilDate) : Prop :=
  dateFields s = some (d.year, d.month, d.day) ∧ FitsInt 32 d.number

/-- The texts that are stored are those of dates, and they are stored as the numbers of the days. -/
def StoresDates : Prop :=
  ((∃ x, insertDate s = .ok x) ↔ ∃ d : CivilDate, d.Writes s) ∧
    ∀ d : CivilDate, d.Writes s → insertDate s = .ok d.number

/-- A day that is not beyond the 31st is one of its month, and its number has 32 bits. -/
def NamesDay : Prop :=
  ∀ y m d, dateFields s = some (y, m, d) → FitsInt 64 y → 1 ≤ m ∧ m ≤ 12 → 1 ≤ d ∧ d ≤ 31 →
    d ≤ monthLength y m ∧ FitsInt 32 (monthStart (12 * y + (m - 1)) + (d - 1))

theorem parseI64_eq_some {raw : List Char} {x : ℤ} :
    parseI64 raw = some x ↔ parseInt raw = some x ∧ FitsInt 64 x := by
  rw [parseI64, Option.filter_eq_some_iff, decide_eq_true_iff]

variable {s : String} {x : ℤ}

theorem parseDateToDays_eq_ok : parseDateToDays s = .ok x ↔
    ∃ y m d, dateFields s = some (y, m, d) ∧ FitsInt 64 y ∧ (1 ≤ m ∧ m ≤ 12) ∧ (1 ≤ d ∧ d ≤ 31) ∧
      daysFromCivil y m d = x := by
  rw [parseDateToDays, dateFields]
  split
  · next year month day _ =>
    constructor
    · intro h
      split at h
      case h_4 y m d hy hm hd =>
        obtain ⟨hy, hfits⟩ := parseI64_eq_some.mp hy
        rw [hy, (parseI64_eq_some.mp hm).1, (parseI64_eq_some.mp hd).1]
        split_ifs at h with hrng
        exact ⟨y, m, d, rfl, hfits, hrng.1, hrng.2, Except.ok.inj h⟩
      all_goals cases h
    · rintro ⟨_, _, _, h, hfits, hm, hd, rfl⟩
      obtain ⟨_, hy, h⟩ := Option.bind_eq_some_iff.mp h
      obtain ⟨_, hm', h⟩ := Option.bind_eq_some_iff.mp h
      obtain ⟨_, hd', h⟩ := Option.map_eq_some_iff.mp h
      cases h
      rw [parseI64_eq_some.mpr ⟨hy, hfits⟩, parseI64_eq_some.mpr ⟨hm', by unfold FitsInt; omega⟩,
        parseI64_eq_some.mpr ⟨hd', by unfold FitsInt; omega⟩]
      exact if_pos ⟨hm, hd⟩
  · exact ⟨nofun, fun ⟨_, _, _, h, _⟩ ↦ nomatch h⟩

theorem CivilDate.daysFromCivil_of_fits {d : CivilDate} (h : FitsInt 32 d.number) :
    d.days = d.number ∧ FitsInt 64 d.year := by
  have hyear : d.year.natAbs < 2 ^ 40 := by
    have hmonth := d.month_mem
    have hday := d.day_mem
    have hlen := monthLength_mem d.year d.month
    simp only [FitsInt, number, monthStart, monthIndex] at h
    omega
  exact ⟨days_eq hyear, by unfold FitsInt; omega⟩

/-- **Exactly the dates are accepted**, among the texts whose day is one of its month and has a
number of 32 bits, if the text gives one between 1 and 31. -/
theorem storesDates_iff : StoresDates s ↔ NamesDay s := by
  constructor
  · intro h y m d hflds hy hm hd
    obtain ⟨e, hwrs, hfits⟩ := h.1.mp ⟨_, by
      rw [insertDate, parseDateToDays_eq_ok.mpr ⟨y, m, d, hflds, hy, hm, hd, rfl⟩]; rfl⟩
    obtain ⟨rfl, rfl, rfl⟩ : y = e.year ∧ m = e.month ∧ d = e.day := by
      simpa using hflds.symm.trans hwrs
    exact ⟨e.day_mem.2, hfits⟩
  · intro h
    have hstore (d : CivilDate) (hd : d.Writes s) : insertDate s = .ok d.number := by
      obtain ⟨hdays, hyear⟩ := d.daysFromCivil_of_fits hd.2
      have hpar := parseDateToDays_eq_ok.mpr ⟨_, _, _, hd.1, hyear, d.month_mem,
        ⟨d.day_mem.1, d.day_mem.2.trans (monthLength_mem _ _).2⟩, hdays⟩
      have hfits := hd.2
      unfold FitsInt at hfits
      rw [insertDate, hpar, Except.map]
      congr 1
      omega
    refine ⟨⟨?_, fun ⟨d, hd⟩ ↦ ⟨_, hstore d hd⟩⟩, hstore⟩
    rintro ⟨_, hx⟩
    cases hpar : parseDateToDays s with
    | error =>
      rw [insertDate, hpar] at hx
      cases hx
    | ok =>
      obtain ⟨y, m, d, hflds, hy, hm, hd, -⟩ := parseDateToDays_eq_ok.mp hpar
      obtain ⟨hlast, hfits⟩ := h y m d hflds hy hm hd
      exact ⟨⟨y, m, d, hm, hd.1, hlast⟩, hflds, hfits⟩

/-- The 29th of February of a year that has none is stored as the 1st of March. -/
theorem missing_leap_day_stored :
    insertDate "2023-02-29" = .ok 19417 ∧ ¬StoresDates "2023-02-29" := by
  have hflds : dateFields "2023-02-29" = some (2023, 2, 29) := by decide +kernel
  have hst : insertDate "2023-02-29" = .ok 19417 := by decide +kernel
  refine ⟨hst, fun h ↦ ?_⟩
  obtain ⟨d, hwrs, -⟩ := h.1.mp ⟨_, hst⟩
  obtain ⟨hy, hm, hd⟩ : 2023 = d.year ∧ 2 = d.month ∧ 29 = d.day := by
    simpa using hflds.symm.trans hwrs
  have hday := d.day_mem.2
  rw [← hy, ← hm, ← hd] at hday
  exact absurd hday (by decide)

end MonoTS
