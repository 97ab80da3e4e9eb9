import Mathlib

/-!
# Shared vocabulary

The parts of the `common` crate that the storage and stream layers speak: the error type, and
inclusive ranges of log sequence numbers. Only the error variants that a modelled function can
return are kept. White space is that of the standard library.
-/

namespace MonoTS

/-- The error type of the engine. -/
inductive TsdbError where
  | storage (msg : String)
  | query (msg : String)
  | schema (msg : String)
  | tableNotFound (table : String)
  | memoryLimitExceeded (usedBytes limitBytes : ℕ)
  deriving DecidableEq, Repr

/-- The text of an error. -/
def TsdbError.display : TsdbError → String
  | .storage msg => s!"storage error: {msg}"
  | .query msg => s!"query error: {msg}"
  | .schema msg => s!"invalid schema: {msg}"
  | .tableNotFound table => s!"table not found: {table}"
  | .memoryLimitExceeded usedBytes limitBytes =>
    s!"insufficient memory (used {usedBytes} / limit {limitBytes} bytes), write blocked"

/-- The result of a fallible call. -/
abbrev Result (α : Type*) := Except TsdbError α

/-- A sequence of two calls succeeds if both do. -/
theorem Result.bind_eq_ok.{u} {α β : Type u} {x : Result α} {f : α → Result β} {b : β} :
    x >>= f = .ok b ↔ ∃ a, x = .ok a ∧ f a = .ok b := by
  rcases x with e | a
  · exact ⟨nofun, fun ⟨_, hx, _⟩ ↦ nomatch hx⟩
  · refine ⟨fun h ↦ ⟨a, rfl, h⟩, ?_⟩
    rintro ⟨_, ha, h⟩
    exact Except.ok.inj ha ▸ h

/-- What `Read::read_exact` reports when the stream ends early. -/
def unexpectedEof : TsdbError := .storage "failed to fill whole buffer"

/-- `saturating_add` on `u64`. -/
def saturatingAdd (a b : ℕ) : ℕ := min (a + b) (2 ^ 64 - 1)

theorem saturatingAdd_of_lt {a b : ℕ} (h : a + b < 2 ^ 64) : saturatingAdd a b = a + b := by
  unfold saturatingAdd
  omega

theorem max_saturatingAdd_one {n : ℕ} (h : n + 1 < 2 ^ 64) : max (saturatingAdd n 1) n = n + 1 := by
  rw [saturatingAdd_of_lt h]
  omega

theorem foldl_min_le {α : Type*} [LinearOrder α] (a : α) (xs : List α) :
    xs.foldl min a ≤ a ∧ ∀ x ∈ xs, xs.foldl min a ≤ x := by
  induction xs generalizing a with
  | nil => exact ⟨le_rfl, by simp⟩
  | cons x xs ih =>
    obtain ⟨h, hall⟩ := ih (min a x)
    refine ⟨h.trans (min_le_left _ _), fun y hy ↦ ?_⟩
    rcases List.mem_cons.mp hy with rfl | hy
    · exact h.trans (min_le_right _ _)
    · exact hall y hy

/-- `char::is_whitespace`. -/
def isWhitespace (c : Char) : Bool :=
  (9 ≤ c.toNat && c.toNat ≤ 13) || c.toNat = 0x20 || c.toNat = 0x85 || c.toNat = 0xA0 ||
    c.toNat = 0x1680 || (0x2000 ≤ c.toNat && c.toNat ≤ 0x200A) || c.toNat = 0x2028 ||
    c.toNat = 0x2029 || c.toNat = 0x202F || c.toNat = 0x205F || c.toNat = 0x3000

/-- `s.trim().is_empty()`. -/
def isBlank (s : String) : Bool := s.toList.all isWhitespace

/-- An inclusive range of log sequence numbers. -/
structure LsnRange where
  baseLsn : ℕ
  maxLsn : ℕ
  le : baseLsn ≤ maxLsn
  deriving DecidableEq, Repr

def LsnRange.single (lsn : ℕ) : LsnRange := ⟨lsn, lsn, le_rfl⟩

/-- The range between two numbers, in either order. -/
def LsnRange.new (baseLsn maxLsn : ℕ) : LsnRange :=
  if h : baseLsn ≤ maxLsn then ⟨baseLsn, maxLsn, h⟩ else ⟨maxLsn, baseLsn, by omega⟩

end MonoTS
