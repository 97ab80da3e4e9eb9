import Mathlib

/-!
# Fixed-width little-endian integers

A natural number is written as exactly `w` bytes, least significant first. Bits above `8 * w` are
dropped by the writer, so reading back returns the residue modulo `256 ^ w`; a value that fits its
field is returned unchanged. This is the only arithmetic a framed binary format needs, and nothing
here knows which format uses it.
-/

open List

namespace LittleEndian

/-- A byte string. -/
abbrev Bytes := List UInt8

/-- The `w` little-endian bytes of `n`. -/
def leBytes : ℕ → ℕ → Bytes
  | 0, _ => []
  | w + 1, n => UInt8.ofNat (n % 256) :: leBytes w (n / 256)

/-- The number whose little-endian bytes are given. -/
def leValue : Bytes → ℕ
  | [] => 0
  | b :: bs => b.toNat + 256 * leValue bs

@[simp] theorem leBytes_zero (n : ℕ) : leBytes 0 n = [] := rfl

@[simp] theorem leValue_nil : leValue [] = 0 := rfl

variable (w n : ℕ)

theorem leBytes_succ : leBytes (w + 1) n = UInt8.ofNat (n % 256) :: leBytes w (n / 256) := rfl

theorem leValue_cons (b : UInt8) (bs : Bytes) :
    leValue (b :: bs) = b.toNat + 256 * leValue bs := rfl

@[simp] theorem length_leBytes : (leBytes w n).length = w := by
  induction w generalizing n with
  | zero => rfl
  | succ w ih => rw [leBytes_succ, length_cons, ih]

/-- Reading back a field returns the value modulo the field's range. -/
theorem leValue_leBytes : leValue (leBytes w n) = n % 256 ^ w := by
  induction w generalizing n with
  | zero => rw [leBytes_zero, leValue_nil, pow_zero, Nat.mod_one]
  | succ w ih =>
    have hbyte : (UInt8.ofNat (n % 256)).toNat = n % 256 := by
      rw [UInt8.toNat_ofNat', Nat.mod_eq_of_lt (Nat.mod_lt _ (by decide))]
    rw [leBytes_succ, leValue_cons, ih, hbyte, pow_succ', Nat.mod_mul]

theorem leValue_leBytes_of_lt {w n : ℕ} (h : n < 256 ^ w) : leValue (leBytes w n) = n := by
  rw [leValue_leBytes, Nat.mod_eq_of_lt h]

/-- The bytes are the digits of the value; those past the end are zero. -/
theorem toNat_getD (bs : Bytes) (i : ℕ) : (bs.getD i 0).toNat = leValue bs / 256 ^ i % 256 := by
  induction bs generalizing i with
  | nil => rw [getD_nil, leValue_nil, Nat.zero_div, Nat.zero_mod, UInt8.toNat_zero]
  | cons b bs ih =>
    rcases i with _ | i
    · rw [getD_cons_zero, leValue_cons, pow_zero, Nat.div_one, Nat.add_mul_mod_self_left,
        Nat.mod_eq_of_lt b.toNat_lt]
    · rw [getD_cons_succ, ih, leValue_cons, pow_succ', ← Nat.div_div_eq_div_mul,
        Nat.add_mul_div_left _ _ (by decide), Nat.div_eq_of_lt b.toNat_lt, Nat.zero_add]

/-- The bytes of a field at an offset. -/
theorem toNat_getD_window (r : Bytes) (a : ℕ) {i w : ℕ} (hi : i < w) :
    (r.getD (a + i) 0).toNat = leValue ((r.drop a).take w) / 256 ^ i % 256 := by
  rw [← toNat_getD, getD_eq_getElem?_getD, getD_eq_getElem?_getD,
    getElem?_take_of_lt hi, getElem?_drop]

/-- The bytes of the field in front. -/
theorem toNat_getD_of_leValue {r : Bytes} {i w v : ℕ} (hi : i < w) (h : leValue (r.take w) = v) :
    (r.getD i 0).toNat = v / 256 ^ i % 256 := by
  have hwin := toNat_getD_window r 0 hi
  rwa [Nat.zero_add, drop_zero, h] at hwin

/-- Four bytes read at an offset; bytes past the end count as zero. -/
theorem leValue_window (r : Bytes) (a : ℕ) :
    leValue ((r.drop a).take 4) = (r.getD a 0).toNat + 256 * ((r.getD (a + 1) 0).toNat +
      256 * ((r.getD (a + 2) 0).toNat + 256 * (r.getD (a + 3) 0).toNat)) := by
  have hget (k : ℕ) : r.getD (a + k) 0 = (r.drop a).getD k 0 := by
    rw [getD_eq_getElem?_getD, getD_eq_getElem?_getD, getElem?_drop]
  rw [hget 1, hget 2, hget 3, ← Nat.add_zero a, hget 0, Nat.add_zero]
  rcases r.drop a with _ | ⟨_, _ | ⟨_, _ | ⟨_, _ | ⟨_, _⟩⟩⟩⟩ <;> simp [leValue]

end LittleEndian
