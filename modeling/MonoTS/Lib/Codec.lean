import MonoTS.Lib.LittleEndian

/-!
# Self-delimiting codecs

A codec writes a value as bytes and reads it back off the front of a byte string, returning what
stands behind it. Its law is a field, so that a codec for a record is put together from the codecs
of its parts and comes with its proof.
-/

open LittleEndian List Option

/-- A writer and a reader of one type, where the reader inverts the writer in front of anything. -/
structure Codec (α : Type*) where
  encode : α → Bytes
  decode : Bytes → Option (α × Bytes)
  decode_append : ∀ a rest, decode (encode a ++ rest) = some (a, rest)

namespace Codec

variable {α β : Type*}

/-! ## Numbers

Seven bits to a byte, least significant first; the high bit says that another byte follows. -/

/-- The bytes of `n`, at most `fuel + 1` of them. -/
def natBytes : ℕ → ℕ → Bytes
  | 0, n => [UInt8.ofNat n]
  | fuel + 1, n =>
    if n < 128 then [UInt8.ofNat n] else UInt8.ofNat (128 + n % 128) :: natBytes fuel (n / 128)

def readNat : Bytes → Option (ℕ × Bytes)
  | [] => none
  | b :: bs =>
    if b.toNat < 128 then some (b.toNat, bs)
    else (readNat bs).map fun (n, rest) ↦ (b.toNat - 128 + 128 * n, rest)

theorem readNat_natBytes {fuel n : ℕ} (h : n < 128 * (fuel + 1)) (rest : Bytes) :
    readNat (natBytes fuel n ++ rest) = some (n, rest) := by
  have hsm {m : ℕ} (hm : m < 256) : (UInt8.ofNat m).toNat = m := by
    rw [UInt8.toNat_ofNat', Nat.mod_eq_of_lt hm]
  induction fuel generalizing n with
  | zero =>
    rw [natBytes, singleton_append, readNat, hsm (by omega), if_pos (by omega)]
  | succ fuel ih =>
    rw [natBytes]
    split_ifs with hn
    · rw [singleton_append, readNat, hsm (by omega), if_pos hn]
    · rw [cons_append, readNat, hsm (by omega), if_neg (by omega), ih (by omega), map_some]
      refine congrArg some (Prod.ext ?_ rfl)
      dsimp only
      omega

def nat : Codec ℕ where
  encode n := natBytes n n
  decode := readNat
  decode_append n rest := readNat_natBytes (by omega) rest

/-! ## Combinators -/

variable (a : Codec α)

def pair (b : Codec β) : Codec (α × β) where
  encode x := a.encode x.1 ++ b.encode x.2
  decode r := (a.decode r).bind fun (x, r) ↦ (b.decode r).map fun (y, r) ↦ ((x, y), r)
  decode_append x rest := by
    simp only [append_assoc, a.decode_append, bind_some, b.decode_append, map_some]

/-- A codec for the other side of a pair of maps of which one inverts the other. -/
def iso (f : β → α) (g : α → β) (h : ∀ b, g (f b) = b) : Codec β where
  encode b := a.encode (f b)
  decode r := (a.decode r).map fun (x, r) ↦ (g x, r)
  decode_append b rest := by simp only [a.decode_append, map_some, h]

def sum (b : Codec β) : Codec (α ⊕ β) where
  encode
    | .inl x => 0 :: a.encode x
    | .inr y => 1 :: b.encode y
  decode
    | [] => none
    | tag :: r =>
      if tag = 0 then (a.decode r).map fun (x, r) ↦ (.inl x, r)
      else (b.decode r).map fun (y, r) ↦ (.inr y, r)
  decode_append x rest := by
    cases x with
    | inl x => simp only [cons_append, if_true, a.decode_append, map_some]
    | inr y =>
      simp only [cons_append, b.decode_append, map_some]
      rw [if_neg (by decide)]

def unit : Codec Unit where
  encode _ := []
  decode r := some ((), r)
  decode_append _ _ := rfl

def readMany (a : Codec α) : ℕ → Bytes → Option (List α × Bytes)
  | 0, r => some ([], r)
  | n + 1, r => (a.decode r).bind fun (x, r) ↦ (readMany a n r).map fun (xs, r) ↦ (x :: xs, r)

theorem readMany_append (xs : List α) (rest : Bytes) :
    readMany a xs.length (xs.flatMap a.encode ++ rest) = some (xs, rest) := by
  induction xs with
  | nil => rfl
  | cons x xs ih =>
    simp only [length_cons, readMany, flatMap_cons, append_assoc, a.decode_append,
      bind_some, ih, map_some]

/-- The number of elements and then the elements. -/
def list : Codec (List α) where
  encode xs := nat.encode xs.length ++ xs.flatMap a.encode
  decode r := (nat.decode r).bind fun (n, r) ↦ readMany a n r
  decode_append xs rest := by
    simp only [append_assoc, nat.decode_append, bind_some, readMany_append]

def option : Codec (Option α) :=
  (sum unit a).iso (fun x ↦ x.elim (.inl ()) .inr) (fun x ↦ x.elim (fun _ ↦ none) some)
    fun x ↦ by cases x <;> rfl

def bool : Codec Bool :=
  (sum unit unit).iso (fun b ↦ if b then .inl () else .inr ())
    (fun x ↦ x.elim (fun _ ↦ true) fun _ ↦ false) fun b ↦ by cases b <;> rfl

def int : Codec ℤ :=
  (sum nat nat).iso (fun | .ofNat n => .inl n | .negSucc n => .inr n)
    (fun x ↦ x.elim Int.ofNat Int.negSucc) fun z ↦ by cases z <;> rfl

def string : Codec String :=
  (list (nat.iso Char.toNat Char.ofNat Char.ofNat_toNat)).iso String.toList String.ofList
    fun _ ↦ String.ofList_toList

end Codec
