import MonoTS.Lib.LittleEndian

/-!
# Reading a byte stream item by item

A reader looks at the bytes that are left and either returns one item together with what remains
behind it, or stops with a reason. Repeating it gives the items of a stream and the reason it ended.
The iteration is fuelled so that it computes; `items_of_item` and `items_of_stop` are the equations
a proof uses, and the fuel never appears again.

An append-only log is a stream whose writer puts down `enc a` for each item `a`. If the reader
returns `a` on `enc a ++ rest`, then everything written in front of an arbitrary tail is read back,
and how the stream ends is decided by the tail alone: `items_append` is the statement a torn-tail
argument starts from.
-/

open List

namespace ByteStream

open LittleEndian

variable {α ε : Type*}

/-- One reading step: an item and the stream behind it, or the reason to stop. -/
inductive Step (α ε : Type*) where
  | item (a : α) (rest : Bytes)
  | stop (e : ε)

variable (next : Bytes → Step α ε)

/-- A reader that returns an item has consumed at least one byte. -/
def Consuming : Prop :=
  ∀ ⦃r a rest⦄, next r = .item a rest → rest.length < r.length

/-- Fuelled iteration. Each item is kept with the stream behind it. -/
def itemsFuel (next : Bytes → Step α ε) : ℕ → Bytes → List (α × Bytes) × Option ε
  | 0, _ => ([], none)
  | fuel + 1, r =>
    match next r with
    | .stop e => ([], some e)
    | .item a rest =>
      let tail := itemsFuel next fuel rest
      ((a, rest) :: tail.1, tail.2)

/-- The items of a stream and the reason it ended. -/
def items (r : Bytes) : List (α × Bytes) × Option ε :=
  itemsFuel next (r.length + 1) r

variable {next : Bytes → Step α ε}

theorem itemsFuel_eq_items (hnext : Consuming next) :
    ∀ {fuel : ℕ} {r : Bytes}, r.length < fuel → itemsFuel next fuel r = items next r := by
  have key : ∀ (m n : ℕ) (r : Bytes), r.length < m → r.length < n →
      itemsFuel next m r = itemsFuel next n r := by
    intro m
    induction m with
    | zero => intro n r hm; omega
    | succ m ih =>
      intro n r hm hn
      obtain ⟨n, rfl⟩ := Nat.exists_eq_add_one_of_ne_zero (by omega : n ≠ 0)
      cases hr : next r with
      | stop => simp only [itemsFuel, hr]
      | item a rest =>
        have hlt := hnext hr
        simp only [itemsFuel, hr, ih n rest (by omega) (by omega)]
  intro fuel r h
  exact key fuel (r.length + 1) r h (Nat.lt_succ_self _)

variable {r : Bytes}

theorem items_of_stop {e : ε} (h : next r = .stop e) : items next r = ([], some e) := by
  rw [items, itemsFuel, h]

section

variable (hnext : Consuming next)

include hnext

theorem items_of_item {rest : Bytes} {a : α} (h : next r = .item a rest) :
    items next r = ((a, rest) :: (items next rest).1, (items next rest).2) := by
  have hlt := hnext h
  rw [items, itemsFuel, h]
  simp only [itemsFuel_eq_items hnext hlt]

theorem next_of_items_cons {rest : Bytes} {a : α} {read : List (α × Bytes)}
    (h : (items next r).1 = (a, rest) :: read) :
    next r = .item a rest ∧ (items next rest).1 = read := by
  cases hr : next r with
  | stop =>
    rw [items_of_stop hr] at h
    cases h
  | item =>
    rw [items_of_item hnext hr] at h
    obtain ⟨hhead, htail⟩ := List.cons.inj h
    cases hhead
    exact ⟨rfl, htail⟩

theorem next_of_items_nil (h : (items next r).1 = []) : ∃ e, next r = .stop e := by
  cases hr : next r with
  | stop e => exact ⟨e, rfl⟩
  | item =>
    rw [items_of_item hnext hr] at h
    cases h

end

variable {β : Type*} {xs : List β} {enc : β → Bytes}

/-- What a writer put down in front of any tail is read back, and the tail decides the rest. -/
theorem items_append (hnext : Consuming next) {item : β → α}
    (henc : ∀ x ∈ xs, ∀ rest, next (enc x ++ rest) = .item (item x) rest) (tail : Bytes) :
    ∃ read, items next (xs.flatMap enc ++ tail) =
        (read ++ (items next tail).1, (items next tail).2) ∧
      read.map Prod.fst = xs.map item := by
  induction xs with
  | nil => exact ⟨[], rfl, rfl⟩
  | cons x xs ih =>
    have hx := henc x mem_cons_self (xs.flatMap enc ++ tail)
    obtain ⟨read, hits, hread⟩ := ih fun y hy ↦ henc y (mem_cons_of_mem x hy)
    refine ⟨(item x, xs.flatMap enc ++ tail) :: read, ?_, ?_⟩
    · rw [flatMap_cons, append_assoc, items_of_item hnext hx, hits, cons_append]
    · rw [map_cons, map_cons, hread]

/-- The items whose bytes lie completely within the first `n`. -/
def wholeItems {β : Type*} (enc : β → Bytes) : ℕ → List β → List β
  | _, [] => []
  | n, x :: xs => if (enc x).length ≤ n then x :: wholeItems enc (n - (enc x).length) xs else []

/-- Behind items that lie within the first bytes the count goes on. -/
theorem wholeItems_append {n : ℕ}
    (h : (xs.flatMap enc).length ≤ n) (ys : List β) :
    wholeItems enc n (xs ++ ys) = xs ++ wholeItems enc (n - (xs.flatMap enc).length) ys := by
  induction xs generalizing n with
  | nil => rfl
  | cons x xs ih =>
    rw [flatMap_cons, length_append] at h ⊢
    rw [cons_append, wholeItems, if_pos (by omega), ih (by omega), Nat.sub_sub, cons_append]

theorem wholeItems_spec (enc : β → Bytes) (n : ℕ) (xs : List β) :
    ∃ rest, xs = wholeItems enc n xs ++ rest ∧ ((wholeItems enc n xs).flatMap enc).length ≤ n := by
  induction xs generalizing n with
  | nil => exact ⟨[], rfl, Nat.zero_le _⟩
  | cons x xs ih =>
    rw [wholeItems]
    split_ifs with h
    · obtain ⟨rest, hxs, _⟩ := ih (n - (enc x).length)
      refine ⟨rest, by rw [cons_append, ← hxs], ?_⟩
      rw [flatMap_cons, length_append]
      omega
    · exact ⟨x :: xs, rfl, Nat.zero_le _⟩

theorem wholeItems_eq_self {n : ℕ}
    (h : (xs.flatMap enc).length ≤ n) : wholeItems enc n xs = xs := by
  have happ := wholeItems_append h []
  rwa [append_nil, wholeItems, append_nil] at happ

/-- An item that is cut does not count. -/
theorem wholeItems_concat {y : β} {n : ℕ}
    (h : n < ((xs ++ [y]).flatMap enc).length) :
    wholeItems enc n (xs ++ [y]) = wholeItems enc n xs := by
  induction xs generalizing n with
  | nil =>
    rw [nil_append, flatMap_singleton] at h
    exact if_neg (by omega)
  | cons x xs ih =>
    rw [cons_append, flatMap_cons, length_append] at h
    rw [cons_append, wholeItems, wholeItems]
    split_ifs with hx
    · rw [ih (by omega)]
    · rfl

section

variable (hnext : Consuming next)
  (hlocal : ∀ ⦃r a rest⦄, next r = .item a rest → ∀ tail, next (r ++ tail) = .item a (rest ++ tail))

include hnext hlocal

/-- A reader that returns what was written, and does not look behind it, reads from a stream that
was cut the items that were not cut. -/
theorem items_take {item : β → α}
    (henc : ∀ x ∈ xs, ∀ rest, next (enc x ++ rest) = .item (item x) rest) (n : ℕ) :
    (items next ((xs.flatMap enc).take n)).1.map Prod.fst = (wholeItems enc n xs).map item := by
  induction xs generalizing n with
  | nil =>
    rw [flatMap_nil, take_nil]
    cases hr : next [] with
    | stop => rw [items_of_stop hr]; rfl
    | item => exact absurd (hnext hr) (Nat.not_lt_zero _)
  | cons x xs ih =>
    obtain ⟨hx, hxs⟩ := forall_mem_cons.mp henc
    rw [flatMap_cons, wholeItems]
    split_ifs with h
    · rw [take_append, take_of_length_le h, items_of_item hnext (hx _), map_cons, map_cons, ih hxs]
    · rw [take_append_of_le_length (by omega)]
      cases hr : next ((enc x).take n) with
      | stop => rw [items_of_stop hr]; rfl
      | item a rest =>
        -- the rest of the item would be left unread
        have hwh := hlocal hr ((enc x).drop n)
        rw [take_append_drop, ← append_nil (enc x), hx []] at hwh
        have hdrop := congrArg List.length (Step.item.inj hwh).2
        rw [length_append, append_nil, length_drop] at hdrop
        simp only [length_nil] at hdrop
        omega

/-- A reader that does not look behind its items, on a stream that was read to its end: what is
written behind the stream is read after it. -/
theorem items_append_of_end {e : ε} (hend : ∀ ⦃r⦄, next r = .stop e → r = [])
    (h : (items next r).2 = some e) (tail : Bytes) :
    ∃ read, items next (r ++ tail) = (read ++ (items next tail).1, (items next tail).2) ∧
      read.map Prod.fst = (items next r).1.map Prod.fst := by
  induction hn : r.length using Nat.strong_induction_on generalizing r with
  | _ n ih =>
    cases hr : next r with
    | stop =>
      rw [items_of_stop hr] at h ⊢
      cases h
      obtain rfl := hend hr
      exact ⟨[], rfl, rfl⟩
    | item a rest =>
      rw [items_of_item hnext hr] at h ⊢
      obtain ⟨read, hits, hread⟩ := ih rest.length (hn ▸ hnext hr) h rfl
      refine ⟨(a, rest ++ tail) :: read, ?_, ?_⟩
      · rw [items_of_item hnext (hlocal hr tail), hits, cons_append]
      · rw [map_cons, map_cons, hread]

end

/-- If a second reader returns, on the image of the stream, the image of every item the first reader
returns, then it reads at least what the first one reads. -/
theorem items_isPrefix {β ε' : Type*} {next' : Bytes → Step β ε'} (hnext : Consuming next)
    (hnext' : Consuming next') {f : α → β} {g : Bytes → Bytes}
    (h : ∀ ⦃r a rest⦄, next r = .item a rest → next' (g r) = .item (f a) (g rest)) (r : Bytes) :
    (items next r).1.map (fun x ↦ f x.1) <+: (items next' (g r)).1.map Prod.fst := by
  induction hn : r.length using Nat.strong_induction_on generalizing r with
  | _ n ih =>
    cases hr : next r with
    | stop =>
      rw [items_of_stop hr]
      exact nil_prefix
    | item a rest =>
      rw [items_of_item hnext hr, items_of_item hnext' (h hr), map_cons, map_cons]
      exact (prefix_cons_inj _).mpr (ih rest.length (hn ▸ hnext hr) rest rfl)

end ByteStream
