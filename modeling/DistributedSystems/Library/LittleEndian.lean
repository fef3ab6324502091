import Mathlib.Algebra.Group.Nat.Defs
import Mathlib.Data.Nat.Basic
import Mathlib.Data.List.Basic

/-!
# Little-endian words in byte strings

A byte string is read and written as an array of 64-bit words.  `encode` lists the bytes of an array,
and a read or an in-place write at a word's position is a read or a write of the array.
-/

namespace LittleEndian

/-! ## 1. Bytes of a number -/

def bytes : Nat → Nat → List UInt8
  | 0, _ => []
  | w + 1, x => UInt8.ofNat x :: bytes w (x / 256)

def value : List UInt8 → Nat
  | [] => 0
  | b :: bs => b.toNat + 256 * value bs

theorem length_bytes (w : Nat) : ∀ x, (bytes w x).length = w := by
  induction w with
  | zero => intro x; rfl
  | succ w ih => intro x; simp only [bytes, List.length_cons, ih]

theorem value_bytes (w : Nat) : ∀ x, value (bytes w x) = x % 256 ^ w := by
  induction w with
  | zero => intro x; rw [Nat.pow_zero, Nat.mod_one]; rfl
  | succ w ih =>
    intro x
    have hdigit : (UInt8.ofNat x).toNat = x % 256 := UInt8.toNat_ofNat'
    rw [bytes, value, ih, hdigit, Nat.pow_succ, Nat.mul_comm (256 ^ w), Nat.mod_mul]

/-! ## 2. Words -/

def put (x : UInt64) : List UInt8 := bytes 8 x.toNat

def get (l : List UInt8) : UInt64 := UInt64.ofNat (value l)

theorem length_put (x : UInt64) : (put x).length = 8 := length_bytes 8 x.toNat

theorem get_put (x : UInt64) : get (put x) = x := by
  unfold get put
  have hlt : x.toNat < 256 ^ 8 := x.toNat_lt
  rw [value_bytes, Nat.mod_eq_of_lt hlt, UInt64.ofNat_toNat]

def encode (xs : List UInt64) : List UInt8 := xs.flatMap put

theorem encode_cons (x : UInt64) (xs : List UInt64) : encode (x :: xs) = put x ++ encode xs := rfl

theorem length_encode (xs : List UInt64) : (encode xs).length = 8 * xs.length := by
  induction xs with
  | nil => rfl
  | cons x xs ih =>
    rw [encode_cons, List.length_append, length_put, ih, List.length_cons]
    omega

/-- The word at position `i`, unless it reaches past the end. -/
def wordAt (data : List UInt8) (i : Nat) : Option UInt64 :=
  if 8 * i + 8 ≤ data.length then some (get ((data.drop (8 * i)).take 8)) else none

def setWordAt (data : List UInt8) (i : Nat) (x : UInt64) : Option (List UInt8) :=
  if 8 * i + 8 ≤ data.length then
    some (data.take (8 * i) ++ put x ++ data.drop (8 * i + 8))
  else
    none

theorem length_setWordAt {data data' : List UInt8} {i : Nat} {x : UInt64}
    (h : setWordAt data i x = some data') : data'.length = data.length := by
  unfold setWordAt at h
  split at h
  · rw [← Option.some.inj h, List.length_append, List.length_append, length_put, List.length_take,
      List.length_drop]
    omega
  · contradiction

theorem drop_encode (xs : List UInt64) : ∀ i, (encode xs).drop (8 * i) = encode (xs.drop i) := by
  induction xs with
  | nil => intro i; rw [List.drop_nil, encode, List.flatMap_nil, List.drop_nil]
  | cons x xs ih =>
    intro i
    cases i with
    | zero => rfl
    | succ i =>
      have hskip : 8 * (i + 1) = (put x).length + 8 * i := by
        rw [length_put]
        omega
      rw [encode_cons, hskip, List.drop_append, List.drop_eq_nil_of_le (by omega),
        List.nil_append, Nat.add_sub_cancel_left, ih, List.drop_succ_cons]

theorem take_encode (xs : List UInt64) : ∀ i, (encode xs).take (8 * i) = encode (xs.take i) := by
  induction xs with
  | nil => intro i; rw [List.take_nil, encode, List.flatMap_nil, List.take_nil]
  | cons x xs ih =>
    intro i
    cases i with
    | zero => rfl
    | succ i =>
      have hlen := length_put x
      rw [encode_cons, List.take_append, List.take_of_length_le (by omega), hlen,
        show 8 * (i + 1) - 8 = 8 * i by omega, ih, List.take_succ_cons, encode_cons]

theorem wordAt_encode (xs : List UInt64) (i : Nat) : wordAt (encode xs) i = xs[i]? := by
  unfold wordAt
  rw [length_encode]
  by_cases hi : i < xs.length
  · rw [if_pos (by omega), drop_encode, List.drop_eq_getElem_cons hi, encode_cons,
      List.take_append_of_le_length (by rw [length_put]),
      List.take_of_length_le (by rw [length_put]), get_put, List.getElem?_eq_getElem hi]
  · rw [if_neg (by omega), List.getElem?_eq_none (by omega)]

theorem setWordAt_encode {xs : List UInt64} {i : Nat} (hi : i < xs.length) (x : UInt64) :
    setWordAt (encode xs) i x = some (encode (xs.set i x)) := by
  unfold setWordAt
  rw [length_encode, if_pos (by omega), take_encode, show 8 * i + 8 = 8 * (i + 1) by omega,
    drop_encode, List.set_eq_take_append_cons_drop, if_pos hi]
  unfold encode
  rw [List.flatMap_append, List.flatMap_cons, List.append_assoc]

theorem encode_injective {xs ys : List UInt64} (h : encode xs = encode ys) : xs = ys := by
  apply List.ext_getElem?
  intro i
  rw [← wordAt_encode, ← wordAt_encode, h]

end LittleEndian
