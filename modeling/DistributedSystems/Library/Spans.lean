import Mathlib.Data.BitVec

/-!
# Spans of machine addresses

Addresses are `w`-bit words.  `offset b x` is the distance from `b` up to `x`, which may wrap around:
`offset b x < n` says that `x` is one of the `n` addresses from `b` on.
-/

namespace Spans

variable {w : Nat} {b x y : BitVec w} {n : Nat}

def offset (b x : BitVec w) : Nat := (x - b).toNat

theorem offset_lt (b x : BitVec w) : offset b x < 2 ^ w := (x - b).isLt

theorem offset_self (b : BitVec w) : offset b b = 0 := by
  unfold offset
  rw [BitVec.sub_self]
  rfl

theorem add_offset (b x : BitVec w) : b + BitVec.ofNat w (offset b x) = x := by
  unfold offset
  rw [BitVec.ofNat_toNat, BitVec.setWidth_eq, BitVec.add_comm, BitVec.sub_add_cancel]

theorem offset_inj (h : offset b x = offset b y) : x = y := by
  rw [← add_offset b x, h, add_offset]

theorem offset_add (hn : n < 2 ^ w) : offset b (b + BitVec.ofNat w n) = n := by
  unfold offset
  rw [BitVec.add_comm, BitVec.add_sub_cancel, BitVec.toNat_ofNat, Nat.mod_eq_of_lt hn]

theorem offset_advance (hn : n ≤ offset b x) :
    offset (b + BitVec.ofNat w n) x = offset b x - n := by
  have hlt := offset_lt b x
  have hval : (BitVec.ofNat w n).toNat = n := by
    rw [BitVec.toNat_ofNat, Nat.mod_eq_of_lt (by omega)]
  have hsub : x - (b + BitVec.ofNat w n) = x - b - BitVec.ofNat w n := sub_add_eq_sub_sub _ _ _
  unfold offset at hn ⊢
  rw [hsub, BitVec.toNat_sub_of_le (BitVec.le_def.mpr (by rw [hval]; exact hn)), hval]

theorem offset_passed (hn : n < 2 ^ w) (hx : offset b x < n) :
    offset (b + BitVec.ofNat w n) x = 2 ^ w - (n - offset b x) := by
  have hback : offset x (b + BitVec.ofNat w n) = n - offset b x := by
    have hsplit : b + BitVec.ofNat w n = x + BitVec.ofNat w (n - offset b x) := by
      obtain ⟨d, hd⟩ : ∃ d, d = offset b x := ⟨_, rfl⟩
      rw [← hd] at hx ⊢
      rw [← add_offset b x, ← hd, BitVec.add_assoc, ← BitVec.ofNat_add,
        Nat.add_sub_cancel' (Nat.le_of_lt hx)]
    rw [hsplit, offset_add (by omega)]
  have hneg : x - (b + BitVec.ofNat w n) = -(b + BitVec.ofNat w n - x) := (neg_sub _ _).symm
  unfold offset at hback hx ⊢
  rw [hneg, BitVec.toNat_neg, hback, Nat.mod_eq_of_lt (by omega)]

end Spans
