import DistributedSystems.Library.Spans
import DistributedSystems.MCertiKOS.CopyRange
import DistributedSystems.MCertiKOS.PageMap

/-!
# What `memcpy` moves

Bytes of the physical memory, read and written one at a time, and the memory after a run of them.
-/

namespace MCertiKOS

open Spans

/-! ## 1. Bytes of a word -/

theorem getLsbD_getByte (w : BitVec 32) (k i : Nat) :
    (getByte w k).getLsbD i = (decide (i < 8) && w.getLsbD (8 * k + i)) := by
  unfold getByte
  rw [BitVec.getLsbD_setWidth, BitVec.getLsbD_ushiftRight]

theorem getLsbD_setByte {w : BitVec 32} {k : Nat} {b : BitVec 8} {i : Nat} (hi : i < 32) :
    (setByte w k b).getLsbD i =
      if 8 * k ≤ i ∧ i < 8 * k + 8 then b.getLsbD (i - 8 * k) else w.getLsbD i := by
  have hff : ∀ n, (0xff#32).getLsbD n = decide (n < 8) := by
    intro n
    by_cases hn : n < 32
    · revert n
      decide
    · rw [BitVec.getLsbD_of_ge _ _ (by omega)]
      exact (decide_eq_false (by omega)).symm
  unfold setByte
  rw [BitVec.getLsbD_or, BitVec.getLsbD_and, BitVec.getLsbD_not, BitVec.getLsbD_shiftLeft,
    BitVec.getLsbD_shiftLeft, BitVec.getLsbD_setWidth, hff]
  by_cases hlo : 8 * k ≤ i
  · by_cases hhi : i < 8 * k + 8
    · simp [hi, hlo, hhi, Nat.not_lt.mpr hlo, show i - 8 * k < 8 by omega,
        show i - 8 * k < 32 by omega]
    · have hout : b.getLsbD (i - 8 * k) = false := BitVec.getLsbD_of_ge _ _ (by omega)
      simp [hi, hhi, hout, show ¬ i - 8 * k < 8 by omega]
  · simp [hi, hlo, show i < 8 * k by omega]

theorem getByte_setByte (w : BitVec 32) {k l : Nat} (hk : k < 4) (hl : l < 4) (b : BitVec 8) :
    getByte (setByte w k b) l = if l = k then b else getByte w l := by
  apply BitVec.eq_of_getLsbD_eq
  intro i hi
  rw [getLsbD_getByte, getLsbD_setByte (by omega), decide_eq_true hi, Bool.true_and]
  by_cases hc : l = k
  · subst hc
    rw [if_pos ⟨by omega, by omega⟩, if_pos rfl, Nat.add_sub_cancel_left]
  · rw [if_neg (by omega), if_neg hc, getLsbD_getByte, decide_eq_true hi, Bool.true_and]

/-! ## 2. Bytes of the memory -/

theorem pageOf_val (x : BitVec 32) : pageOf x = x.toNat / pageSize := by
  unfold pageOf
  rw [BitVec.toNat_ushiftRight, Nat.shiftRight_eq_div_pow]
  rfl

theorem wordAddr_val (x : BitVec 32) : (wordAddr x).val = x.toNat / 4 % 1024 := by
  show ((x >>> 2) &&& 0x3ff).toNat = _
  rw [BitVec.toNat_and, BitVec.toNat_ushiftRight, Nat.shiftRight_eq_div_pow]
  exact Nat.and_two_pow_sub_one_eq_mod _ 10

theorem eq_of_place {x y : BitVec 32} (hpage : pageOf x = pageOf y) (hword : wordAddr x = wordAddr y)
    (hbyte : x.toNat % 4 = y.toNat % 4) : x = y := by
  have hword' := congrArg Fin.val hword
  rw [wordAddr_val, wordAddr_val] at hword'
  rw [pageOf_val, pageOf_val, show pageSize = 4096 from rfl] at hpage
  apply BitVec.eq_of_toNat_eq
  omega

namespace Vmm

theorem readByte_writeByte (s : Vmm) (pa x : BitVec 32) (b : BitVec 8) :
    (s.writeByte pa b).readByte x = if x = pa then b else s.readByte x := by
  unfold readByte writeByte
  rw [write_phys]
  by_cases hword : pageOf x = pageOf pa ∧ wordAddr x = wordAddr pa
  · rw [if_pos hword, getByte_setByte _ (Nat.mod_lt _ (by decide)) (Nat.mod_lt _ (by decide)),
      ← hword.1, ← hword.2]
    by_cases hbyte : x.toNat % 4 = pa.toNat % 4
    · rw [if_pos hbyte, if_pos (eq_of_place hword.1 hword.2 hbyte)]
    · rw [if_neg hbyte, if_neg]
      rintro rfl
      exact hbyte rfl
  · rw [if_neg hword, if_neg]
    rintro rfl
    exact hword ⟨rfl, rfl⟩

theorem writeByte_phys_of_ne (s : Vmm) {pa : BitVec 32} {n : Nat} (h : n ≠ pageOf pa) (b : BitVec 8) :
    (s.writeByte pa b).phys n = s.phys n := by
  funext j
  exact s.write_phys_of_ne h _ j _

end Vmm

/-! ## 3. Runs of bytes -/

theorem memcpy_succ (d : Direction) (size : Nat) (pa kva : BitVec 32) (m : Vmm × KMem) :
    memcpy d (size + 1) pa kva m = memcpy d size (pa + 1) (kva + 1) (moveByte d pa kva m) := rfl

theorem offset_succ_lt {b x : BitVec 32} {n : Nat} (hn : n < 2 ^ 32) :
    offset (b + 1) x < n ↔ x ≠ b ∧ offset b x < n + 1 := by
  by_cases hx : x = b
  · subst hx
    have hpassed := offset_passed (b := x) (x := x) (n := 1) (by decide) (by rw [offset_self]; decide)
    rw [offset_self] at hpassed
    constructor
    · intro h
      change offset (x + BitVec.ofNat 32 1) x < n at h
      omega
    · exact fun h => absurd rfl h.1
  · have hpos : 1 ≤ offset b x := by
      by_contra hc
      exact hx (offset_inj (b := b) (by rw [offset_self]; omega))
    have hstep : offset (b + 1) x = offset b x - 1 := offset_advance hpos
    rw [hstep]
    constructor
    · intro h
      exact ⟨hx, by omega⟩
    · intro h
      omega

theorem succ_sub_succ (kva b x : BitVec 32) : kva + 1 + (x - (b + 1)) = kva + (x - b) := by
  bv_omega

theorem memcpy_copyin (size : Nat) (hsize : size ≤ 2 ^ 32) (pa kva : BitVec 32) (m : Vmm × KMem) :
    (memcpy .copyin size pa kva m).1 = m.1 ∧
      ∀ a, (memcpy .copyin size pa kva m).2 a =
        if offset kva a < size then m.1.readByte (pa + (a - kva)) else m.2 a := by
  induction size generalizing pa kva m with
  | zero => exact ⟨rfl, fun a => rfl⟩
  | succ size ih =>
    obtain ⟨hvmm, hmem⟩ := ih (by omega) (pa + 1) (kva + 1) (moveByte .copyin pa kva m)
    rw [memcpy_succ]
    refine ⟨hvmm, fun a => ?_⟩
    rw [hmem a, succ_sub_succ]
    show (if offset (kva + 1) a < size then m.1.readByte (pa + (a - kva))
      else Function.update m.2 kva (m.1.readByte pa) a) = _
    by_cases ha : a = kva
    · subst ha
      rw [if_neg fun hc => ((offset_succ_lt (by omega)).mp hc).1 rfl, Function.update_self,
        if_pos (by rw [offset_self]; omega), BitVec.sub_self, BitVec.add_zero]
    · rw [Function.update_of_ne ha]
      simp only [offset_succ_lt (b := kva) (x := a) (show size < 2 ^ 32 by omega), ne_eq, ha,
        not_false_eq_true, true_and]

theorem memcpy_copyout (size : Nat) (hsize : size ≤ 2 ^ 32) (pa kva : BitVec 32) (m : Vmm × KMem) :
    (memcpy .copyout size pa kva m).2 = m.2 ∧
      ∀ x, (memcpy .copyout size pa kva m).1.readByte x =
        if offset pa x < size then m.2 (kva + (x - pa)) else m.1.readByte x := by
  induction size generalizing pa kva m with
  | zero => exact ⟨rfl, fun x => rfl⟩
  | succ size ih =>
    obtain ⟨hkmem, hbyte⟩ := ih (by omega) (pa + 1) (kva + 1) (moveByte .copyout pa kva m)
    rw [memcpy_succ]
    refine ⟨hkmem, fun x => ?_⟩
    rw [hbyte x, succ_sub_succ]
    show (if offset (pa + 1) x < size then m.2 (kva + (x - pa))
      else (m.1.writeByte pa (m.2 kva)).readByte x) = _
    rw [Vmm.readByte_writeByte]
    by_cases hx : x = pa
    · subst hx
      rw [if_neg fun hc => ((offset_succ_lt (by omega)).mp hc).1 rfl, if_pos rfl,
        if_pos (by rw [offset_self]; omega), BitVec.sub_self, BitVec.add_zero]
    · rw [if_neg hx]
      simp only [offset_succ_lt (b := pa) (x := x) (show size < 2 ^ 32 by omega), ne_eq, hx,
        not_false_eq_true, true_and]

theorem memcpy_other_pages (d : Direction) (size page : Nat) (pa kva : BitVec 32) (m : Vmm × KMem)
    (hpage : ∀ k < size, pageOf (pa + BitVec.ofNat 32 k) = page) {n : Nat} (hn : n ≠ page) :
    (memcpy d size pa kva m).1.phys n = m.1.phys n := by
  induction size generalizing pa kva m with
  | zero => rfl
  | succ size ih =>
    have hfirst : pageOf pa = page := by
      have h0 := hpage 0 (Nat.succ_pos size)
      rwa [BitVec.add_zero] at h0
    rw [memcpy_succ, ih]
    · cases d with
      | copyin => rfl
      | copyout => exact m.1.writeByte_phys_of_ne (by rw [hfirst]; exact hn) _
    · intro k hk
      have hnext := hpage (k + 1) (by omega)
      rwa [Nat.add_comm, BitVec.ofNat_add, ← BitVec.add_assoc] at hnext

end MCertiKOS
