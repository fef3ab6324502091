import DistributedSystems.MCertiKOS.Copy
import DistributedSystems.MCertiKOS.Isolation

/-!
# Which user addresses a copy reaches

A copy reaches the addresses `uva`, `uva + 1`, … in order, whatever the page tables hold.  The guards
look at the 32-bit sum `uva + len`, so the addresses lie between `VM_USERLO` and `VM_USERHI` exactly if
that sum does not wrap around.
-/

namespace MCertiKOS

/-! ## 1. Physical addresses -/

theorem addrMask_toNat (x : BitVec 32) : (addrMask x).toNat = x.toNat / pageSize * pageSize := by
  have hmask : addrMask x = (x >>> 12) <<< 12 := by
    apply BitVec.eq_of_getLsbD_eq
    intro i hi
    unfold addrMask
    have hbit : ∀ i < 32, (0xfffff000 : BitVec 32).getLsbD i = decide (12 ≤ i) := by decide
    rw [BitVec.getLsbD_and, hbit i hi, BitVec.getLsbD_shiftLeft, BitVec.getLsbD_ushiftRight]
    by_cases h12 : 12 ≤ i
    · simp [hi, h12, Nat.not_lt.mpr h12, Nat.add_sub_cancel' h12]
    · simp [h12, Nat.not_le.mp h12]
  have hx := x.isLt
  rw [hmask, BitVec.toNat_shiftLeft, BitVec.toNat_ushiftRight, Nat.shiftLeft_eq,
    Nat.shiftRight_eq_div_pow]
  show x.toNat / 4096 * 4096 % 2 ^ 32 = x.toNat / 4096 * 4096
  omega

theorem userPa_toNat (pte va : BitVec 32) :
    (userPa pte va).toNat = pte.toNat / pageSize * pageSize + va.toNat % pageSize := by
  have hx := pte.isLt
  have hdef : pageSize = 4096 := rfl
  unfold userPa
  rw [BitVec.toNat_add, addrMask_toNat, BitVec.toNat_ofNat, hdef]
  omega

theorem userPa_mod (pte va : BitVec 32) : (userPa pte va).toNat % pageSize = va.toNat % pageSize := by
  have hdef : pageSize = 4096 := rfl
  rw [userPa_toNat, hdef]
  omega

/-! ## 2. The addresses of a copy -/

def Access.addrs (a : Access) : List (BitVec 32) :=
  (List.range a.size).map fun k => a.va + BitVec.ofNat 32 k

def touched (l : List Access) : List (BitVec 32) := l.flatMap Access.addrs

theorem touched_cons (a : Access) (l : List Access) : touched (a :: l) = a.addrs ++ touched l := rfl

theorem touched_append (l l' : List Access) : touched (l ++ l') = touched l ++ touched l' :=
  List.flatMap_append

def addrsFrom (va : BitVec 32) (n : Nat) : List (BitVec 32) :=
  (List.range n).map fun k => va + BitVec.ofNat 32 k

theorem addrsFrom_add (va : BitVec 32) (n k : Nat) :
    addrsFrom va n ++ addrsFrom (va + BitVec.ofNat 32 n) k = addrsFrom va (n + k) := by
  unfold addrsFrom
  rw [List.range_add, List.map_append, List.map_map]
  congr 1
  apply List.map_congr_left
  intro i _
  show va + BitVec.ofNat 32 n + BitVec.ofNat 32 i = va + BitVec.ofNat 32 (n + i)
  rw [BitVec.ofNat_add, BitVec.add_assoc]

variable {K : KernelLayout}

theorem touched_copyLoop (d : Direction) (p : Pid) (uva kva : BitVec 32) (len copied : Nat)
    (m : Vmm × KMem) :
    ∃ n ≤ len, touched (copyLoop K d p uva kva len copied m).accesses = addrsFrom uva n ∧
      ((copyLoop K d p uva kva len copied m).copied.isSome = true → n = len) := by
  fun_induction copyLoop K d p uva kva len copied m with
  | case1 => exact ⟨0, Nat.le_refl _, rfl, fun _ => rfl⟩
  | case2 uva kva len copied m hlen hnone => exact ⟨0, Nat.zero_le _, rfl, Bool.noConfusion⟩
  | case3 uva kva len copied m hlen s allocs pte hentry pa size m' rest ih =>
    obtain ⟨n, hn, htouched, hall⟩ := ih
    have hsize : size ≤ len := chunkSize_le _ _
    refine ⟨size + n, by omega, ?_, fun hr => ?_⟩
    · rw [touched_cons, htouched]
      exact addrsFrom_add uva size n
    · have hrest := hall hr
      omega

theorem copied_copyLoop (d : Direction) (p : Pid) (uva kva : BitVec 32) (len copied : Nat)
    (m : Vmm × KMem) {r : Nat} (hr : (copyLoop K d p uva kva len copied m).copied = some r) :
    r = copied + len := by
  fun_induction copyLoop K d p uva kva len copied m with
  | case1 => exact (Option.some.inj hr).symm
  | case2 => contradiction
  | case3 uva kva len copied m hlen s allocs pte hentry pa size m' rest ih =>
    have hsize : size ≤ len := chunkSize_le _ _
    have hrest := ih hr
    omega

/-! ## 3. Ranges -/

def InUserRange (l : List Access) : Prop := ∀ w ∈ touched l, vmUserLo ≤ w ∧ w < vmUserHi

def Wraps (uva : BitVec 32) (n : Nat) : Prop := n ≠ 0 ∧ 2 ^ 32 ≤ uva.toNat + n

variable {uva : BitVec 32} {n : Nat}

theorem addrsFrom_inRange {len : Nat} (hn : n ≤ len) (hlo : vmUserLo ≤ uva)
    (hhi : uva.toNat + len ≤ vmUserHi.toNat) {w : BitVec 32} (hw : w ∈ addrsFrom uva n) :
    vmUserLo ≤ w ∧ w < vmUserHi := by
  obtain ⟨k, hk, rfl⟩ := List.mem_map.mp hw
  have hk := List.mem_range.mp hk
  have hlo' : vmUserLo.toNat ≤ uva.toNat := hlo
  have hdef : vmUserHi.toNat = 0xF0000000 := rfl
  have hval : (uva + BitVec.ofNat 32 k).toNat = uva.toNat + k := by
    rw [BitVec.toNat_add, BitVec.toNat_ofNat]
    omega
  constructor
  · show vmUserLo.toNat ≤ (uva + BitVec.ofNat 32 k).toNat
    omega
  · show (uva + BitVec.ofNat 32 k).toNat < vmUserHi.toNat
    omega

theorem last_mem_addrsFrom (h : Wraps uva n) : 0xFFFFFFFF#32 ∈ addrsFrom uva n := by
  have hlt := uva.isLt
  obtain ⟨hn, hsum⟩ := h
  refine List.mem_map.mpr ⟨2 ^ 32 - 1 - uva.toNat, List.mem_range.mpr (by omega), ?_⟩
  apply BitVec.eq_of_toNat_eq
  rw [BitVec.toNat_add, BitVec.toNat_ofNat]
  show _ = 2 ^ 32 - 1
  omega

section Direct

variable (d : Direction) (p : Pid) {uva kva len : BitVec 32} (m : Vmm × KMem)

theorem passesGuards_iff : passesGuards uva kva len = true ↔
    vmUserLo ≤ uva ∧ uva + len ≤ vmUserHi ∧ kva + len ≤ vmUserHi := by
  unfold passesGuards
  rw [Bool.and_eq_true, Bool.and_eq_true, Bool.not_eq_true', decide_eq_true_iff, decide_eq_true_iff,
    decide_eq_false_iff_not, BitVec.not_lt, and_assoc]

theorem ptCopy_passed (hg : passesGuards uva kva len = true) :
    ptCopy K d p uva kva len m = copyLoop K d p uva kva len.toNat 0 m := by
  unfold ptCopy
  rw [if_pos hg]

theorem ptCopy_refused (hg : passesGuards uva kva len = false) :
    ptCopy K d p uva kva len m = ⟨m, [], [], some 0⟩ := by
  unfold ptCopy
  rw [hg, if_neg Bool.false_ne_true]

theorem ptCopy_inRange (hw : ¬ Wraps uva len.toNat) :
    InUserRange (ptCopy K d p uva kva len m).accesses := by
  cases hg : passesGuards uva kva len with
  | false =>
    rw [ptCopy_refused d p m hg]
    intro w hw
    contradiction
  | true =>
    rw [ptCopy_passed d p m hg]
    obtain ⟨hlo, hhi, _⟩ := passesGuards_iff.mp hg
    obtain ⟨n, hn, htouched, _⟩ := touched_copyLoop (K := K) d p uva kva len.toNat 0 m
    intro w hmem
    rw [htouched] at hmem
    by_cases hzero : len.toNat = 0
    · rw [show n = 0 by omega] at hmem
      contradiction
    · have hsum : uva.toNat + len.toNat < 2 ^ 32 := by
        by_contra hc
        exact hw ⟨hzero, by omega⟩
      have hhi' : (uva + len).toNat ≤ vmUserHi.toNat := hhi
      rw [BitVec.toNat_add, Nat.mod_eq_of_lt hsum] at hhi'
      exact addrsFrom_inRange hn hlo hhi' hmem

theorem ptCopy_leaves (hg : passesGuards uva kva len = true) (hw : Wraps uva len.toNat)
    (hr : (ptCopy K d p uva kva len m).copied.isSome = true) :
    ¬ InUserRange (ptCopy K d p uva kva len m).accesses := by
  rw [ptCopy_passed d p m hg] at hr ⊢
  obtain ⟨n, _, htouched, hall⟩ := touched_copyLoop (K := K) d p uva kva len.toNat 0 m
  intro hin
  have hlast := (hin 0xFFFFFFFF#32 (by
    rw [htouched, hall hr]
    exact last_mem_addrsFrom hw)).2
  exact absurd hlast (by decide)

end Direct

/-! ## 4. System calls -/

theorem passesGuards_buf (buf : KernelBuf n) {len : BitVec 32} (hn : len.toNat ≤ n) :
    passesGuards uva buf len = true ↔ vmUserLo ≤ uva ∧ uva + len ≤ vmUserHi := by
  have hbuf := buf.property
  have hlo : vmUserLo.toNat = 0x40000000 := rfl
  have hkva : buf.val + len ≤ vmUserHi := by
    show (buf.val + len).toNat ≤ 0xF0000000
    rw [BitVec.toNat_add]
    omega
  rw [passesGuards_iff]
  exact ⟨fun h => ⟨h.1, h.2.1⟩, fun h => ⟨h.1, h.2, hkva⟩⟩

theorem putsChunk_le (remain : Nat) : putsChunk remain ≤ remain ∧ putsChunk remain ≤ 4095 := by
  have hdef : pageSize = 4096 := rfl
  unfold putsChunk
  split <;> omega

theorem toNat_putsChunk (remain : Nat) :
    (BitVec.ofNat 32 (putsChunk remain)).toNat = putsChunk remain := by
  have hle := (putsChunk_le remain).2
  rw [BitVec.toNat_ofNat]
  omega

theorem inUserRange_append {l l' : List Access} :
    InUserRange (l ++ l') ↔ InUserRange l ∧ InUserRange l' := by
  unfold InUserRange
  rw [touched_append]
  constructor
  · intro h
    exact ⟨fun w hw => h w (List.mem_append_left _ hw), fun w hw => h w (List.mem_append_right _ hw)⟩
  · rintro ⟨h, h'⟩ w hw
    rcases List.mem_append.mp hw with hw | hw
    · exact h w hw
    · exact h' w hw

/-- Only the first string can wrap: after a string that did not, the position is at most
`VM_USERHI`. -/
theorem putsLoop_inRange (p : Pid) (buf curPos : BitVec 32) (remain : Nat) (m : Vmm × KMem)
    (hw : ¬ Wraps curPos (putsChunk remain)) :
    InUserRange (putsLoop K p buf curPos remain m).accesses := by
  fun_induction putsLoop K p buf curPos remain m with
  | case1 =>
    intro w hw
    contradiction
  | case2 curPos remain m hremain nbytes run hspin =>
    refine ptCopy_inRange .copyin p m ?_
    rwa [toNat_putsChunk]
  | case3 curPos remain m hremain nbytes run n hrun hshort =>
    refine ptCopy_inRange .copyin p m ?_
    rwa [toNat_putsChunk]
  | case4 curPos remain m hremain nbytes run n hrun hn mem rest ih =>
    have hfirst : InUserRange run.accesses := by
      refine ptCopy_inRange .copyin p m ?_
      rwa [toNat_putsChunk]
    refine inUserRange_append.mpr ⟨hfirst, ih ?_⟩
    -- the copy went through, so its guards held
    have hpos : 0 < nbytes := putsChunk_pos hremain
    have hguard : passesGuards curPos buf (BitVec.ofNat 32 nbytes) = true := by
      cases hg : passesGuards curPos buf (BitVec.ofNat 32 nbytes) with
      | true => rfl
      | false =>
        have hzero : run = ⟨m, [], [], some 0⟩ := ptCopy_refused .copyin p m hg
        rw [hzero] at hrun
        have hn0 := Option.some.inj hrun
        omega
    have hend : (curPos + BitVec.ofNat 32 nbytes).toNat ≤ 0xF0000000 :=
      (passesGuards_iff.mp hguard).2.1
    have hle := (putsChunk_le (remain - nbytes)).2
    rintro ⟨_, hsum⟩
    omega

theorem putsLoop_leaves (p : Pid) (buf : KernelBuf pageSize) {curPos : BitVec 32} {remain : Nat}
    (m : Vmm × KMem) (hlo : vmUserLo ≤ curPos) (hw : Wraps curPos (putsChunk remain))
    (hr : (putsLoop K p buf curPos remain m).errno.isSome = true) :
    ¬ InUserRange (putsLoop K p buf curPos remain m).accesses := by
  have hlt := curPos.isLt
  have hbytes := toNat_putsChunk remain
  have hle := (putsChunk_le remain).2
  have hremain : remain ≠ 0 := by
    rintro rfl
    exact hw.1 rfl
  have hguard : passesGuards curPos buf (BitVec.ofNat 32 (putsChunk remain)) = true := by
    refine (passesGuards_buf buf ?_).mpr ⟨hlo, ?_⟩
    · rw [hbytes]
      exact Nat.le_trans hle (by decide)
    · have hsum := hw.2
      show (curPos + BitVec.ofNat 32 (putsChunk remain)).toNat ≤ 0xF0000000
      rw [BitVec.toNat_add, hbytes]
      omega
  have hw' : Wraps curPos (BitVec.ofNat 32 (putsChunk remain)).toNat := by rwa [hbytes]
  have hleaves := ptCopy_leaves (K := K) .copyin p m hguard hw'
  rw [putsLoop, dif_neg hremain] at hr ⊢
  cases hrun : (ptCopyin K p curPos buf (BitVec.ofNat 32 (putsChunk remain)) m).copied with
  | none =>
    simp only [hrun] at hr
    contradiction
  | some n =>
    have hout := hleaves (by
      show (ptCopyin K p curPos buf (BitVec.ofNat 32 (putsChunk remain)) m).copied.isSome = true
      rw [hrun]
      rfl)
    simp only [hrun]
    split
    · exact hout
    · exact fun hin => hout (inUserRange_append.mp hin).1

/-- A path wraps: its address is at most 128 bytes below the end of the address space. -/
def PathWraps (a : PathArg) : Prop := Wraps a.uva 128

theorem pathWraps_guards {a : PathArg} (h : PathWraps a) :
    passesGuards a.uva a.path 128 = true := by
  have hlt := a.uva.isLt
  have hsum := h.2
  refine (passesGuards_buf a.path (by decide)).mpr ⟨?_, ?_⟩
  · show 0x40000000 ≤ a.uva.toNat
    omega
  · show (a.uva + 128).toNat ≤ 0xF0000000
    rw [BitVec.toNat_add]
    show (a.uva.toNat + 128) % 2 ^ 32 ≤ 0xF0000000
    omega

theorem copyPaths_inRange (p : Pid) (args : List PathArg) (m : Vmm × KMem)
    (hw : ∀ a ∈ args, ¬ PathWraps a) : InUserRange (copyPaths K p args m).accesses := by
  induction args generalizing m with
  | nil =>
    intro w hw
    contradiction
  | cons a args ih =>
    have hfirst : InUserRange (ptCopyin K p a.uva a.path 128 m).accesses :=
      ptCopy_inRange .copyin p m (hw a List.mem_cons_self)
    unfold copyPaths
    dsimp only
    split
    · exact hfirst
    · exact inUserRange_append.mpr
        ⟨hfirst, ih _ fun b hb => hw b (List.mem_cons_of_mem _ hb)⟩

theorem copyPaths_leaves (p : Pid) (args : List PathArg) (m : Vmm × KMem) {a : PathArg}
    (ha : a ∈ args) (hw : PathWraps a) (hr : (copyPaths K p args m).copied.isSome = true) :
    ¬ InUserRange (copyPaths K p args m).accesses := by
  induction args generalizing m with
  | nil => contradiction
  | cons b args ih =>
    unfold copyPaths at hr ⊢
    cases hrun : (ptCopyin K p b.uva b.path 128 m).copied with
    | none =>
      simp only [hrun] at hr
      contradiction
    | some n =>
      simp only [hrun] at hr ⊢
      intro hin
      obtain ⟨hfirst, hrest⟩ := inUserRange_append.mp hin
      rcases List.mem_cons.mp ha with rfl | ha
      · refine ptCopy_leaves .copyin p m (pathWraps_guards hw) hw ?_ hfirst
        show (ptCopyin K p a.uva a.path 128 m).copied.isSome = true
        rw [hrun]
        rfl
      · exact ih _ ha hr hrest

/-! ## 5. Copies return -/

theorem Vmm.mapPage_returns {s : Vmm} {p : Pid} (hl : s.pmm.locked p = false) (va : BitVec 32)
    (page : Nat) (perm : BitVec 32) :
    ∃ s' r, s.mapPage K p va page perm = some (s', r) ∧ s'.pmm.locked p = false := by
  by_cases hpde : s.getPdirEntry K p (pdeAddr va) = 0
  · obtain ⟨pmm, n, halloc, hkeep⟩ := Pmm.containerAlloc_returns hl
    have hl' : pmm.locked p = false := by rw [hkeep, hl]
    by_cases hn : n = 0
    · subst hn
      exact ⟨_, _, mapPage_noTable hpde halloc page perm, hl'⟩
    · obtain ⟨s', hs⟩ := mapPage_fresh hpde halloc hn page perm
      refine ⟨s', n, hs, ?_⟩
      rcases mapPage_pmm hs with ⟨hne, _⟩ | ⟨_, _, halloc'⟩
      · exact absurd hpde hne
      · rw [← (Prod.mk.inj (Option.some.inj (halloc.symm.trans halloc'))).1]
        exact hl'
  · unfold mapPage getPdirEntryByVa
    rw [if_neg hpde]
    exact ⟨_, _, rfl, hl⟩

theorem Vmm.allocPage_returns {s : Vmm} {p : Pid} (hl : s.pmm.locked p = false)
    (va perm : BitVec 32) :
    ∃ s' r, s.allocPage K p va perm = some (s', r) ∧ s'.pmm.locked p = false := by
  obtain ⟨pmm, n, halloc, hkeep⟩ := Pmm.containerAlloc_returns hl
  have hl' : pmm.locked p = false := by rw [hkeep, hl]
  by_cases hn : n = 0
  · unfold allocPage
    rw [halloc, hn]
    exact ⟨_, _, rfl, hl'⟩
  · rw [allocPage_eq halloc hn]
    exact mapPage_returns (s := { s with pmm := pmm }) hl' va n perm

theorem memcpy_pmm (d : Direction) (size : Nat) (pa kva : BitVec 32) (m : Vmm × KMem) :
    (memcpy d size pa kva m).1.pmm = m.1.pmm := by
  induction size generalizing pa kva m with
  | zero => rfl
  | succ size ih =>
    rw [memcpy, ih]
    cases d with
    | copyin => rfl
    | copyout => rfl

theorem userEntry_cases {p : Pid} {va : BitVec 32} {s s' : Vmm} {allocs : List Nat} {pte : BitVec 32}
    (hs : userEntry K p va s = some (s', allocs, pte)) :
    (s.getPtblEntryByVa K p va &&& pteP ≠ 0 ∧ s' = s ∧ allocs = [] ∧
      pte = s'.getPtblEntryByVa K p va) ∨
    (s.getPtblEntryByVa K p va &&& pteP = 0 ∧ ∃ r,
      s.allocPage K p va (pteP ||| pteU ||| pteW) = some (s', r) ∧ allocs = [r] ∧
      pte = s'.getPtblEntryByVa K p va) := by
  unfold userEntry at hs
  dsimp only at hs
  split at hs
  case isTrue habsent =>
    obtain ⟨⟨s₁, r⟩, halloc, hr⟩ := Option.map_eq_some_iff.mp hs
    obtain ⟨rfl, rfl, rfl⟩ : s₁ = s' ∧ [r] = allocs ∧ s₁.getPtblEntryByVa K p va = pte := by
      simpa using hr
    exact Or.inr ⟨habsent, r, halloc, rfl, rfl⟩
  case isFalse hpresent =>
    obtain ⟨rfl, rfl, rfl⟩ : s = s' ∧ [] = allocs ∧ s.getPtblEntryByVa K p va = pte := by
      simpa using hs
    exact Or.inl ⟨hpresent, rfl, rfl, rfl⟩

theorem copyLoop_returns (d : Direction) (p : Pid) (uva kva : BitVec 32) (len copied : Nat)
    (m : Vmm × KMem) (hl : m.1.pmm.locked p = false) :
    (copyLoop K d p uva kva len copied m).copied = some (copied + len) := by
  have hsome : (copyLoop K d p uva kva len copied m).copied.isSome = true := by
    fun_induction copyLoop K d p uva kva len copied m with
    | case1 => rfl
    | case2 uva kva len copied m hlen hnone =>
      obtain ⟨s', r, hs, _⟩ := Vmm.allocPage_returns (K := K) hl uva (pteP ||| pteU ||| pteW)
      unfold userEntry at hnone
      rw [hs] at hnone
      dsimp only at hnone
      split at hnone <;> contradiction
    | case3 uva kva len copied m hlen s allocs pte hentry pa size m' rest ih =>
      refine ih ?_
      rw [memcpy_pmm]
      obtain ⟨s', r, hs, hl'⟩ := Vmm.allocPage_returns (K := K) hl uva (pteP ||| pteU ||| pteW)
      rcases userEntry_cases hentry with ⟨_, rfl, _⟩ | ⟨_, r, halloc, _⟩
      · exact hl
      · obtain ⟨rfl, _⟩ := Prod.mk.inj (Option.some.inj (hs.symm.trans halloc))
        exact hl'
  obtain ⟨r, hr⟩ := Option.isSome_iff_exists.mp hsome
  rw [hr, copied_copyLoop d p uva kva len copied m hr]

/-! ## 6. Every copy -/

/-- **User ranges of copies.**  A copy that got past its guards stays among the user addresses if its
range does not leave 32 bits, and only then if it returns; the same for the first string of `sys_puts`
and for the 128 bytes of every path. -/
theorem copy_user_range (K : KernelLayout) (p : Pid) (m : Vmm × KMem) :
    (∀ d uva kva len, passesGuards uva kva len = true →
      (¬ Wraps uva len.toNat → InUserRange (ptCopy K d p uva kva len m).accesses) ∧
      ((ptCopy K d p uva kva len m).copied.isSome = true →
        (InUserRange (ptCopy K d p uva kva len m).accesses ↔ ¬ Wraps uva len.toNat))) ∧
    (∀ buf strUva strLen, vmUserLo ≤ strUva ∧ strUva + strLen ≤ vmUserHi →
      (¬ Wraps strUva (putsChunk strLen.toNat) →
        InUserRange (sysPuts K p buf strUva strLen m).accesses) ∧
      ((sysPuts K p buf strUva strLen m).errno.isSome = true →
        (InUserRange (sysPuts K p buf strUva strLen m).accesses ↔
          ¬ Wraps strUva (putsChunk strLen.toNat)))) ∧
    ∀ args,
      ((∀ a ∈ args, ¬ PathWraps a) → InUserRange (copyPaths K p args m).accesses) ∧
      ((copyPaths K p args m).copied.isSome = true →
        (InUserRange (copyPaths K p args m).accesses ↔ ∀ a ∈ args, ¬ PathWraps a)) := by
  refine ⟨fun d uva kva len hg => ⟨?_, ?_⟩, fun buf strUva strLen hg => ?_, fun args => ⟨?_, ?_⟩⟩
  · exact ptCopy_inRange d p m
  · intro hr
    exact ⟨fun hin hw => ptCopy_leaves d p m hg hw hr hin, ptCopy_inRange d p m⟩
  · unfold sysPuts
    rw [if_pos hg]
    refine ⟨putsLoop_inRange p _ _ _ m, fun hr => ⟨?_, putsLoop_inRange p _ _ _ m⟩⟩
    exact fun hin hw => putsLoop_leaves p buf m hg.1 hw hr hin
  · exact copyPaths_inRange p args m
  · intro hr
    exact ⟨fun hin a ha hw => copyPaths_leaves p args m ha hw hr hin, copyPaths_inRange p args m⟩

/-- A path at `VM_USERLO`. -/
theorem copy_user_range_first :
    ∃ s, Vmm.Run Vmm.sampleLayout Pmm.twoPages [] s ∧
      InUserRange (copyPaths Vmm.sampleLayout Vmm.firstChild
        [⟨0x40000000, ⟨0x100000, by decide⟩⟩] (s, fun _ => 0)).accesses := by
  refine ⟨_, Transition.Run.start ⟨fun _ _ => 0, rfl⟩, ?_⟩
  refine ((copy_user_range Vmm.sampleLayout Vmm.firstChild (_, fun _ => 0)).2.2 _).1 ?_
  intro a ha
  rw [List.mem_singleton.mp ha]
  rintro ⟨_, hsum⟩
  exact absurd hsum (by decide)

/-- Right after boot process 1 opens a file whose path starts 64 bytes below the end of the address
space.  The 32-bit sum of that address and 128 is 64, so the guards pass, and the kernel reads the last
address there is. -/
theorem copy_path_wraps :
    ∃ s, Vmm.Run Vmm.sampleLayout Pmm.twoPages [] s ∧
      ∃ run, run = copyPath Vmm.sampleLayout Vmm.firstChild ⟨0xFFFFFFC0, ⟨0x100000, by decide⟩⟩
          (s, fun _ => 0) ∧
        run.copied.isSome = true ∧ 0xFFFFFFFF#32 ∈ touched run.accesses ∧
        ¬ 0xFFFFFFFF#32 < vmUserHi := by
  obtain ⟨s, hs⟩ : ∃ s, s = Vmm.pdirInitKern Vmm.sampleLayout Pmm.twoPages fun _ _ => 0 := ⟨_, rfl⟩
  have hl : s.pmm.locked Vmm.firstChild = false := by
    rw [hs, Vmm.pdirInitKern_pmm]
    rfl
  refine ⟨s, Transition.Run.start ⟨_, hs⟩, _, rfl, ?_⟩
  obtain ⟨run, hrun⟩ : ∃ run, run = ptCopyin Vmm.sampleLayout Vmm.firstChild 0xFFFFFFC0 0x100000 128
    (s, fun _ => 0) := ⟨_, rfl⟩
  have hloop : run = copyLoop Vmm.sampleLayout .copyin Vmm.firstChild 0xFFFFFFC0 0x100000 128 0
      (s, fun _ => 0) := hrun.trans (ptCopy_passed .copyin Vmm.firstChild (s, fun _ => 0) (by decide))
  have hcopied : run.copied = some (0 + 128) := by
    rw [hloop]
    exact copyLoop_returns .copyin Vmm.firstChild _ _ _ _ _ hl
  have hlast : 0xFFFFFFFF#32 ∈ touched run.accesses := by
    obtain ⟨n, _, htouched, hall⟩ := touched_copyLoop (K := Vmm.sampleLayout) .copyin Vmm.firstChild
      0xFFFFFFC0 0x100000 128 0 (s, fun _ => 0)
    rw [← hloop] at htouched hall
    rw [htouched, hall (by rw [hcopied]; rfl)]
    exact last_mem_addrsFrom ⟨by decide, by decide⟩
  unfold copyPath copyPaths
  dsimp only
  rw [← hrun, hcopied]
  exact ⟨rfl, by rw [touched_append]; exact List.mem_append_left _ hlast, by decide⟩

end MCertiKOS
