import DistributedSystems.MCertiKOS.Isolation

/-!
# Page mappings as a finite map (`map_page`, `unmap_page`, `alloc_page`)

What `get_ptbl_entry_by_va` returns is a map from pairs of a process and a page address to entries.
In an isolated state `map_page` and `unmap_page` change one value of this map, also when a page table
has to be made for it.  `alloc_page` takes a page before it maps it, and keeps it when the mapping
fails.
-/

namespace MCertiKOS

/-! ## 1. Page addresses -/

def SamePage (va w : BitVec 32) : Prop := va >>> 12 = w >>> 12

instance (va w : BitVec 32) : Decidable (SamePage va w) := inferInstanceAs (Decidable (_ = _))

theorem pdeAddr_val (va : BitVec 32) : (pdeAddr va).val = va.toNat / 2 ^ 22 := by
  show (va >>> 22).toNat = _
  rw [BitVec.toNat_ushiftRight, Nat.shiftRight_eq_div_pow]

theorem pteAddr_val (va : BitVec 32) : (pteAddr va).val = va.toNat / 2 ^ 12 % 2 ^ 10 := by
  show ((va >>> 12) &&& 0x3ff).toNat = _
  rw [BitVec.toNat_and, BitVec.toNat_ushiftRight, Nat.shiftRight_eq_div_pow]
  exact Nat.and_two_pow_sub_one_eq_mod _ 10

theorem samePage_iff (va w : BitVec 32) : SamePage va w ↔ va.toNat / 2 ^ 12 = w.toNat / 2 ^ 12 := by
  unfold SamePage
  rw [BitVec.toNat_eq, BitVec.toNat_ushiftRight, BitVec.toNat_ushiftRight,
    Nat.shiftRight_eq_div_pow, Nat.shiftRight_eq_div_pow]

theorem samePage_iff_indices (va w : BitVec 32) :
    SamePage va w ↔ pdeAddr va = pdeAddr w ∧ pteAddr va = pteAddr w := by
  rw [samePage_iff, Fin.ext_iff, Fin.ext_iff, pdeAddr_val, pdeAddr_val, pteAddr_val, pteAddr_val]
  omega

namespace Vmm

variable {K : KernelLayout} {s s' : Vmm}

/-! ## 2. Writes to tables -/

theorem AddressSpaceIsolation.isolated (h : s.AddressSpaceIsolation K) : s.Isolated K where
  exclusive := by
    constructor
    · intro u u' n hu hu'
      cases u with
      | table p i =>
        cases u' with
        | table q k =>
          obtain ⟨rfl, rfl⟩ := h.table_once p i q k hu.1 hu'.1 (hu.2.trans hu'.2.symm)
          rfl
        | data q k l =>
          exact absurd (hu.2.trans hu'.2.2.symm) (h.table_not_data p i q k l hu.1 ⟨hu'.1, hu'.2.1⟩)
      | data p i j =>
        cases u' with
        | table q k =>
          exact absurd (hu'.2.trans hu.2.2.symm) (h.table_not_data q k p i j hu'.1 ⟨hu.1, hu.2.1⟩)
        | data q k l =>
          obtain ⟨rfl, rfl, rfl⟩ := h.data_once p i j q k l ⟨hu.1, hu.2.1⟩ ⟨hu'.1, hu'.2.1⟩
            (hu.2.2.trans hu'.2.2.symm)
          rfl
    · intro u n hu
      cases u with
      | table p i =>
        rw [← hu.2]
        exact PMem.mem_allocatedPages.mpr (h.table_allocated p i hu.1).symm
      | data p i j =>
        rw [← hu.2.2]
        exact PMem.mem_allocatedPages.mpr (h.data_allocated p i j ⟨hu.1, hu.2.1⟩).symm
  kernel_pde := h.kernel_identity
  identity_map := h.identity_intact

theorem identityPde_page (K : KernelLayout) (i : PtIndex) :
    pageOf (identityPde K i) = K.idptblPage i := by
  have hlt := K.idptblPage_lt i
  have hdef : userLoPi = 0x40000 := rfl
  exact pageOf_entry (by omega) (by decide)

/-- The entry of process 0 for an address is the one `pdir_init_kern` made.  For the other processes
this says nothing. -/
def RootMapped (K : KernelLayout) (s : Vmm) (q : Pid) (w : BitVec 32) : Prop :=
  q = rootPid → s.getPdirEntry K q (pdeAddr w) = identityPde K (pdeAddr w)

variable {q : Pid} {w : BitVec 32} {p : UserPid} {va : UserAddr} {n : Nat} {page r : Nat}

theorem Isolated.table_cases (h : s.Isolated K) (hq : RootMapped K s q w)
    (hpde : s.getPdirEntry K q (pdeAddr w) ≠ 0) :
    s.ptblPage K q (pdeAddr w) = K.idptblPage (pdeAddr w) ∨
      ∃ hu : q ≠ rootPid, s.HasTable K (⟨q, hu⟩ : UserPid) (pdeAddr w) := by
  by_cases hkernel : kernelPde (pdeAddr w) = true
  · left
    rw [ptblPage_eq, h.kernel_pde q _ hkernel, identityPde_page]
  · by_cases hroot : q = rootPid
    · left
      rw [ptblPage_eq, hq hroot, identityPde_page]
    · exact Or.inr ⟨hroot, Bool.not_eq_true _ ▸ hkernel, hpde⟩

theorem Isolated.getPtblEntryByVa_write (h : s.Isolated K) (ht : s.HasTable K p (pdeAddr va))
    (x : BitVec 32) (hq : RootMapped K s q w) :
    (s.write (s.ptblPage K p (pdeAddr va)) (pteAddr va) x).getPtblEntryByVa K q w =
      if q = p ∧ SamePage w va then x else s.getPtblEntryByVa K q w := by
  have hwin := (PMem.allocated_window (h.table_allocated ht)).1
  unfold getPtblEntryByVa
  rw [s.getPdirEntry_write hwin]
  by_cases hpde : s.getPdirEntry K q (pdeAddr w) = 0
  · -- no table: the page is not the one that was written
    have hother : ¬ (q = p ∧ SamePage w va) := by
      rintro ⟨rfl, hpage⟩
      rw [((samePage_iff_indices w va).mp hpage).1] at hpde
      exact ht.2 hpde
    rw [if_neg (not_not.mpr hpde), if_neg (not_not.mpr hpde), if_neg hother]
  · rw [if_pos hpde, if_pos hpde]
    rcases h.table_cases hq hpde with hid | ⟨hu, htq⟩
    · have hlt := K.idptblPage_lt (pdeAddr w)
      have hkeep : (s.write (s.ptblPage K p (pdeAddr va)) (pteAddr va) x).getPtblEntry K q (pdeAddr w)
          (pteAddr w) = s.getPtblEntry K q (pdeAddr w) (pteAddr w) := by
        unfold getPtblEntry
        rw [ptblPage_write s hwin, hid, s.write_phys_of_ne (by omega)]
      rw [hkeep, if_neg]
      rintro ⟨rfl, hpage⟩
      rw [((samePage_iff_indices w va).mp hpage).1] at hid hlt
      omega
    · have hentry := h.getPtblEntry_write ht htq (pteAddr va) (pteAddr w) x
      rw [hentry]
      by_cases hc : q = p ∧ SamePage w va
      · obtain ⟨hi, hj⟩ := (samePage_iff_indices w va).mp hc.2
        rw [if_pos hc, if_pos ⟨Subtype.ext hc.1, hi, hj⟩]
      · rw [if_neg hc, if_neg]
        rintro ⟨hqp, hi, hj⟩
        exact hc ⟨congrArg Subtype.val hqp, (samePage_iff_indices w va).mpr ⟨hi, hj⟩⟩

/-! ## 3. New tables -/

def withTable (K : KernelLayout) (s : Vmm) (p : Pid) (i : PtIndex) (n : Nat) : Vmm :=
  (s.zeroPage n).setPdirEntry K p i n

section WithTable

variable {p : Pid} {i : PtIndex} {n : Nat} (hlo : userLoPi ≤ n)

include hlo

theorem getPdirEntry_withTable (q : Pid) (k : PtIndex) :
    (s.withTable K p i n).getPdirEntry K q k =
      if q = p ∧ k = i then pageAddr n ||| ptPermPtu else s.getPdirEntry K q k := by
  have hlt := K.pdirPage_lt q
  have hkeep : (s.zeroPage n).getPdirEntry K q k = s.getPdirEntry K q k :=
    zeroPage_phys_of_ne _ (by omega) k
  rw [withTable, setPdirEntry, getPdirEntry_writePdir, hkeep]

theorem ptblPage_withTable (hhi : n < userHiPi) : (s.withTable K p i n).ptblPage K p i = n := by
  have hdef : userHiPi = 983040 := by decide
  rw [ptblPage_eq, getPdirEntry_withTable hlo, if_pos ⟨rfl, rfl⟩]
  exact pageOf_entry (by omega) (by decide)

theorem getPtblEntry_withTable_self (hhi : n < userHiPi) (j : PtIndex) :
    (s.withTable K p i n).getPtblEntry K p i j = 0 := by
  have hlt := K.pdirPage_lt p
  unfold getPtblEntry
  rw [ptblPage_withTable hlo hhi, withTable, setPdirEntry, write_phys_of_ne _ (by omega),
    zeroPage_phys]

theorem getPtblEntry_withTable {k : PtIndex} (hne : ¬ (q = p ∧ k = i))
    (hdir : s.ptblPage K q k ≠ K.pdirPage p) (hpage : s.ptblPage K q k ≠ n) (j : PtIndex) :
    (s.withTable K p i n).getPtblEntry K q k j = s.getPtblEntry K q k j := by
  have hsame : (s.withTable K p i n).ptblPage K q k = s.ptblPage K q k := by
    rw [ptblPage_eq, ptblPage_eq, getPdirEntry_withTable hlo, if_neg hne]
  unfold getPtblEntry
  rw [hsame, withTable, setPdirEntry, write_phys_of_ne _ hdir, zeroPage_phys_of_ne _ hpage]

end WithTable

theorem Isolated.table_ne_pdirPage (h : s.Isolated K) (hq : RootMapped K s q w)
    (hpde : s.getPdirEntry K q (pdeAddr w) ≠ 0) (p : Pid) :
    s.ptblPage K q (pdeAddr w) ≠ K.pdirPage p := by
  rcases h.table_cases hq hpde with hid | ⟨hu, ht⟩
  · rw [hid]
    exact (K.pdirPage_ne_idptblPage p _).symm
  · have hlow : userLoPi ≤ s.ptblPage K q (pdeAddr w) :=
      (PMem.allocated_window (h.table_allocated ht)).1
    have hlt := K.pdirPage_lt p
    omega

theorem Isolated.table_ne_free (h : s.Isolated K) (hq : RootMapped K s q w)
    (hpde : s.getPdirEntry K q (pdeAddr w) ≠ 0) (hlo : userLoPi ≤ n)
    (hfree : n ∉ s.pmm.mem.allocatedPages) :
    s.ptblPage K q (pdeAddr w) ≠ n := by
  rcases h.table_cases hq hpde with hid | ⟨hu, ht⟩
  · have hlt := K.idptblPage_lt (pdeAddr w)
    omega
  · have hmem : s.ptblPage K q (pdeAddr w) ∈ s.pmm.mem.allocatedPages :=
      h.table_allocated (p := ⟨q, hu⟩) ht
    intro heq
    rw [heq] at hmem
    exact hfree hmem

theorem Isolated.getPtblEntryByVa_withTable (h : s.Isolated K)
    (hpde : s.getPdirEntry K p (pdeAddr va) = 0) (hlo : userLoPi ≤ n) (hhi : n < userHiPi)
    (hfree : n ∉ s.pmm.mem.allocatedPages) (hq : RootMapped K s q w) :
    (s.withTable K p (pdeAddr va) n).getPtblEntryByVa K q w = s.getPtblEntryByVa K q w := by
  unfold getPtblEntryByVa
  rw [getPdirEntry_withTable hlo]
  by_cases hc : q = p ∧ pdeAddr w = pdeAddr va
  · obtain ⟨rfl, hi⟩ := hc
    rw [hi, getPtblEntry_withTable_self hlo hhi, ite_self, hpde]
    exact (if_neg (not_not.mpr rfl)).symm
  · rw [if_neg hc]
    by_cases hz : s.getPdirEntry K q (pdeAddr w) = 0
    · rw [if_neg (not_not.mpr hz), if_neg (not_not.mpr hz)]
    · rw [if_pos hz, if_pos hz]
      exact getPtblEntry_withTable hlo hc (h.table_ne_pdirPage hq hz p)
        (h.table_ne_free hq hz hlo hfree) _

theorem Isolated.getPtblEntryByVa_allocPtbl (h : s.Isolated K)
    (hpde : s.getPdirEntry K p (pdeAddr va) = 0) (hs : s.allocPtbl K p va = some (s', n))
    (hq : RootMapped K s q w) :
    s'.getPtblEntryByVa K q w = s.getPtblEntryByVa K q w ∧ RootMapped K s' q w := by
  obtain ⟨pmm, halloc, ⟨_, rfl⟩ | ⟨hne, hs'⟩⟩ := allocPtbl_eq hs
  · exact ⟨rfl, hq⟩
  · obtain ⟨hout, hin⟩ := Pmm.containerAlloc_fresh halloc hne
    obtain ⟨hlo, hhi⟩ := PMem.allocated_window hin
    -- the allocator's state is in neither side
    have hset : s'.phys = (s.withTable K p (pdeAddr va) n).phys := by rw [hs']; rfl
    constructor
    · rw [← h.getPtblEntryByVa_withTable hpde hlo hhi hout hq]
      simp only [getPtblEntryByVa, getPtblEntry, getPdirEntry, ptblPage_eq, hset]
    · intro hroot
      have hc : ¬ (q = (p : Pid) ∧ pdeAddr w = pdeAddr va) := fun hc =>
        p.property (hc.1.symm.trans hroot)
      have hget := getPdirEntry_withTable (K := K) (s := s) (p := p) (i := pdeAddr va) hlo q
        (pdeAddr w)
      rw [if_neg hc, hq hroot] at hget
      rw [← hget]
      simp only [getPdirEntry, hset]

/-! ## 4. The finite map -/

theorem magicNumber_ne_pageOf (x : BitVec 32) : pageOf x ≠ magicNumber := by
  have hx := x.isLt
  unfold pageOf magicNumber
  rw [BitVec.toNat_ushiftRight, Nat.shiftRight_eq_div_pow]
  omega

variable {perm : BitVec 32}

theorem Isolated.mapPage_map (h : s.Isolated K) (hs : s.mapPage K p va page perm = some (s', r))
    (hq : RootMapped K s q w) :
    s'.getPtblEntryByVa K q w = if r ≠ magicNumber ∧ q = p ∧ SamePage w va then
      pageAddr page ||| perm else s.getPtblEntryByVa K q w := by
  rcases mapPage_cases hs with ⟨hpde, halloc, rfl⟩ | ⟨hpde, hn, s₁, halloc, rfl⟩ | ⟨hpde, rfl, rfl⟩
  · rw [(h.getPtblEntryByVa_allocPtbl hpde halloc hq).1, if_neg fun hc => hc.1 rfl]
  · obtain ⟨h₁, _, htable, _⟩ := h.allocPtbl halloc
    obtain ⟨hsame, hq₁⟩ := h.getPtblEntryByVa_allocPtbl hpde halloc hq
    obtain ⟨pmm, hpages, _⟩ := allocPtbl_eq halloc
    have hmagic := Pmm.containerAlloc_ne_magicNumber hpages hn
    rw [setPtblEntryByVa, Vmm.setPtblEntry, h₁.getPtblEntryByVa_write (htable hn) _ hq₁, hsame]
    simp only [ne_eq, hmagic, not_false_eq_true, true_and]
  · rw [setPtblEntryByVa, Vmm.setPtblEntry,
      h.getPtblEntryByVa_write ⟨kernelPde_pdeAddr va, hpde⟩ _ hq]
    simp only [ne_eq, magicNumber_ne_pageOf, not_false_eq_true, true_and]

theorem Isolated.getPdirEntry_mapPage (h : s.Isolated K)
    (hs : s.mapPage K p va page perm = some (s', r)) (q : Pid) (i : PtIndex) :
    s'.getPdirEntry K q i =
      if q = p ∧ i = pdeAddr va ∧ s.getPdirEntry K p (pdeAddr va) = 0 ∧ r ≠ magicNumber then
        pageAddr r ||| ptPermPtu
      else s.getPdirEntry K q i := by
  rcases mapPage_cases hs with ⟨hpde, halloc, rfl⟩ | ⟨hpde, hn, s₁, halloc, rfl⟩ | ⟨hpde, rfl, rfl⟩
  · rw [if_neg fun hc => hc.2.2.2 rfl]
    obtain ⟨pmm, _, ⟨_, rfl⟩ | ⟨hne, _⟩⟩ := allocPtbl_eq halloc
    · rfl
    · exact absurd rfl hne
  · obtain ⟨h₁, _, htable, _⟩ := h.allocPtbl halloc
    have hwin := (PMem.allocated_window (h₁.table_allocated (htable hn))).1
    rw [setPtblEntryByVa, Vmm.setPtblEntry, getPdirEntry_write s₁ hwin]
    obtain ⟨pmm, hpages, ⟨h0, _⟩ | ⟨_, rfl⟩⟩ := allocPtbl_eq halloc
    · exact absurd h0 hn
    · have hlo := (PMem.allocated_window (Pmm.containerAlloc_fresh hpages hn).2).1
      have hmagic := Pmm.containerAlloc_ne_magicNumber hpages hn
      refine (getPdirEntry_withTable (s := { s with pmm := pmm }) hlo q i).trans ?_
      simp only [hpde, hmagic, ne_eq, not_false_eq_true, and_true]
      rfl
  · have hwin := (PMem.allocated_window (h.table_allocated ⟨kernelPde_pdeAddr va, hpde⟩)).1
    rw [setPtblEntryByVa, Vmm.setPtblEntry, getPdirEntry_write s hwin,
      if_neg fun hc => hpde hc.2.2.1]

theorem Isolated.unmapPage_map (h : s.Isolated K) (p : UserPid) (va : UserAddr)
    (hq : RootMapped K s q w) :
    (s.unmapPage K p va).1.getPtblEntryByVa K q w =
      if q = p ∧ SamePage w va then 0 else s.getPtblEntryByVa K q w := by
  unfold Vmm.unmapPage
  dsimp only
  by_cases hzero : s.getPtblEntryByVa K p va = 0
  · -- nothing is mapped, and nothing is done
    rw [if_neg (not_not.mpr hzero)]
    split
    case isTrue hc =>
      obtain ⟨rfl, hpage⟩ := hc
      obtain ⟨hi, hj⟩ := (samePage_iff_indices w va).mp hpage
      unfold getPtblEntryByVa at hzero ⊢
      rw [hi, hj]
      exact hzero
    case isFalse => rfl
  · have hpde : s.getPdirEntry K p (pdeAddr va) ≠ 0 := by
      intro hz
      exact hzero (if_neg (not_not.mpr hz))
    rw [if_pos hzero, rmvPtblEntryByVa, if_pos hpde, Vmm.rmvPtblEntry,
      h.getPtblEntryByVa_write ⟨kernelPde_pdeAddr va, hpde⟩ 0 hq]

/-- The directory of process 0 is never written. -/
theorem Isolated.rootMapped_perform (h : s.Isolated K) {a : Action}
    (hs : s.perform K a = some s') (i : PtIndex) :
    s'.getPdirEntry K rootPid i = s.getPdirEntry K rootPid i := by
  have hother : ∀ (p : UserPid) (j : PtIndex), ¬ (rootPid = (p : Pid) ∧ i = j) :=
    fun p j hc => p.property hc.1.symm
  cases a with
  | allocMemQuota id quota =>
    obtain ⟨r, _, rfl⟩ := Option.map_eq_some_iff.mp hs
    rfl
  | allocPage p va perm =>
    obtain ⟨⟨s₁, r⟩, hr, rfl⟩ := Option.map_eq_some_iff.mp hs
    obtain ⟨⟨pmm, page⟩, halloc, hr⟩ := Option.bind_eq_some_iff.mp hr
    dsimp only at hr
    split at hr
    case isTrue =>
      have hpmm := h.withPmm (Pmm.containerAlloc_mono halloc)
      rw [hpmm.getPdirEntry_mapPage hr, if_neg fun hc => p.property hc.1.symm]
      rfl
    case isFalse =>
      obtain ⟨rfl, _⟩ := Prod.mk.inj (Option.some.inj hr)
      rfl
  | unmapPage p va =>
    obtain rfl := Option.some.inj hs
    unfold Vmm.unmapPage rmvPtblEntryByVa
    dsimp only
    split
    case isTrue =>
      split
      case isTrue hpde =>
        have hwin := (PMem.allocated_window (h.table_allocated ⟨kernelPde_pdeAddr va, hpde⟩)).1
        exact s.getPdirEntry_write hwin _ _ _ _
      case isFalse => rfl
    case isFalse => rfl
  | freePtbl p va =>
    obtain ⟨pmm, _, hs⟩ := Option.bind_eq_some_iff.mp hs
    obtain rfl := Option.some.inj hs
    show (s.rmvPdirEntry K p (pdeAddr va)).getPdirEntry K rootPid i = _
    rw [rmvPdirEntry, getPdirEntry_writePdir, if_neg (hother p _)]
  | store p va w =>
    obtain ⟨page, hpage, rfl⟩ := Option.map_eq_some_iff.mp hs
    exact s.getPdirEntry_write (h.uses_window (translate_uses hpage)) _ _ _ _

theorem run_root {mmap : List MemRange} {past : List (Vmm × Action)} (hr : Run K mmap past s) :
    s.Isolated K ∧ ∀ i, s.getPdirEntry K rootPid i = identityPde K i := by
  apply Transition.Run.invariant
    (I := fun s => s.Isolated K ∧ ∀ i, s.getPdirEntry K rootPid i = identityPde K i) _ _ hr
  · rintro x ⟨phys, hx⟩
    rw [hx]
    exact ⟨Isolated.init K mmap phys, pdirInitKern_root mmap phys⟩
  · rintro x a x' ⟨hiso, hroot⟩ hs
    exact ⟨hiso.perform hs, fun i => (hiso.rootMapped_perform hs i).trans (hroot i)⟩

/-- In every state of every run the map covers all pages of all processes. -/
theorem rootMapped_run {mmap : List MemRange} {past : List (Vmm × Action)} (hr : Run K mmap past s)
    (q : Pid) (w : BitVec 32) : RootMapped K s q w := by
  intro hq
  rw [hq]
  exact (run_root hr).2 (pdeAddr w)

theorem identityPte_eq (w : BitVec 32) : ∃ perm : BitVec 32, perm < 4096 ∧ perm &&& pteP ≠ 0 ∧
    identityPte (pdeAddr w) (pteAddr w) = pageAddr (pageOf w) ||| perm := by
  refine ⟨if kernelPde (pdeAddr w) then pteP ||| pteW ||| pteG else pteP ||| pteW, ?_, ?_, ?_⟩
  · split <;> decide
  · split <;> decide
  · unfold identityPte pageAddr pageOf
    congr 1
    apply BitVec.eq_of_toNat_eq
    have hw := w.isLt
    have hor := Nat.shiftLeft_add_eq_or_of_lt
      (show w.toNat / 2 ^ 12 % 2 ^ 10 * 2 ^ 12 < 2 ^ 22 by omega) (w.toNat / 2 ^ 22)
    simp only [BitVec.toNat_or, BitVec.toNat_shiftLeft, BitVec.toNat_ofNat, pdeAddr_val, pteAddr_val,
      BitVec.toNat_ushiftRight, Nat.shiftRight_eq_div_pow, Nat.shiftLeft_eq] at hor ⊢
    rw [Nat.mod_eq_of_lt (by omega), Nat.mod_eq_of_lt (by omega), Nat.mod_eq_of_lt (by omega),
      Nat.mod_eq_of_lt (by omega), ← hor]
    omega

/-- **The kernel's view of memory.**  In every state of every run process 0 has every page at its own
address, and every process the pages at the addresses of the kernel. -/
theorem kernel_identity_map {mmap : List MemRange} {past : List (Vmm × Action)} {s : Vmm}
    (hr : Run K mmap past s) (q : Pid) (w : BitVec 32)
    (hq : q = rootPid ∨ kernelPde (pdeAddr w) = true) :
    s.translate K q w = some (pageOf w) := by
  have hiso := (run_root hr).1
  have hpde : s.getPdirEntry K q (pdeAddr w) = identityPde K (pdeAddr w) :=
    hq.elim (rootMapped_run hr q w) (hiso.kernel_pde q _)
  have hpresent : identityPde K (pdeAddr w) &&& pteP ≠ 0 := by
    unfold identityPde
    rw [entry_and _ _ (by decide)]
    decide
  obtain ⟨perm, hperm, hP, hentry⟩ := identityPte_eq w
  have hlt : pageOf w < 2 ^ 20 := by
    unfold pageOf
    rw [BitVec.toNat_ushiftRight, Nat.shiftRight_eq_div_pow]
    have := w.isLt
    omega
  unfold Vmm.translate getPdirEntryByVa
  rw [hpde, if_neg hpresent, identityPde_page, hiso.identity_map, hentry]
  dsimp only
  rw [entry_and _ _ (by decide), if_neg hP, pageOf_entry hlt hperm]

/-- After a child has mapped a page, process 0 still has the page at its own address, and the child the
kernel's pages. -/
theorem kernel_identity_map_child : ∃ past s, Run sampleLayout Pmm.twoPages past s ∧
    past.length = 2 ∧ s.PresentPte sampleLayout firstChild (pdeAddr firstAddr) (pteAddr firstAddr) ∧
    s.translate sampleLayout rootPid 0x40001234 = some 0x40001 ∧
    s.translate sampleLayout firstChild 0x00101234 = some 0x101 := by
  obtain ⟨past, s, hrun, hlen, hpresent⟩ := sample_mapped
  exact ⟨past, s, hrun, hlen, hpresent, kernel_identity_map hrun rootPid 0x40001234 (Or.inl rfl),
    kernel_identity_map hrun firstChild 0x00101234 (Or.inr (by decide))⟩

/-- **Page mappings are a finite map.**  `map_page` sets one value of it or fails and sets none;
`unmap_page` returns one value and makes it 0. -/
theorem page_mapping_refines_map (h : s.AddressSpaceIsolation K) (p : UserPid) (va : UserAddr) :
    (∀ (page : Nat) (perm : Perm) s' r, s.mapPage K p va page perm = some (s', r) →
      (r ≠ magicNumber → s'.getPtblEntryByVa K p va = pageAddr page ||| perm ∧
        ∀ q w, RootMapped K s q w → ¬ (q = p ∧ SamePage w va) →
          s'.getPtblEntryByVa K q w = s.getPtblEntryByVa K q w) ∧
      (r = magicNumber → ∀ q w, RootMapped K s q w →
        s'.getPtblEntryByVa K q w = s.getPtblEntryByVa K q w)) ∧
    (s.unmapPage K p va).2 = s.getPtblEntryByVa K p va ∧
    (s.unmapPage K p va).1.getPtblEntryByVa K p va = 0 ∧
    ∀ q w, RootMapped K s q w → ¬ (q = p ∧ SamePage w va) →
      (s.unmapPage K p va).1.getPtblEntryByVa K q w = s.getPtblEntryByVa K q w := by
  have hiso := h.isolated
  have hself : RootMapped K s p va := fun hroot => absurd hroot p.property
  refine ⟨?_, rfl, ?_, ?_⟩
  · intro page perm s' r hs
    refine ⟨fun hr => ⟨?_, ?_⟩, ?_⟩
    · rw [hiso.mapPage_map hs hself, if_pos ⟨hr, rfl, rfl⟩]
    · intro q w hq hother
      rw [hiso.mapPage_map hs hq, if_neg fun hc => hother hc.2]
    · intro hr q w hq
      rw [hiso.mapPage_map hs hq, if_neg fun hc => hc.1 hr]
  · rw [hiso.unmapPage_map p va hself, if_pos ⟨rfl, rfl⟩]
  · intro q w hq hother
    rw [hiso.unmapPage_map p va hq, if_neg hother]

/-- A child with a page maps page 5; the page it has becomes the table. -/
theorem page_mapping_refines_map_sample :
    ∃ s s' : Vmm, ∃ r, s.AddressSpaceIsolation sampleLayout ∧
      s.mapPage sampleLayout firstChild firstAddr 5 7 = some (s', r) ∧ r ≠ magicNumber ∧
      s'.getPtblEntryByVa sampleLayout firstChild firstAddr = 0x5007 := by
  obtain ⟨past, s, hrun, _, hiso, hinv, hchild, hempty⟩ := sample_child 1 (by decide)
  have hpde := hempty _ (kernelPde_pdeAddr firstAddr)
  obtain ⟨pmm, n, halloc, hn, _, _⟩ := hinv.alloc_room
    (show (s.pmm.container firstChild).used = true by rw [hchild]) (by rw [hchild]; decide)
  obtain ⟨s', hmap⟩ := mapPage_fresh (s := s) hpde halloc hn 5 7
  have hr : n ≠ magicNumber := Pmm.containerAlloc_ne_magicNumber halloc hn
  have hmapped := (page_mapping_refines_map hiso.isolation firstChild firstAddr).1 5 ⟨7, by decide⟩
    s' n hmap
  exact ⟨s, s', n, hiso.isolation, hmap, hr, (hmapped.1 hr).1⟩

/-! ## 5. `alloc_page` -/

structure Unchanged (K : KernelLayout) (s s' : Vmm) : Prop where
  usage : ∀ id, (s'.pmm.container id).usage = (s.pmm.container id).usage
  allocated : ∀ n, s'.pmm.mem.atIsAllocated n = s.pmm.mem.atIsAllocated n
  pdir : ∀ p i, s'.getPdirEntry K p i = s.getPdirEntry K p i
  ptbl : ∀ p i j, s'.getPtblEntry K p i j = s.getPtblEntry K p i j

theorem mapPage_usage {p : Pid} {va : BitVec 32} (hs : s.mapPage K p va page perm = some (s', r)) :
    (s'.pmm.container p).usage = (s.pmm.container p).usage ∨
      (s'.pmm.container p).usage = (s.pmm.container p).usage + 1 := by
  rcases mapPage_pmm hs with ⟨_, hpmm⟩ | ⟨_, n, hpages⟩
  · exact Or.inl (by rw [hpmm])
  · rcases Pmm.containerAlloc_cases hpages with ⟨_, hpmm, _⟩ | ⟨_, hcharged⟩
    · exact Or.inl (by rw [hpmm])
    · exact Or.inr (by rw [hcharged])

/-- **An `alloc_page` that fails** leaves everything as it was exactly if it fails at the quota of the
data page; behind that check the usage of the container has gone up. -/
theorem alloc_page_failed_iff {p : Pid} {va perm : BitVec 32}
    (hs : s.allocPage K p va perm = some (s', magicNumber)) :
    Unchanged K s s' ↔
      BitVec.sle ((s.pmm.container p).usage + 1) (s.pmm.container p).quota = false := by
  obtain ⟨⟨pmm, page⟩, halloc, hs⟩ := Option.bind_eq_some_iff.mp hs
  dsimp only at hs
  rcases Pmm.containerAlloc_cases halloc with ⟨hquota, rfl, rfl⟩ | ⟨hquota, hcharged⟩
  · -- refused at the first check
    rw [if_neg (by decide)] at hs
    obtain ⟨rfl, _⟩ := Prod.mk.inj (Option.some.inj hs)
    exact ⟨fun _ => hquota, fun _ => ⟨fun _ => rfl, fun _ => rfl, fun _ _ => rfl, fun _ _ _ => rfl⟩⟩
  · have husage : (s'.pmm.container p).usage = (s.pmm.container p).usage + 1 ∨
        (s'.pmm.container p).usage = (s.pmm.container p).usage + 1 + 1 := by
      have hfirst : (pmm.container p).usage = (s.pmm.container p).usage + 1 := by rw [hcharged]
      split at hs
      case isTrue =>
        rw [← hfirst]
        exact mapPage_usage hs
      case isFalse =>
        obtain ⟨rfl, _⟩ := Prod.mk.inj (Option.some.inj hs)
        exact Or.inl hfirst
    constructor
    · intro hsame
      have hold := hsame.usage p
      rcases husage with h | h
      · rw [h] at hold
        bv_omega
      · rw [h] at hold
        bv_omega
    · intro hrefused
      rw [hquota] at hrefused
      exact Bool.noConfusion hrefused

theorem sample_refused :
    ∃ past s, Run sampleLayout Pmm.twoPages past s ∧ s.Isolated sampleLayout ∧
      s.getPdirEntry sampleLayout firstChild (pdeAddr firstAddr) = 0 ∧
      BitVec.sle ((s.pmm.container firstChild).usage + 1) (s.pmm.container firstChild).quota = false ∧
      s.allocPage sampleLayout firstChild firstAddr 7 = some (s, magicNumber) := by
  obtain ⟨past, s, hrun, _, hiso, hinv, hchild, hempty⟩ := sample_child 0 (by decide)
  have hpde := hempty _ (kernelPde_pdeAddr firstAddr)
  have hquota : BitVec.sle ((s.pmm.container firstChild).usage + 1)
      (s.pmm.container firstChild).quota = false := by
    rw [hchild]
    decide
  refine ⟨past, s, hrun, hiso, hpde, hquota, ?_⟩
  unfold allocPage
  rw [Pmm.containerAlloc_refused (hinv.unlocked _) hquota]
  rfl

/-- A child without pages is refused, and nothing changes. -/
theorem alloc_page_failed_iff_refused :
    ∃ s s' : Vmm, s.allocPage sampleLayout firstChild firstAddr 7 = some (s', magicNumber) ∧
      Unchanged sampleLayout s s' := by
  obtain ⟨_, s, _, _, _, hquota, hrefused⟩ := sample_refused
  exact ⟨s, s, hrefused, (alloc_page_failed_iff hrefused).mpr hquota⟩

/-- A child with one page: the page is taken and charged, there is none left for the table, and the
call fails without giving it back. -/
theorem alloc_page_keeps_page :
    ∃ past, ∃ s s' : Vmm, Run sampleLayout Pmm.twoPages past s ∧
      s.allocPage sampleLayout firstChild firstAddr 7 = some (s', magicNumber) ∧
      (s.pmm.container firstChild).usage = 0 ∧ (s'.pmm.container firstChild).usage = 1 ∧
      s'.pmm.mem.allocatedPages.card = s.pmm.mem.allocatedPages.card + 1 := by
  obtain ⟨past, s, hrun, _, _, hinv, hchild, hempty⟩ := sample_child 1 (by decide)
  have hpde := hempty _ (kernelPde_pdeAddr firstAddr)
  obtain ⟨pmm, n, halloc, hn, hinv', hchild'⟩ := hinv.alloc_room
    (show (s.pmm.container firstChild).used = true by rw [hchild]) (by rw [hchild]; decide)
  rw [hchild] at hchild'
  have hquota : BitVec.sle ((pmm.container firstChild).usage + 1)
      (pmm.container firstChild).quota = false := by
    rw [hchild']
    decide
  have hfailed : s.allocPage sampleLayout firstChild firstAddr 7 =
      some ({ s with pmm := pmm }, magicNumber) := by
    rw [allocPage_eq halloc hn]
    have hnone := Pmm.containerAlloc_refused (hinv'.unlocked firstChild) hquota
    exact mapPage_noTable (s := { s with pmm := pmm }) hpde hnone n 7
  refine ⟨past, s, _, hrun, hfailed, by rw [hchild], by rw [hchild']; rfl, ?_⟩
  rcases Pmm.containerAlloc_pages halloc with ⟨h0, _⟩ | ⟨_, hout, hpages⟩
  · exact absurd h0 hn
  · rw [hpages, Finset.card_insert_of_notMem hout]

end Vmm

end MCertiKOS
