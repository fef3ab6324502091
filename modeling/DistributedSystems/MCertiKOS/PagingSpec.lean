import DistributedSystems.MCertiKOS.Paging

/-!
# What the operations on page structures do

Equations for single memory accesses, for the loops that fill and clear tables, and for the state
that `pdir_init_kern` leaves.
-/

namespace MCertiKOS

open Function

/-! ## 1. Entries -/

theorem pageOf_addrMask (x : BitVec 32) : pageOf (addrMask x) = pageOf x := by
  have hx : x.toNat >>> 12 < 2 ^ 20 := by
    have := x.isLt
    rw [Nat.shiftRight_eq_div_pow]
    omega
  unfold pageOf addrMask
  rw [BitVec.toNat_ushiftRight, BitVec.toNat_ushiftRight, BitVec.toNat_and,
    Nat.shiftRight_and_distrib]
  show x.toNat >>> 12 &&& (2 ^ 20 - 1) = _
  rw [Nat.and_two_pow_sub_one_eq_mod, Nat.mod_eq_of_lt hx]

theorem pageOf_entry {page : Nat} (hp : page < 2 ^ 20) {perm : BitVec 32} (hperm : perm < 4096) :
    pageOf (pageAddr page ||| perm) = page := by
  have hlt : perm.toNat < 4096 := hperm
  have hpage : (pageAddr page).toNat >>> 12 = page := by
    unfold pageAddr
    rw [BitVec.toNat_shiftLeft, BitVec.toNat_ofNat, Nat.shiftLeft_eq, Nat.shiftRight_eq_div_pow]
    omega
  have hflags : perm.toNat >>> 12 = 0 := by
    rw [Nat.shiftRight_eq_div_pow]
    omega
  unfold pageOf
  rw [BitVec.toNat_ushiftRight, BitVec.toNat_or, Nat.shiftRight_or_distrib, hpage, hflags,
    Nat.or_zero]

theorem entry_and (page : Nat) (perm : BitVec 32) {mask : BitVec 32} (hmask : mask < 4096) :
    (pageAddr page ||| perm) &&& mask = perm &&& mask := by
  apply BitVec.eq_of_getLsbD_eq
  intro i hi
  unfold pageAddr
  rw [BitVec.getLsbD_and, BitVec.getLsbD_or, BitVec.getLsbD_shiftLeft, BitVec.getLsbD_and]
  by_cases h12 : i < 12
  · simp [h12]
  · -- the mask has no bit among those of the page
    have hlt : mask.toNat < 2 ^ i := by
      have hsmall : mask.toNat < 4096 := hmask
      have hpow : 2 ^ 12 ≤ 2 ^ i := Nat.pow_le_pow_right Nat.two_pos (Nat.le_of_not_lt h12)
      exact Nat.lt_of_lt_of_le hsmall hpow
    have hbit : mask.getLsbD i = false := Nat.testBit_lt_two_pow hlt
    rw [hbit, Bool.and_false, Bool.and_false]

theorem kernelPde_pdeAddr (va : UserAddr) : kernelPde (pdeAddr va) = false := by
  have hlo := BitVec.le_def.mp va.property.1
  have hhi := BitVec.lt_def.mp va.property.2
  rw [show vmUserLo.toNat = 0x40000000 by decide] at hlo
  rw [show vmUserHi.toNat = 0xF0000000 by decide] at hhi
  have hval : (pdeAddr va).val = va.val.toNat / 2 ^ 22 := by
    show (va.val >>> 22).toNat = _
    rw [BitVec.toNat_ushiftRight, Nat.shiftRight_eq_div_pow]
  unfold kernelPde vmUserLoPde vmUserHiPde
  rw [hval, Bool.or_eq_false_iff, decide_eq_false_iff_not, decide_eq_false_iff_not]
  omega

/-! ## 2. What the containers do to the allocation table -/

namespace Pmm

variable {s s' : Pmm} {id : Pid} {page : Nat}

theorem spinlockAcquire_mem (h : s.spinlockAcquire id = some s') : s'.mem = s.mem := by
  unfold spinlockAcquire at h
  split at h
  · contradiction
  · cases h
    rfl

theorem containerAlloc_pages (h : s.containerAlloc id = some (s', page)) :
    (page = 0 ∧ s'.mem.allocatedPages = s.mem.allocatedPages) ∨
    (page ≠ 0 ∧ page ∉ s.mem.allocatedPages ∧
      s'.mem.allocatedPages = insert page s.mem.allocatedPages) := by
  obtain ⟨s₁, hacq, h⟩ := Option.bind_eq_some_iff.mp h
  have hmem := spinlockAcquire_mem hacq
  dsimp only at h
  split at h
  · obtain ⟨r, hp, h⟩ := Option.bind_eq_some_iff.mp h
    obtain ⟨rfl, rfl⟩ := Prod.mk.inj (Option.some.inj h)
    change s₁.mem.palloc = _ at hp
    rw [hmem] at hp
    rcases s.mem.palloc_spec with ⟨p, hav, hpal⟩ | ⟨_, hpal⟩
    · obtain rfl := Option.some.inj (hpal.symm.trans hp)
      refine Or.inr ⟨?_, PMem.notMem_allocatedPages hav, PMem.allocatedPages_insert hav⟩
      have hlo := p.property.1
      have hpos : 0 < userLoPi := by decide
      omega
    · obtain rfl := Option.some.inj (hpal.symm.trans hp)
      exact Or.inl ⟨rfl, rfl⟩
  · obtain ⟨rfl, rfl⟩ := Prod.mk.inj (Option.some.inj h)
    refine Or.inl ⟨rfl, ?_⟩
    show s₁.mem.allocatedPages = _
    rw [hmem]

theorem containerAlloc_mono (h : s.containerAlloc id = some (s', page)) :
    s.mem.allocatedPages ⊆ s'.mem.allocatedPages := by
  obtain ⟨_, hpages⟩ | ⟨_, _, hpages⟩ := containerAlloc_pages h
  · exact hpages.ge
  · rw [hpages]
    exact Finset.subset_insert _ _

theorem containerAlloc_fresh (h : s.containerAlloc id = some (s', page)) (hne : page ≠ 0) :
    page ∉ s.mem.allocatedPages ∧ page ∈ s'.mem.allocatedPages := by
  obtain ⟨h0, _⟩ | ⟨_, hout, hpages⟩ := containerAlloc_pages h
  · exact absurd h0 hne
  · rw [hpages]
    exact ⟨hout, Finset.mem_insert_self _ _⟩

theorem containerAlloc_ne_magicNumber (h : s.containerAlloc id = some (s', page)) (hne : page ≠ 0) :
    page ≠ magicNumber := by
  have hlt := (PMem.allocated_window (containerAlloc_fresh h hne).2).2
  have hdef : userHiPi = 983040 := by decide
  unfold magicNumber
  omega

theorem containerFree_pages (h : s.containerFree id page = some s') :
    s'.mem.allocatedPages = s.mem.allocatedPages.erase page := by
  obtain ⟨s₁, hacq, h⟩ := Option.bind_eq_some_iff.mp h
  have hmem := spinlockAcquire_mem hacq
  split at h
  · have hs' : s'.mem = s₁.mem.pfree page := by
      rw [← Option.some.inj h]
      split <;> rfl
    rw [hs', PMem.allocatedPages_pfree, hmem]
  · rename_i hna
    obtain rfl := Option.some.inj h
    show s₁.mem.allocatedPages = _
    rw [hmem] at hna ⊢
    refine (Finset.erase_eq_of_notMem fun hin => hna ?_).symm
    exact (PMem.mem_allocatedPages.mp hin).2

theorem containerSplit_pages {quota : BitVec 32} {r : Option Pid}
    (h : s.containerSplit id quota = some (s', r)) :
    s'.mem.allocatedPages = s.mem.allocatedPages := by
  obtain ⟨s₁, hacq, h⟩ := Option.bind_eq_some_iff.mp h
  have hmem := spinlockAcquire_mem hacq
  dsimp only at h
  split at h
  · obtain ⟨rfl, _⟩ := Prod.mk.inj (Option.some.inj h)
    show s₁.mem.allocatedPages = _
    rw [hmem]
  · obtain ⟨rfl, _⟩ := Prod.mk.inj (Option.some.inj h)
    rw [hmem]

end Pmm

/-! ## 3. Memory accesses -/

namespace KernelLayout

variable (K : KernelLayout)

theorem pdirPage_lt (p : Pid) : K.pdirPage p < userLoPi := by
  have := K.pdirPool_le
  have := p.isLt
  unfold pdirPage
  omega

theorem idptblPage_lt (i : PtIndex) : K.idptblPage i < userLoPi := by
  have := K.idptbl_le
  have := i.isLt
  unfold idptblPage
  omega

theorem pdirPage_ne_idptblPage (p : Pid) (i : PtIndex) : K.pdirPage p ≠ K.idptblPage i := by
  have := K.disjoint
  have := p.isLt
  have := i.isLt
  unfold pdirPage idptblPage
  omega

theorem pdirPage_inj {p q : Pid} (h : K.pdirPage p = K.pdirPage q) : p = q := by
  unfold pdirPage at h
  exact Fin.ext (by omega)

theorem idptblPage_inj {i j : PtIndex} (h : K.idptblPage i = K.idptblPage j) : i = j := by
  unfold idptblPage at h
  exact Fin.ext (by omega)

end KernelLayout

namespace Vmm

theorem write_phys (s : Vmm) (page : Nat) (i : PtIndex) (w : BitVec 32) (n : Nat) (j : PtIndex) :
    (s.write page i w).phys n j = if n = page ∧ j = i then w else s.phys n j := by
  show update s.phys page (update (s.phys page) i w) n j = _
  rcases eq_or_ne n page with rfl | hn
  · rw [update_self]
    rcases eq_or_ne j i with rfl | hj
    · rw [update_self, if_pos ⟨rfl, rfl⟩]
    · rw [update_of_ne hj, if_neg fun h => hj h.2]
  · rw [update_of_ne hn, if_neg fun h => hn h.1]

variable {n : Nat}

theorem write_phys_of_ne (s : Vmm) {page : Nat} (h : n ≠ page) (i j : PtIndex) (w : BitVec 32) :
    (s.write page i w).phys n j = s.phys n j := by
  rw [write_phys, if_neg fun hc => h hc.1]

variable {K : KernelLayout}

theorem ptblPage_eq (s : Vmm) (p : Pid) (i : PtIndex) :
    s.ptblPage K p i = pageOf (s.getPdirEntry K p i) := pageOf_addrMask _

variable {p : Pid} {page : Nat} {s s' : Vmm} {va : BitVec 32} {pmm : Pmm}

theorem getPdirEntry_write (s : Vmm) (h : userLoPi ≤ page) (j : PtIndex) (w : BitVec 32) (p : Pid)
    (i : PtIndex) : (s.write page j w).getPdirEntry K p i = s.getPdirEntry K p i := by
  have hlt := K.pdirPage_lt p
  exact s.write_phys_of_ne (by omega) j i w

theorem ptblPage_write (s : Vmm) (h : userLoPi ≤ page) (j : PtIndex) (w : BitVec 32) (p : Pid)
    (i : PtIndex) : (s.write page j w).ptblPage K p i = s.ptblPage K p i := by
  unfold ptblPage
  rw [s.getPdirEntry_write h]

theorem getPdirEntry_writePdir (s : Vmm) (p q : Pid) (i k : PtIndex) (w : BitVec 32) :
    (s.write (K.pdirPage p) i w).getPdirEntry K q k =
      if q = p ∧ k = i then w else s.getPdirEntry K q k := by
  unfold getPdirEntry
  rw [write_phys]
  by_cases hc : q = p ∧ k = i
  · rw [if_pos hc, if_pos ⟨by rw [hc.1], hc.2⟩]
  · rw [if_neg hc, if_neg fun hc' => hc ⟨K.pdirPage_inj hc'.1, hc'.2⟩]

def zeroPage (s : Vmm) (page : Nat) : Vmm :=
  { s with phys := update s.phys page fun _ => 0 }

theorem zeroPage_phys_of_ne (s : Vmm) (h : n ≠ page) (j : PtIndex) :
    (s.zeroPage page).phys n j = s.phys n j := by
  show update s.phys page (fun _ => 0) n j = _
  rw [update_of_ne h]

theorem zeroPage_phys (s : Vmm) (page : Nat) (j : PtIndex) : (s.zeroPage page).phys page j = 0 := by
  show update s.phys page (fun _ => 0) page j = _
  rw [update_self]

theorem clearPtbl (s : Vmm) {i : PtIndex} (hwin : userLoPi ≤ s.ptblPage K p i) :
    (List.finRange 1024).foldl (fun s j => s.rmvPtblEntry K p i j) s =
      s.zeroPage (s.ptblPage K p i) := by
  have hgen : ∀ (l : List PtIndex) (s₀ : Vmm), s₀.ptblPage K p i = s.ptblPage K p i →
      l.foldl (fun s j => s.rmvPtblEntry K p i j) s₀ =
        { s₀ with
          phys := fun n j => if n = s.ptblPage K p i ∧ j ∈ l then 0 else s₀.phys n j } := by
    intro l
    induction l with
    | nil =>
      intro s₀ _
      simp
    | cons j l ih =>
      intro s₀ hs₀
      have hstep : (s₀.rmvPtblEntry K p i j).ptblPage K p i = s.ptblPage K p i := by
        unfold rmvPtblEntry
        rw [ptblPage_write s₀ (by rw [hs₀]; exact hwin), hs₀]
      rw [List.foldl_cons, ih _ hstep]
      congr 1
      funext n k
      rw [rmvPtblEntry, hs₀, write_phys]
      by_cases hn : n = s.ptblPage K p i
      · by_cases hj : k = j
        · simp [hn, hj]
        · simp [hn, hj]
      · simp [hn]
  rw [hgen _ s rfl, zeroPage]
  congr 1
  funext n j
  rcases eq_or_ne n (s.ptblPage K p i) with rfl | hn
  · rw [update_self, if_pos ⟨rfl, List.mem_finRange j⟩]
  · rw [update_of_ne hn, if_neg fun h => hn h.1]

/-! ## 4. Tables and mappings -/

theorem allocPtbl_eq (hs : s.allocPtbl K p va = some (s', page)) :
    ∃ pmm, s.pmm.containerAlloc p = some (pmm, page) ∧
      ((page = 0 ∧ s' = { s with pmm := pmm }) ∨
        (page ≠ 0 ∧ s' = (({ s with pmm := pmm } : Vmm).zeroPage page).setPdirEntry K p
          (pdeAddr va) page)) := by
  obtain ⟨⟨pmm, n⟩, halloc, hs⟩ := Option.bind_eq_some_iff.mp hs
  dsimp only at hs
  split at hs
  · rename_i hn
    obtain ⟨rfl, rfl⟩ := Prod.mk.inj (Option.some.inj hs)
    exact ⟨pmm, by rw [halloc, hn], Or.inl ⟨rfl, rfl⟩⟩
  · rename_i hn
    obtain ⟨hs', rfl⟩ := Prod.mk.inj (Option.some.inj hs)
    refine ⟨pmm, halloc, Or.inr ⟨hn, ?_⟩⟩
    have hwin := PMem.allocated_window (Pmm.containerAlloc_fresh halloc hn).2
    have hdef : userHiPi = 983040 := by decide
    -- the loop reads the entry that was just set
    have hpt : (Vmm.setPdirEntry K ⟨pmm, s.phys⟩ p (pdeAddr va) n).ptblPage K p (pdeAddr va) = n := by
      rw [ptblPage_eq, setPdirEntry, getPdirEntry_writePdir, if_pos ⟨rfl, rfl⟩]
      exact pageOf_entry (by omega) (by decide)
    rw [setPdirEntryByVa, clearPtbl _ (by rw [hpt]; exact hwin.1), hpt] at hs'
    have hlt := K.pdirPage_lt p
    have hne : K.pdirPage p ≠ n := by omega
    rw [← hs']
    unfold setPdirEntry write Vmm.zeroPage
    dsimp only
    rw [update_comm hne, update_of_ne hne]

theorem mapPage_cases {perm : BitVec 32} {r : Nat} (hs : s.mapPage K p va page perm = some (s', r)) :
    (s.getPdirEntry K p (pdeAddr va) = 0 ∧ s.allocPtbl K p va = some (s', 0) ∧ r = magicNumber) ∨
    (s.getPdirEntry K p (pdeAddr va) = 0 ∧ r ≠ 0 ∧ ∃ s₁, s.allocPtbl K p va = some (s₁, r) ∧
      s' = s₁.setPtblEntryByVa K p va page perm) ∨
    (s.getPdirEntry K p (pdeAddr va) ≠ 0 ∧ r = pageOf (s.getPdirEntry K p (pdeAddr va)) ∧
      s' = s.setPtblEntryByVa K p va page perm) := by
  unfold mapPage at hs
  dsimp only at hs
  split at hs
  case isTrue hpde =>
    obtain ⟨⟨s₁, n⟩, halloc, hs⟩ := Option.bind_eq_some_iff.mp hs
    dsimp only at hs
    split at hs
    case isTrue hn =>
      obtain ⟨rfl, rfl⟩ := Prod.mk.inj (Option.some.inj hs)
      exact Or.inl ⟨hpde, by rw [halloc, hn], rfl⟩
    case isFalse hn =>
      obtain ⟨rfl, rfl⟩ := Prod.mk.inj (Option.some.inj hs)
      exact Or.inr (Or.inl ⟨hpde, hn, s₁, halloc, rfl⟩)
  case isFalse hpde =>
    obtain ⟨rfl, rfl⟩ := Prod.mk.inj (Option.some.inj hs)
    exact Or.inr (Or.inr ⟨hpde, rfl, rfl⟩)

theorem mapPage_pmm {perm : BitVec 32} {r : Nat} (hs : s.mapPage K p va page perm = some (s', r)) :
    (s.getPdirEntry K p (pdeAddr va) ≠ 0 ∧ s'.pmm = s.pmm) ∨
    (s.getPdirEntry K p (pdeAddr va) = 0 ∧ ∃ n, s.pmm.containerAlloc p = some (s'.pmm, n)) := by
  have hpmm : ∀ {s₁ : Vmm} {n : Nat}, s.allocPtbl K p va = some (s₁, n) →
      s.pmm.containerAlloc p = some (s₁.pmm, n) := by
    intro s₁ n halloc
    obtain ⟨pmm, hpages, ⟨_, rfl⟩ | ⟨_, rfl⟩⟩ := allocPtbl_eq halloc
    · exact hpages
    · exact hpages
  rcases mapPage_cases hs with ⟨hpde, halloc, _⟩ | ⟨hpde, _, s₁, halloc, rfl⟩ | ⟨hpde, _, rfl⟩
  · exact Or.inr ⟨hpde, 0, hpmm halloc⟩
  · have hpages := hpmm halloc
    exact Or.inr ⟨hpde, r, hpages⟩
  · exact Or.inl ⟨hpde, rfl⟩

theorem mapPage_fresh (hpde : s.getPdirEntry K p (pdeAddr va) = 0)
    (halloc : s.pmm.containerAlloc p = some (pmm, n)) (hn : n ≠ 0) (page : Nat) (perm : BitVec 32) :
    ∃ s', s.mapPage K p va page perm = some (s', n) := by
  obtain ⟨s₁, hs₁⟩ : ∃ s₁, s.allocPtbl K p va = some (s₁, n) := by
    unfold allocPtbl
    rw [halloc]
    exact ⟨_, if_neg hn⟩
  unfold mapPage getPdirEntryByVa
  rw [hs₁]
  exact ⟨_, (if_pos hpde).trans (if_neg hn)⟩

theorem mapPage_noTable (hpde : s.getPdirEntry K p (pdeAddr va) = 0)
    (halloc : s.pmm.containerAlloc p = some (pmm, 0)) (page : Nat) (perm : BitVec 32) :
    s.mapPage K p va page perm = some ({ s with pmm := pmm }, magicNumber) := by
  have hptbl : s.allocPtbl K p va = some ({ s with pmm := pmm }, 0) := by
    unfold allocPtbl
    rw [halloc]
    rfl
  unfold mapPage getPdirEntryByVa
  rw [hptbl]
  exact (if_pos hpde).trans rfl

theorem allocPage_eq (halloc : s.pmm.containerAlloc p = some (pmm, n)) (hn : n ≠ 0)
    (va perm : BitVec 32) :
    s.allocPage K p va perm = ({ s with pmm := pmm } : Vmm).mapPage K p va n perm := by
  unfold allocPage
  rw [halloc]
  exact if_pos hn

/-! ## 5. The state after boot -/

def identityPte (i j : PtIndex) : BitVec 32 :=
  (BitVec.ofNat 32 i.val <<< 22 ||| BitVec.ofNat 32 j.val <<< 12) |||
    if kernelPde i then pteP ||| pteW ||| pteG else pteP ||| pteW

def initialPde (K : KernelLayout) (i : PtIndex) : BitVec 32 :=
  if kernelPde i then identityPde K i else 0

theorem initialPde_write (s : Vmm) (p : Pid) (i : PtIndex) :
    (if kernelPde i then s.setPdirEntryIdentity K p i else s.rmvPdirEntry K p i) =
      s.write (K.pdirPage p) i (initialPde K i) := by
  unfold setPdirEntryIdentity rmvPdirEntry initialPde
  split <;> rfl

theorem idptblInit_identity (mmap : List MemRange) (phys : Phys) (i j : PtIndex) :
    (idptblInit K mmap phys).phys (K.idptblPage i) j = identityPte i j := by
  have hkeep : ∀ (s : Vmm) (a b k l : PtIndex), s.phys (K.idptblPage k) l = identityPte k l →
      (s.write (K.idptblPage a) b (identityPte a b)).phys (K.idptblPage k) l = identityPte k l := by
    intro s a b k l hs
    rw [write_phys]
    split
    · rename_i hc
      rw [K.idptblPage_inj hc.1, hc.2]
    · exact hs
  have hloop : idptblInit K mmap phys =
      (List.finRange 1024).foldl (fun s a => (List.finRange 1024).foldl
        (fun s b => s.write (K.idptblPage a) b (identityPte a b)) s) ⟨containerInit mmap, phys⟩ := rfl
  have hall : ∀ k : PtIndex, k ∈ List.finRange 1024 := List.mem_finRange
  rw [hloop]
  generalize List.finRange 1024 = l at hall ⊢
  refine Loops.foldl_establishes
    (G := fun i (s : Vmm) => ∀ j, s.phys (K.idptblPage i) j = identityPte i j) ?_ ?_
    l _ i (hall i) j
  · intro s a b
    -- one row: iteration `b` sets its own entry
    refine Loops.foldl_establishes
      (G := fun b (s : Vmm) => s.phys (K.idptblPage a) b = identityPte a b) ?_ ?_
      l s b (hall b)
    · intro s b
      exact (s.write_phys _ _ _ _ _).trans (if_pos ⟨rfl, rfl⟩)
    · intro s b m hs
      exact hkeep s a b a m hs
  · intro s a k hs m
    refine Loops.foldl_keeps (I := fun s : Vmm => s.phys (K.idptblPage k) m = identityPte k m) ?_
      l s (hs m)
    intro s b hs
    exact hkeep s a b k m hs

theorem pdirInit_entry (mmap : List MemRange) (phys : Phys) (p : Pid) (i : PtIndex) :
    (pdirInit K mmap phys).getPdirEntry K p i = initialPde K i := by
  have hkeep : ∀ (s : Vmm) (q : Pid) (k : PtIndex) (p : Pid) (i : PtIndex),
      s.getPdirEntry K p i = initialPde K i →
      (s.write (K.pdirPage q) k (initialPde K k)).getPdirEntry K p i = initialPde K i := by
    intro s q k p i hs
    rw [getPdirEntry_writePdir]
    split
    · rename_i hc
      rw [hc.2]
    · exact hs
  unfold pdirInit
  simp only [initialPde_write]
  refine Loops.foldl_establishes
    (G := fun p (s : Vmm) => ∀ i, s.getPdirEntry K p i = initialPde K i) ?_ ?_
    (List.finRange numIds) _ p (List.mem_finRange p) i
  · intro s q k
    refine Loops.foldl_establishes
      (G := fun k (s : Vmm) => s.getPdirEntry K q k = initialPde K k) ?_ ?_
      (List.finRange 1024) s k (List.mem_finRange k)
    · intro s k
      rw [getPdirEntry_writePdir, if_pos ⟨rfl, rfl⟩]
    · intro s k l hs
      exact hkeep s q k q l hs
  · intro s q p hs i
    refine Loops.foldl_keeps (I := fun s : Vmm => s.getPdirEntry K p i = initialPde K i) ?_
      (List.finRange 1024) s (hs i)
    intro s k hs
    exact hkeep s q k p i hs

theorem pdirInitKern_identity (mmap : List MemRange) (phys : Phys) (i j : PtIndex) :
    (pdirInitKern K mmap phys).phys (K.idptblPage i) j = identityPte i j := by
  have hkeep : ∀ (s : Vmm) (q : Pid) (k : PtIndex) (w : BitVec 32),
      s.phys (K.idptblPage i) j = identityPte i j →
      (s.write (K.pdirPage q) k w).phys (K.idptblPage i) j = identityPte i j := by
    intro s q k w hs
    rw [s.write_phys_of_ne (K.pdirPage_ne_idptblPage q i).symm]
    exact hs
  unfold pdirInitKern
  generalize (List.finRange 1024).filter (fun i => !kernelPde i) = l
  refine Loops.foldl_keeps (I := fun s : Vmm => s.phys (K.idptblPage i) j = identityPte i j)
    (fun s k hs => hkeep s rootPid k _ hs) _ _ ?_
  unfold pdirInit
  simp only [initialPde_write]
  generalize List.finRange 1024 = l
  refine Loops.foldl_keeps (I := fun s : Vmm => s.phys (K.idptblPage i) j = identityPte i j)
    (fun s q hs => ?_) _ _ (idptblInit_identity mmap phys i j)
  exact Loops.foldl_keeps (I := fun s : Vmm => s.phys (K.idptblPage i) j = identityPte i j)
    (fun s k hs => hkeep s q k _ hs) _ _ hs

theorem pdirInitKern_entry (mmap : List MemRange) (phys : Phys) {i : PtIndex}
    (h : p ≠ rootPid ∨ kernelPde i = true) :
    (pdirInitKern K mmap phys).getPdirEntry K p i = initialPde K i := by
  refine Loops.foldl_keeps (I := fun s : Vmm => s.getPdirEntry K p i = initialPde K i) ?_ _ _
    (pdirInit_entry mmap phys p i)
  intro s k hs
  unfold setPdirEntryIdentity
  rw [getPdirEntry_writePdir]
  split
  · rename_i hc
    have hi : kernelPde i = true := h.resolve_left fun hne => hne hc.1
    unfold initialPde
    rw [if_pos hi, hc.2]
  · exact hs

theorem pdirInitKern_root (mmap : List MemRange) (phys : Phys) (i : PtIndex) :
    (pdirInitKern K mmap phys).getPdirEntry K rootPid i = identityPde K i := by
  by_cases hi : kernelPde i = true
  · rw [pdirInitKern_entry mmap phys (Or.inr hi), initialPde, if_pos hi]
  · apply Loops.foldl_establishes
      (G := fun k (s : Vmm) => s.getPdirEntry K rootPid k = identityPde K k)
    · intro s k
      rw [setPdirEntryIdentity, getPdirEntry_writePdir, if_pos ⟨rfl, rfl⟩]
    · intro s k l hs
      rw [setPdirEntryIdentity, getPdirEntry_writePdir]
      split
      case isTrue hc => rw [hc.2]
      case isFalse => exact hs
    · apply List.mem_filter.mpr
      exact ⟨List.mem_finRange i, by simpa using hi⟩

theorem foldl_pmm {ι : Type} {f : Vmm → ι → Vmm} (hf : ∀ s i, (f s i).pmm = s.pmm) (l : List ι)
    (s : Vmm) : (l.foldl f s).pmm = s.pmm :=
  Loops.foldl_keeps (I := fun x => x.pmm = s.pmm) (fun x i hx => (hf x i).trans hx) l s rfl

theorem pdirInitKern_pmm (mmap : List MemRange) (phys : Phys) :
    (pdirInitKern K mmap phys).pmm = containerInit mmap := by
  unfold pdirInitKern pdirInit idptblInit
  simp only [initialPde_write]
  generalize (List.finRange 1024).filter (fun i => !kernelPde i) = l
  generalize List.finRange 1024 = m
  rw [foldl_pmm (f := fun s i => s.setPdirEntryIdentity K rootPid i) fun _ _ => rfl,
    foldl_pmm fun s p => foldl_pmm (f := fun s i => s.write (K.pdirPage p) i (initialPde K i))
      (fun _ _ => rfl) m s,
    foldl_pmm fun s i => foldl_pmm (f := fun s j => s.setPtblEntryIdentity K i j
      (if kernelPde i then pteP ||| pteW ||| pteG else pteP ||| pteW)) (fun _ _ => rfl) m s]

end Vmm

end MCertiKOS
