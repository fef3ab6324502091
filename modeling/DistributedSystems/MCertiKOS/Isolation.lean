import DistributedSystems.Library.Ownership
import DistributedSystems.MCertiKOS.PagingSpec
import DistributedSystems.MCertiKOS.Quotas

/-!
# Address spaces are isolated

A physical page is put to at most one use: it is the second-level table of one directory entry, or
the data behind one present table entry.  Pages in use are allocated, so the page allocator never
hands out one of them again; a user store only reaches a data page, so it changes no table.
-/

namespace MCertiKOS

/-! ## 1. Uses of pages -/

/-- What a page can be to a user process: the table of a directory entry, or the target of a present
table entry. -/
inductive PageUse
  | table (p : UserPid) (i : PtIndex)
  | data (p : UserPid) (i j : PtIndex)

def PageUse.pde : PageUse → UserPid × PtIndex
  | .table p i => (p, i)
  | .data p i _ => (p, i)

namespace Vmm

variable (K : KernelLayout)

def HasTable (s : Vmm) (p : Pid) (i : PtIndex) : Prop :=
  kernelPde i = false ∧ s.getPdirEntry K p i ≠ 0

def Uses (s : Vmm) : PageUse → Nat → Prop
  | .table p i, n => s.HasTable K p i ∧ s.ptblPage K p i = n
  | .data p i j, n => s.HasTable K p i ∧ s.getPtblEntry K p i j &&& pteP ≠ 0 ∧
      pageOf (s.getPtblEntry K p i j) = n

structure Isolated (s : Vmm) : Prop where
  exclusive : Ownership.Exclusive (s.Uses K) (· ∈ s.pmm.mem.allocatedPages)
  kernel_pde : ∀ p i, kernelPde i = true → s.getPdirEntry K p i = identityPde K i
  identity_map : ∀ i j, s.phys (K.idptblPage i) j = identityPte i j

variable {K}

theorem uses_of_agree {s s' : Vmm} {u : PageUse} {n : Nat}
    (hpde : s'.getPdirEntry K u.pde.1 u.pde.2 = s.getPdirEntry K u.pde.1 u.pde.2)
    (hptbl : s.HasTable K u.pde.1 u.pde.2 →
      ∀ l, s'.phys (s.ptblPage K u.pde.1 u.pde.2) l = s.phys (s.ptblPage K u.pde.1 u.pde.2) l)
    (hu : s'.Uses K u n) : s.Uses K u n := by
  have htable : s'.HasTable K u.pde.1 u.pde.2 → s.HasTable K u.pde.1 u.pde.2 := by
    unfold HasTable
    rw [hpde]
    exact id
  have hpage : s'.ptblPage K u.pde.1 u.pde.2 = s.ptblPage K u.pde.1 u.pde.2 := by
    unfold ptblPage
    rw [hpde]
  cases u with
  | table q k => exact ⟨htable hu.1, hpage.symm.trans hu.2⟩
  | data q k l =>
    have hentry : s'.getPtblEntry K q k l = s.getPtblEntry K q k l := by
      have hsame : s'.ptblPage K q k = s.ptblPage K q k := hpage
      unfold getPtblEntry
      rw [hsame]
      exact hptbl (htable hu.1) l
    have hdata := hu.2
    rw [hentry] at hdata
    exact ⟨htable hu.1, hdata⟩

variable {s : Vmm}

theorem hasTable_write {page : Nat} (hwin : userLoPi ≤ page) (j : PtIndex) (w : BitVec 32) {p : Pid}
    {i : PtIndex} : (s.write page j w).HasTable K p i ↔ s.HasTable K p i := by
  unfold HasTable
  rw [s.getPdirEntry_write hwin]

namespace Isolated

variable {s : Vmm} (h : s.Isolated K)

include h

variable {p : UserPid} {i : PtIndex} {page : Nat}

theorem table_allocated (ht : s.HasTable K p i) : s.ptblPage K p i ∈ s.pmm.mem.allocatedPages :=
  h.exclusive.backed (.table p i) _ ⟨ht, rfl⟩

theorem uses_window {u : PageUse} {n : Nat} (hu : s.Uses K u n) : userLoPi ≤ n :=
  (PMem.allocated_window (h.exclusive.backed u n hu)).1

theorem table_unique {q : UserPid} {k : PtIndex} (hp : s.HasTable K p i) (hq : s.HasTable K q k)
    (he : s.ptblPage K q k = s.ptblPage K p i) : q = p ∧ k = i := by
  have hu := h.exclusive.unique (.table q k) (.table p i) _ ⟨hq, rfl⟩ ⟨hp, he.symm⟩
  exact PageUse.table.inj hu

theorem of_write (hwin : userLoPi ≤ page) (j : PtIndex) (w : BitVec 32)
    (hex : Ownership.Exclusive ((s.write page j w).Uses K) (· ∈ s.pmm.mem.allocatedPages)) :
    (s.write page j w).Isolated K where
  exclusive := hex
  kernel_pde p i hi := by
    rw [s.getPdirEntry_write hwin]
    exact h.kernel_pde p i hi
  identity_map i k := by
    have hlt := K.idptblPage_lt i
    rw [s.write_phys_of_ne (by omega)]
    exact h.identity_map i k

/-! ## 2. Stores and table entries -/

theorem store {j : PtIndex} (hu : s.Uses K (.data p i j) page) (k : PtIndex) (w : BitVec 32) :
    (s.write page k w).Isolated K := by
  have hwin := h.uses_window hu
  refine h.of_write hwin k w (h.exclusive.shrink ?_ fun _ _ _ hx => hx)
  intro u n hn
  refine uses_of_agree (s.getPdirEntry_write hwin k w _ _) (fun ht l => ?_) hn
  -- the page is data, so it is not the table
  refine s.write_phys_of_ne (fun he => ?_) k l w
  have hsame := h.exclusive.unique (.table u.pde.1 u.pde.2) (.data p i j) page ⟨ht, he⟩ hu
  exact PageUse.noConfusion hsame

theorem getPtblEntry_write {q : UserPid} {k : PtIndex} (hp : s.HasTable K p i)
    (hq : s.HasTable K q k) (j l : PtIndex) (w : BitVec 32) :
    (s.write (s.ptblPage K p i) j w).getPtblEntry K q k l =
      if q = p ∧ k = i ∧ l = j then w else s.getPtblEntry K q k l := by
  have hwin := (PMem.allocated_window (h.table_allocated hp)).1
  unfold getPtblEntry
  rw [ptblPage_write s hwin, write_phys]
  by_cases hc : s.ptblPage K q k = s.ptblPage K p i ∧ l = j
  · obtain ⟨rfl, rfl⟩ := h.table_unique hp hq hc.1
    rw [if_pos hc, if_pos ⟨rfl, rfl, hc.2⟩]
  · rw [if_neg hc, if_neg]
    rintro ⟨rfl, rfl, hl⟩
    exact hc ⟨rfl, hl⟩

theorem uses_write (hp : s.HasTable K p i) (j : PtIndex) (w : BitVec 32) {u : PageUse} {n : Nat}
    (hu : (s.write (s.ptblPage K p i) j w).Uses K u n) :
    s.Uses K u n ∨ (u = .data p i j ∧ w &&& pteP ≠ 0 ∧ n = pageOf w) := by
  have hwin := (PMem.allocated_window (h.table_allocated hp)).1
  cases u with
  | table q k =>
    obtain ⟨ht, hpage⟩ := hu
    rw [ptblPage_write s hwin] at hpage
    exact Or.inl ⟨(hasTable_write hwin j w).mp ht, hpage⟩
  | data q k l =>
    obtain ⟨ht, hpres, hpage⟩ := hu
    have hq := (hasTable_write hwin j w).mp ht
    rw [h.getPtblEntry_write hp hq] at hpres hpage
    split at hpres
    · rename_i hc
      rw [if_pos hc] at hpage
      obtain ⟨rfl, rfl, rfl⟩ := hc
      exact Or.inr ⟨rfl, hpres, hpage.symm⟩
    · rename_i hc
      rw [if_neg hc] at hpage
      exact Or.inl ⟨hq, hpres, hpage⟩

theorem rmvPtblEntry (hp : s.HasTable K p i) (j : PtIndex) :
    (s.rmvPtblEntry K p i j).Isolated K := by
  have hwin := (PMem.allocated_window (h.table_allocated hp)).1
  refine h.of_write hwin j 0 (h.exclusive.shrink ?_ fun _ _ _ hx => hx)
  intro u n hu
  rcases h.uses_write hp j 0 hu with hold | ⟨_, hpres, _⟩
  · exact hold
  · exact absurd (BitVec.zero_and) hpres

theorem setPtblEntry (hp : s.HasTable K p i) (j : PtIndex) (hpage : page ∈ s.pmm.mem.allocatedPages)
    (hfree : ∀ u, ¬ s.Uses K u page) (perm : Perm) :
    (s.setPtblEntry K p i j page perm).Isolated K := by
  have hwin := (PMem.allocated_window (h.table_allocated hp)).1
  have hlt : page < 2 ^ 20 := by
    have hhi := (PMem.allocated_window hpage).2
    have hdef : userHiPi = 983040 := by decide
    omega
  refine h.of_write hwin j _ (h.exclusive.add (.data p i j) hfree hpage ?_)
  intro u n hu
  rcases h.uses_write hp j _ hu with hold | ⟨rfl, _, rfl⟩
  · exact Or.inl hold
  · exact Or.inr ⟨rfl, pageOf_entry hlt perm.property⟩

end Isolated

/-! ## 3. Directory entries -/

namespace Isolated

variable {s : Vmm} (h : s.Isolated K)

include h

variable {p : UserPid} {i : PtIndex}

theorem uses_writePdir (w : BitVec 32) {u : PageUse} {n : Nat} (hne : u.pde ≠ (p, i))
    (hu : (s.write (K.pdirPage p) i w).Uses K u n) : s.Uses K u n := by
  have hpde : ∀ {q : UserPid} {k : PtIndex}, (q, k) ≠ (p, i) →
      (s.write (K.pdirPage p) i w).getPdirEntry K q k = s.getPdirEntry K q k := by
    intro q k hqk
    rw [getPdirEntry_writePdir, if_neg]
    rintro ⟨hq, hk⟩
    exact hqk (Prod.ext (Subtype.ext hq) hk)
  refine uses_of_agree (hpde hne) (fun ht l => ?_) hu
  have hwin := (PMem.allocated_window (h.table_allocated ht)).1
  have hlt := K.pdirPage_lt p
  exact s.write_phys_of_ne (by omega) i l w

theorem kernel_writePdir {p : Pid} (hi : kernelPde i = false) (w : BitVec 32) :
    (∀ q k, kernelPde k = true →
      (s.write (K.pdirPage p) i w).getPdirEntry K q k = identityPde K k) ∧
    ∀ k l, (s.write (K.pdirPage p) i w).phys (K.idptblPage k) l = identityPte k l := by
  constructor
  · intro q k hk
    rw [getPdirEntry_writePdir, if_neg]
    · exact h.kernel_pde q k hk
    · rintro ⟨_, rfl⟩
      rw [hi] at hk
      contradiction
  · intro k l
    rw [s.write_phys_of_ne (K.pdirPage_ne_idptblPage p k).symm]
    exact h.identity_map k l

theorem withPmm {pmm : Pmm} (hsub : s.pmm.mem.allocatedPages ⊆ pmm.mem.allocatedPages) :
    ({ s with pmm := pmm } : Vmm).Isolated K where
  exclusive := h.exclusive.widen fun _ hx => hsub hx
  kernel_pde := h.kernel_pde
  identity_map := h.identity_map

theorem zeroPage {page : Nat} (hwin : userLoPi ≤ page) (hfree : ∀ u, ¬ s.Uses K u page) :
    (s.zeroPage page).Isolated K ∧ ∀ u n, (s.zeroPage page).Uses K u n → s.Uses K u n := by
  have hpde : ∀ (q : Pid) (k : PtIndex),
      (s.zeroPage page).getPdirEntry K q k = s.getPdirEntry K q k := by
    intro q k
    have hlt := K.pdirPage_lt q
    exact s.zeroPage_phys_of_ne (by omega) k
  have huses : ∀ u n, (s.zeroPage page).Uses K u n → s.Uses K u n := by
    intro u n hu
    refine uses_of_agree (hpde _ _) (fun ht l => ?_) hu
    refine s.zeroPage_phys_of_ne (fun he => ?_) l
    exact hfree (.table u.pde.1 u.pde.2) ⟨ht, he⟩
  refine ⟨⟨h.exclusive.shrink huses fun _ _ _ hx => hx, fun q k hk => ?_, fun k l => ?_⟩, huses⟩
  · rw [hpde]
    exact h.kernel_pde q k hk
  · have hlt := K.idptblPage_lt k
    rw [s.zeroPage_phys_of_ne (by omega)]
    exact h.identity_map k l

theorem setPdirEntry (hi : kernelPde i = false) {page : Nat}
    (hpage : page ∈ s.pmm.mem.allocatedPages) (hfree : ∀ u, ¬ s.Uses K u page)
    (hzero : ∀ l, s.phys page l = 0) :
    (s.setPdirEntry K p i page).Isolated K ∧
      ∀ u n, (s.setPdirEntry K p i page).Uses K u n →
        s.Uses K u n ∨ (u = .table p i ∧ n = page) := by
  have hwin := PMem.allocated_window hpage
  have hdef : userHiPi = 983040 := by decide
  have hnew : (s.setPdirEntry K p i page).ptblPage K p i = page := by
    rw [ptblPage_eq, Vmm.setPdirEntry, getPdirEntry_writePdir, if_pos ⟨rfl, rfl⟩]
    exact pageOf_entry (by omega) (by decide)
  have huses : ∀ u n, (s.setPdirEntry K p i page).Uses K u n →
      s.Uses K u n ∨ (u = .table p i ∧ n = page) := by
    intro u n hu
    by_cases he : u.pde = (p, i)
    · cases u with
      | table q k =>
        obtain ⟨rfl, rfl⟩ := Prod.mk.inj he
        exact Or.inr ⟨rfl, hu.2.symm.trans hnew⟩
      | data q k l =>
        -- no entry of the new table is present
        obtain ⟨rfl, rfl⟩ := Prod.mk.inj he
        have hlt := K.pdirPage_lt q
        have hentry : (s.setPdirEntry K q k page).getPtblEntry K q k l = 0 := by
          unfold getPtblEntry
          rw [hnew]
          exact (s.write_phys_of_ne (by omega) _ l _).trans (hzero l)
        have hpres := hu.2.1
        rw [hentry] at hpres
        exact absurd BitVec.zero_and hpres
    · exact Or.inl (h.uses_writePdir _ he hu)
  obtain ⟨hkern, hid⟩ := h.kernel_writePdir (p := p) hi (pageAddr page ||| ptPermPtu)
  exact ⟨⟨h.exclusive.add (.table p i) hfree hpage huses, hkern, hid⟩, huses⟩

theorem freePtbl {va : UserAddr} {s' : Vmm} (hs : s.freePtbl K p va = some s') : s'.Isolated K := by
  obtain ⟨pmm, hfree, hs⟩ := Option.bind_eq_some_iff.mp hs
  obtain rfl := Option.some.inj hs
  have hpages := Pmm.containerFree_pages hfree
  obtain ⟨hkern, hid⟩ := h.kernel_writePdir (p := p) (kernelPde_pdeAddr va) 0
  -- nothing is reached through the removed entry
  have hgone : ∀ u n, (s.rmvPdirEntry K p (pdeAddr va)).Uses K u n → u.pde ≠ (p, pdeAddr va) := by
    intro u n hu he
    have hpde : (s.rmvPdirEntry K p (pdeAddr va)).getPdirEntry K p (pdeAddr va) = 0 := by
      unfold Vmm.rmvPdirEntry
      rw [getPdirEntry_writePdir, if_pos ⟨rfl, rfl⟩]
    cases u with
    | table q k =>
      obtain ⟨rfl, rfl⟩ := Prod.mk.inj he
      exact hu.1.2 hpde
    | data q k l =>
      obtain ⟨rfl, rfl⟩ := Prod.mk.inj he
      exact hu.1.2 hpde
  refine ⟨h.exclusive.shrink (fun u n hu => h.uses_writePdir 0 (hgone u n hu) hu) ?_, hkern, hid⟩
  intro u n hu hn
  rw [hpages]
  refine Finset.mem_erase.mpr ⟨?_, hn⟩
  rintro rfl
  -- the freed page was the table of the removed entry, unless there was none
  by_cases hpde : s.getPdirEntry K p (pdeAddr va) = 0
  · have hwin := (PMem.allocated_window hn).1
    unfold getPdirEntryByVa at hwin
    rw [hpde] at hwin
    exact absurd hwin (by decide)
  · have htable : s.Uses K (.table p (pdeAddr va)) (pageOf (s.getPdirEntryByVa K p va)) :=
      ⟨⟨kernelPde_pdeAddr va, hpde⟩, s.ptblPage_eq p (pdeAddr va)⟩
    have hu' := h.uses_writePdir 0 (hgone u _ hu) hu
    have he := h.exclusive.unique u _ _ hu' htable
    exact hgone u _ hu (by rw [he]; rfl)

end Isolated

namespace Isolated

variable {s : Vmm} (h : s.Isolated K)

include h

variable {p : UserPid} {va : UserAddr} {s' : Vmm} {page : Nat} {r : Nat}

theorem allocPtbl (hs : s.allocPtbl K p va = some (s', page)) :
    s'.Isolated K ∧ s.pmm.mem.allocatedPages ⊆ s'.pmm.mem.allocatedPages ∧
      (page ≠ 0 → s'.HasTable K p (pdeAddr va)) ∧
      ∀ u n, s'.Uses K u n → s.Uses K u n ∨ n ∉ s.pmm.mem.allocatedPages := by
  obtain ⟨pmm, halloc, ⟨h0, rfl⟩ | ⟨hne, rfl⟩⟩ := allocPtbl_eq hs
  · have hsub := Pmm.containerAlloc_mono halloc
    exact ⟨h.withPmm hsub, hsub, fun hne => absurd h0 hne, fun u n hu => Or.inl hu⟩
  · have hsub := Pmm.containerAlloc_mono halloc
    obtain ⟨hout, hin⟩ := Pmm.containerAlloc_fresh halloc hne
    have hwin := PMem.allocated_window hin
    have hdef : userHiPi = 983040 := by decide
    have hfree : ∀ u, ¬ s.Uses K u page := h.exclusive.unused hout
    obtain ⟨h₁, hu₁⟩ := (h.withPmm hsub).zeroPage hwin.1 hfree
    have hfree₁ := fun u hu => hfree u (hu₁ u page hu)
    obtain ⟨h₂, hu₂⟩ := h₁.setPdirEntry (p := p) (kernelPde_pdeAddr va) hin hfree₁
      (zeroPage_phys _ page)
    refine ⟨h₂, hsub, fun _ => ⟨kernelPde_pdeAddr va, ?_⟩, fun u n hu => ?_⟩
    · -- the entry is not 0, since its page is not
      intro hz
      have hpage := congrArg pageOf hz
      rw [Vmm.setPdirEntry, getPdirEntry_writePdir, if_pos ⟨rfl, rfl⟩,
        pageOf_entry (by omega) (by decide)] at hpage
      exact hne hpage
    · rcases hu₂ u n hu with hold | ⟨_, rfl⟩
      · exact Or.inl (hu₁ u n hold)
      · exact Or.inr hout

/-! ## 4. Mappings -/

theorem mapPage {perm : Perm} (hpage : page ∈ s.pmm.mem.allocatedPages)
    (hfree : ∀ u, ¬ s.Uses K u page) (hs : s.mapPage K p va page perm = some (s', r)) :
    s'.Isolated K := by
  rcases mapPage_cases hs with ⟨_, halloc, _⟩ | ⟨_, hn, s₁, halloc, rfl⟩ | ⟨hpde, _, rfl⟩
  · exact (h.allocPtbl halloc).1
  · obtain ⟨h₁, hsub, htable, huses⟩ := h.allocPtbl halloc
    refine h₁.setPtblEntry (htable hn) _ (hsub hpage) (fun u hu => ?_) perm
    rcases huses u page hu with hold | hout
    · exact hfree u hold
    · exact hout hpage
  · exact h.setPtblEntry ⟨kernelPde_pdeAddr va, hpde⟩ _ hpage hfree perm

theorem mapPage_entry {perm : BitVec 32} (hs : s.mapPage K p va page perm = some (s', r))
    (hr : r ≠ magicNumber) :
    s'.HasTable K p (pdeAddr va) ∧
      s'.getPtblEntry K p (pdeAddr va) (pteAddr va) = pageAddr page ||| perm := by
  -- in both branches the entry is written into a table that is there
  have hset : ∀ {s₁ : Vmm}, s₁.Isolated K → s₁.HasTable K p (pdeAddr va) →
      (s₁.setPtblEntryByVa K p va page perm).HasTable K p (pdeAddr va) ∧
        (s₁.setPtblEntryByVa K p va page perm).getPtblEntry K p (pdeAddr va) (pteAddr va) =
          pageAddr page ||| perm := by
    intro s₁ h₁ ht
    have hwin := (PMem.allocated_window (h₁.table_allocated ht)).1
    refine ⟨(hasTable_write hwin _ _).mpr ht, ?_⟩
    exact (h₁.getPtblEntry_write ht ht _ _ _).trans (if_pos ⟨rfl, rfl, rfl⟩)
  rcases mapPage_cases hs with ⟨_, _, hmagic⟩ | ⟨_, hn, s₁, halloc, rfl⟩ | ⟨hpde, _, rfl⟩
  · exact absurd hmagic hr
  · obtain ⟨h₁, _, htable, _⟩ := h.allocPtbl halloc
    exact hset h₁ (htable hn)
  · exact hset h ⟨kernelPde_pdeAddr va, hpde⟩

theorem allocPage {perm : Perm} (hs : s.allocPage K p va perm = some (s', r)) : s'.Isolated K := by
  obtain ⟨⟨pmm, page⟩, halloc, hs⟩ := Option.bind_eq_some_iff.mp hs
  have h₁ := h.withPmm (Pmm.containerAlloc_mono halloc)
  dsimp only at hs
  split at hs
  · rename_i hne
    obtain ⟨hout, hin⟩ := Pmm.containerAlloc_fresh halloc hne
    exact h₁.mapPage hin (h.exclusive.unused hout) hs
  · obtain ⟨rfl, _⟩ := Prod.mk.inj (Option.some.inj hs)
    exact h₁

theorem unmapPage (p : UserPid) (va : UserAddr) : (s.unmapPage K p va).1.Isolated K := by
  unfold Vmm.unmapPage
  dsimp only
  split
  · unfold rmvPtblEntryByVa
    split
    · rename_i hpde
      exact h.rmvPtblEntry ⟨kernelPde_pdeAddr va, hpde⟩ _
    · exact h
  · exact h

omit h in
theorem translate_uses (ht : s.translate K p va = some page) :
    s.Uses K (.data p (pdeAddr va) (pteAddr va)) page := by
  unfold translate at ht
  dsimp only at ht
  split at ht
  · contradiction
  · rename_i hpde
    split at ht
    · contradiction
    · rename_i hpte
      have hentry : s.getPtblEntry K p (pdeAddr va) (pteAddr va) =
          s.phys (pageOf (s.getPdirEntryByVa K p va)) (pteAddr va) := by
        unfold getPtblEntry
        rw [ptblPage_eq]
        rfl
      refine ⟨⟨kernelPde_pdeAddr va, fun hz => hpde ?_⟩, ?_, ?_⟩
      · unfold getPdirEntryByVa
        rw [hz]
        exact BitVec.zero_and
      · rw [hentry]
        exact hpte
      · rw [hentry]
        exact Option.some.inj ht

theorem perform {a : Action} (hs : s.perform K a = some s') : s'.Isolated K := by
  cases a with
  | allocMemQuota id quota =>
    obtain ⟨r, hr, rfl⟩ := Option.map_eq_some_iff.mp hs
    exact h.withPmm (Pmm.containerSplit_pages hr).ge
  | allocPage p va perm =>
    obtain ⟨r, hr, rfl⟩ := Option.map_eq_some_iff.mp hs
    exact h.allocPage hr
  | unmapPage p va =>
    obtain rfl := Option.some.inj hs
    exact h.unmapPage p va
  | freePtbl p va => exact h.freePtbl hs
  | store p va w =>
    obtain ⟨page, hpage, rfl⟩ := Option.map_eq_some_iff.mp hs
    exact h.store (translate_uses hpage) _ w

end Isolated

/-! ## 5. Isolation -/

theorem Isolated.init (K : KernelLayout) (mmap : List MemRange) (phys : Phys) :
    (pdirInitKern K mmap phys).Isolated K := by
  -- no user process has a table
  have hnone : ∀ (p : UserPid) (i : PtIndex), ¬ (pdirInitKern K mmap phys).HasTable K p i := by
    rintro p i ⟨hi, hpde⟩
    rw [pdirInitKern_entry mmap phys (Or.inl p.property), initialPde, hi] at hpde
    exact hpde rfl
  have huses : ∀ u n, ¬ (pdirInitKern K mmap phys).Uses K u n := by
    intro u n hu
    cases u with
    | table p i => exact hnone p i hu.1
    | data p i j => exact hnone p i hu.1
  refine ⟨⟨fun u v n hu => absurd hu (huses u n), fun u n hu => absurd hu (huses u n)⟩,
    fun p i hi => ?_, pdirInitKern_identity mmap phys⟩
  rw [pdirInitKern_entry mmap phys (Or.inr hi), initialPde, if_pos hi]

variable (K)

def PresentPte (s : Vmm) (p : UserPid) (i j : PtIndex) : Prop :=
  s.HasTable K p i ∧ s.getPtblEntry K p i j &&& pteP ≠ 0

/-- Pages are used once, tables are never data, both are allocated and normal, and the kernel's part
of every directory points to the intact identity tables. -/
structure AddressSpaceIsolation (s : Vmm) : Prop where
  data_once : ∀ p i j q k l, s.PresentPte K p i j → s.PresentPte K q k l →
    pageOf (s.getPtblEntry K p i j) = pageOf (s.getPtblEntry K q k l) → p = q ∧ i = k ∧ j = l
  table_once : ∀ (p : UserPid) i (q : UserPid) k, s.HasTable K p i → s.HasTable K q k →
    s.ptblPage K p i = s.ptblPage K q k → p = q ∧ i = k
  table_not_data : ∀ (p : UserPid) i q k l, s.HasTable K p i → s.PresentPte K q k l →
    s.ptblPage K p i ≠ pageOf (s.getPtblEntry K q k l)
  table_allocated : ∀ (p : UserPid) i, s.HasTable K p i →
    s.pmm.mem.atIsAllocated (s.ptblPage K p i) = true ∧ s.pmm.mem.atIsNorm (s.ptblPage K p i) = true
  data_allocated : ∀ p i j, s.PresentPte K p i j →
    s.pmm.mem.atIsAllocated (pageOf (s.getPtblEntry K p i j)) = true ∧
      s.pmm.mem.atIsNorm (pageOf (s.getPtblEntry K p i j)) = true
  kernel_identity : ∀ p i, kernelPde i = true → s.getPdirEntry K p i = identityPde K i
  identity_intact : ∀ i j, s.phys (K.idptblPage i) j = identityPte i j

variable {K}

theorem PresentPte.uses {p : UserPid} {i j : PtIndex} (h : s.PresentPte K p i j) :
    s.Uses K (.data p i j) (pageOf (s.getPtblEntry K p i j)) := ⟨h.1, h.2, rfl⟩

theorem Isolated.isolation (h : s.Isolated K) : s.AddressSpaceIsolation K where
  data_once _ _ _ _ _ _ hp hq he :=
    PageUse.data.inj (h.exclusive.unique _ _ _ hp.uses (he ▸ hq.uses))
  table_once _ _ _ _ hp hq he := h.table_unique hq hp he
  table_not_data p i _ _ _ hp hq he :=
    PageUse.noConfusion (h.exclusive.unique (.table p i) _ _ ⟨hp, he⟩ hq.uses)
  table_allocated _ _ hp := (PMem.mem_allocatedPages.mp (h.table_allocated hp)).symm
  data_allocated _ _ _ hp := (PMem.mem_allocatedPages.mp (h.exclusive.backed _ _ hp.uses)).symm
  kernel_identity := h.kernel_pde
  identity_intact := h.identity_map

/-- **Address-space isolation.**  It holds in every state of every run. -/
theorem address_space_isolation {mmap : List MemRange} {past : List (Vmm × Action)} {s : Vmm}
    (hr : Run K mmap past s) : s.AddressSpaceIsolation K := by
  have hinv : s.Isolated K := by
    apply Transition.Run.invariant (I := Isolated K) _ _ hr
    · rintro x ⟨phys, hx⟩
      rw [hx]
      exact Isolated.init K mmap phys
    · intro x a x' hx hs
      exact hx.perform hs
  exact hinv.isolation

def sampleLayout : KernelLayout := ⟨0x200, 0x400, by decide, by decide, by decide⟩

def firstChild : UserPid := ⟨⟨1, Nat.one_lt_succ_succ _⟩, by decide⟩

def firstAddr : UserAddr := ⟨0x40000000, by decide⟩

theorem sample_child (quota : BitVec 32) (hq : quota.toNat ≤ 2) :
    ∃ past s, Run sampleLayout Pmm.twoPages past s ∧ past.length = 1 ∧ s.Isolated sampleLayout ∧
      s.pmm.Inv ∧ s.pmm.container firstChild = ⟨quota, 0, rootPid, 0, true⟩ ∧
      ∀ i, kernelPde i = false → s.getPdirEntry sampleLayout firstChild i = 0 := by
  obtain ⟨s₀, hs₀⟩ : ∃ s₀, s₀ = pdirInitKern sampleLayout Pmm.twoPages fun _ _ => 0 := ⟨_, rfl⟩
  have hpmm : s₀.pmm = Pmm.twoPagesBoot := by
    rw [hs₀, pdirInitKern_pmm, Pmm.containerInit_twoPages]
  have hiso₀ : s₀.Isolated sampleLayout := by
    rw [hs₀]
    exact Isolated.init _ _ _
  have hpde₀ : ∀ i, kernelPde i = false → s₀.getPdirEntry sampleLayout firstChild i = 0 := by
    intro i hi
    rw [hs₀, pdirInitKern_entry _ _ (Or.inl firstChild.property), initialPde, hi]
    rfl
  have hinv₀ : Pmm.twoPagesBoot.Inv := Pmm.containerInit_twoPages ▸ Pmm.Inv.init Pmm.twoPages
  have hroom : (Pmm.twoPagesBoot.container rootPid).usage.toNat + quota.toNat ≤
      (Pmm.twoPagesBoot.container rootPid).quota.toNat := by
    show 0 + quota.toNat ≤ 2
    omega
  have hstep : s₀.perform sampleLayout (.allocMemQuota rootPid quota) =
      some { s₀ with pmm := Pmm.twoPagesBoot.withChild rootPid firstChild quota } := by
    show (s₀.pmm.containerSplit rootPid quota).map _ = _
    rw [hpmm, Pmm.containerSplit_eq rfl quota (by decide)]
    rfl
  refine ⟨_, _, Transition.Run.next (Transition.Run.start ⟨_, hs₀⟩) hstep, rfl,
    hiso₀.perform hstep, hinv₀.withChild rfl (by decide) rfl hroom, ?_, hpde₀⟩
  rfl

theorem sample_allocPage :
    ∃ past s s' r, Run sampleLayout Pmm.twoPages past s ∧ past.length = 1 ∧
      s.Isolated sampleLayout ∧ s.getPdirEntry sampleLayout firstChild (pdeAddr firstAddr) = 0 ∧
      s.allocPage sampleLayout firstChild firstAddr 7 = some (s', r) ∧ r ≠ magicNumber ∧
      s'.PresentPte sampleLayout firstChild (pdeAddr firstAddr) (pteAddr firstAddr) := by
  obtain ⟨past, s, hrun, hlen, hiso, hinv, hchild, hempty⟩ := sample_child 2 (by decide)
  have hpde := hempty _ (kernelPde_pdeAddr firstAddr)
  obtain ⟨pmm₁, n, halloc₁, hn, hinv₁, hchild₁⟩ := hinv.alloc_room
    (show (s.pmm.container firstChild).used = true by rw [hchild]) (by rw [hchild]; decide)
  rw [hchild] at hchild₁
  obtain ⟨pmm₂, m, halloc₂, hm, _, _⟩ := hinv₁.alloc_room
    (show (pmm₁.container firstChild).used = true by rw [hchild₁]) (by rw [hchild₁]; decide)
  obtain ⟨s', hmap⟩ := mapPage_fresh (s := { s with pmm := pmm₁ }) hpde halloc₂ hm n 7
  have hiso₁ := hiso.withPmm (Pmm.containerAlloc_mono halloc₁)
  have hm' : m ≠ magicNumber := Pmm.containerAlloc_ne_magicNumber halloc₂ hm
  obtain ⟨htable, hentry⟩ := hiso₁.mapPage_entry hmap hm'
  refine ⟨past, s, s', m, hrun, hlen, hiso, hpde, by rw [allocPage_eq halloc₁ hn, hmap], hm',
    htable, ?_⟩
  rw [hentry, entry_and n 7 (by decide)]
  decide

/-- The root gives its two pages to a child, which maps one and keeps its table in the other. -/
theorem sample_mapped :
    ∃ past s, Run sampleLayout Pmm.twoPages past s ∧ past.length = 2 ∧
      s.PresentPte sampleLayout firstChild (pdeAddr firstAddr) (pteAddr firstAddr) := by
  obtain ⟨past, s, s', r, hrun, hlen, _, _, halloc, _, hpresent⟩ := sample_allocPage
  have hstep : s.perform sampleLayout (.allocPage firstChild firstAddr ⟨7, by decide⟩) =
      some s' := by
    show (Vmm.allocPage _ _ _ _ _).map _ = _
    rw [halloc]
    rfl
  exact ⟨_, _, Transition.Run.next hrun hstep, by simp [hlen], hpresent⟩

theorem address_space_isolation_mapped :
    ∃ past s, Run sampleLayout Pmm.twoPages past s ∧ past.length = 2 ∧
      s.PresentPte sampleLayout firstChild (pdeAddr firstAddr) (pteAddr firstAddr) ∧
      s.AddressSpaceIsolation sampleLayout := by
  obtain ⟨past, s, hrun, hlen, hpresent⟩ := sample_mapped
  exact ⟨past, s, hrun, hlen, hpresent, address_space_isolation hrun⟩

end Vmm

end MCertiKOS
