import DistributedSystems.MCertiKOS.CopyPages

/-!
# Copies and the pages they need

As long as `alloc_page` finds a page for every address that has none, a copy stays in the pages the
process has, and moves the bytes of its range and no others.  The copies ignore what `alloc_page`
returns: after a failure the entry is still absent, and the copy goes on with physical page 0.  What
a range needs can be counted before the copy: its absent pages and the tables that are missing.
-/

namespace MCertiKOS

open Spans

/-! ## 1. Pages to be had -/

namespace PMem

def freePages (m : PMem) : Finset Nat := (Finset.range (2 ^ 20)).filter fun i => m.available i

theorem mem_freePages {m : PMem} {i : Nat} : i ∈ m.freePages ↔ m.available i = true := by
  rw [freePages, Finset.mem_filter]
  refine ⟨fun h => h.2, fun h => ⟨?_, h⟩⟩
  exact (Finset.mem_filter.mp (mem_normalPages.mpr (Bool.and_eq_true _ _ ▸ h).1)).1

theorem freePages_take (m : PMem) (p : UserPage) : (m.take p).freePages = m.freePages.erase p := by
  ext i
  rw [Finset.mem_erase, mem_freePages, mem_freePages]
  show (m.atIsNorm i && !(m.atSetAllocated p 1).atIsAllocated i) = true ↔ _
  rw [atIsAllocated_set]
  by_cases hi : i = p.val
  · simp [hi]
  · rw [if_neg hi]
    exact (and_iff_right hi).symm

end PMem

namespace Pmm

/-- The next `n` calls of `container_alloc` for the process give pages: each passes the check of the
quota, and there are as many free pages. -/
structure Grants (s : Pmm) (id : Pid) (n : Nat) : Prop where
  quota : ∀ k < n, BitVec.sle ((s.container id).usage + BitVec.ofNat 32 (k + 1))
    (s.container id).quota = true
  free : n ≤ s.mem.freePages.card

variable {s s' : Pmm} {id : Pid} {page n : Nat}

theorem grants_zero : s.Grants id 0 := ⟨fun _ hk => absurd hk (Nat.not_lt_zero _), Nat.zero_le _⟩

theorem Grants.mono {k : Nat} (h : s.Grants id n) (hk : k ≤ n) : s.Grants id k :=
  ⟨fun j hj => h.quota j (by omega), hk.trans h.free⟩

theorem containerAlloc_grants (hs : s.containerAlloc id = some (s', page)) :
    s.Grants id (n + 1) ↔ page ≠ 0 ∧ s'.Grants id n := by
  have hl : s.locked id = false := containerAlloc_isSome_iff.mp (by rw [hs]; rfl)
  cases hq : BitVec.sle ((s.container id).usage + 1) (s.container id).quota with
  | false =>
    rw [containerAlloc_refused hl hq] at hs
    obtain ⟨_, rfl⟩ := Prod.mk.inj (Option.some.inj hs)
    refine ⟨fun h => ?_, fun h => absurd rfl h.1⟩
    exact absurd ((h.quota 0 (Nat.succ_pos n)).symm.trans hq) Bool.noConfusion
  | true =>
    rcases s.mem.palloc_spec with ⟨p, hav, hp⟩ | ⟨hnone, hp⟩
    · rw [containerAlloc_eq hl hq hp] at hs
      obtain ⟨rfl, rfl⟩ := Prod.mk.inj (Option.some.inj hs)
      have hne : p.val ≠ 0 := Nat.ne_of_gt (Nat.lt_of_lt_of_le (by decide) p.property.1)
      have hmem : p.val ∈ s.mem.freePages := PMem.mem_freePages.mpr hav
      have hcard := Finset.card_erase_of_mem hmem
      have hpos := Finset.card_pos.mpr ⟨_, hmem⟩
      have hself : (s.withUsage id ((s.container id).usage + 1)).container id =
          { s.container id with usage := (s.container id).usage + 1 } := Function.update_self ..
      have hsum : ∀ k, (s.container id).usage + BitVec.ofNat 32 (k + 1 + 1) =
          (s.container id).usage + 1 + BitVec.ofNat 32 (k + 1) := by
        intro k
        rw [BitVec.ofNat_add (k + 1) 1, BitVec.add_comm (BitVec.ofNat 32 (k + 1)), ← BitVec.add_assoc]
        rfl
      constructor
      · intro h
        refine ⟨hne, fun k hk => ?_, ?_⟩
        · rw [show Pmm.container _ id = _ from hself, ← hsum]
          exact h.quota (k + 1) (Nat.succ_lt_succ hk)
        · show n ≤ (s.mem.take p).freePages.card
          rw [PMem.freePages_take, hcard]
          have := h.free
          omega
      · rintro ⟨_, h⟩
        refine ⟨fun k hk => ?_, ?_⟩
        · cases k with
          | zero => exact hq
          | succ k =>
            have hgrant := h.quota k (Nat.lt_of_succ_lt_succ hk)
            rw [show Pmm.container _ id = _ from hself, ← hsum] at hgrant
            exact hgrant
        · have hfree : n ≤ (s.mem.take p).freePages.card := h.free
          rw [PMem.freePages_take, hcard] at hfree
          omega
    · rw [containerAlloc_eq hl hq hp] at hs
      obtain ⟨_, rfl⟩ := Prod.mk.inj (Option.some.inj hs)
      refine ⟨fun h => ?_, fun h => absurd rfl h.1⟩
      obtain ⟨i, hi⟩ := Finset.card_pos.mp (Nat.lt_of_lt_of_le (Nat.succ_pos n) h.free)
      have hav := PMem.mem_freePages.mp hi
      have hwin := s.mem.norm_user i (of_decide_eq_true (Bool.and_eq_true _ _ ▸ hav).1)
      exact absurd (hav.symm.trans (hnone ⟨i, hwin.1, hwin.2.1⟩)) Bool.noConfusion

/-- With quotas that are kept, what is left of the quota decides alone. -/
theorem Inv.grants_iff (h : s.Inv) (hid : (s.container id).used = true) :
    s.Grants id n ↔ (s.container id).usage.toNat + n ≤ (s.container id).quota.toNat := by
  induction n generalizing s with
  | zero => exact ⟨fun _ => h.usage_le id, fun _ => grants_zero⟩
  | succ n ih =>
    have hle := h.usage_le id
    cases hq : BitVec.sle ((s.container id).usage + 1) (s.container id).quota with
    | false =>
      have hroom := mt (h.sle_iff id).mpr (by rw [hq]; exact Bool.false_ne_true)
      rw [containerAlloc_grants (containerAlloc_refused (h.unlocked id) hq)]
      exact ⟨fun hc => absurd rfl hc.1, fun hc => by omega⟩
    | true =>
      obtain ⟨s', page, halloc, hpage, h', hcharged⟩ := h.alloc_room hid hq
      rw [containerAlloc_grants halloc, ih h' (by rw [hcharged]; exact hid), hcharged,
        and_iff_right hpage]
      show ((s.container id).usage + 1).toNat + n ≤ (s.container id).quota.toNat ↔ _
      rw [h.succ_usage_toNat]
      omega

end Pmm

namespace Vmm

variable {K : KernelLayout} {s s' : Vmm} {p : UserPid} {uva : BitVec 32} {n len : Nat}

theorem mapPage_grants {va : BitVec 32} {page r : Nat} {perm : BitVec 32}
    (hs : s.mapPage K p va page perm = some (s', r)) :
    s.pmm.Grants p (n + if s.getPdirEntry K p (pdeAddr va) = 0 then 1 else 0) ↔
      r ≠ magicNumber ∧ s'.pmm.Grants p n := by
  rcases mapPage_cases hs with ⟨hpde, halloc, rfl⟩ | ⟨hpde, hr, s₁, halloc, rfl⟩ | ⟨hpde, rfl, rfl⟩
  · rw [if_pos hpde]
    obtain ⟨pmm, hpages, ⟨_, rfl⟩ | ⟨hne, _⟩⟩ := allocPtbl_eq halloc
    · rw [Pmm.containerAlloc_grants hpages]
      exact ⟨fun h => absurd rfl h.1, fun h => absurd rfl h.1⟩
    · exact absurd rfl hne
  · rw [if_pos hpde]
    obtain ⟨pmm, hpages, ⟨h0, _⟩ | ⟨_, rfl⟩⟩ := allocPtbl_eq halloc
    · exact absurd h0 hr
    · rw [Pmm.containerAlloc_grants hpages]
      exact and_congr_left fun _ => ⟨fun _ => Pmm.containerAlloc_ne_magicNumber hpages hr, fun _ => hr⟩
  · rw [if_neg hpde]
    exact (and_iff_right (magicNumber_ne_pageOf _)).symm

theorem allocPage_grants {va perm : BitVec 32} {r : Nat}
    (hs : s.allocPage K p va perm = some (s', r)) :
    s.pmm.Grants p (n + (if s.getPdirEntry K p (pdeAddr va) = 0 then 1 else 0) + 1) ↔
      r ≠ magicNumber ∧ s'.pmm.Grants p n := by
  obtain ⟨⟨pmm, page⟩, halloc, hs⟩ := Option.bind_eq_some_iff.mp hs
  rw [Pmm.containerAlloc_grants halloc]
  dsimp only at hs
  split at hs
  case isTrue hne =>
    rw [← mapPage_grants hs]
    exact and_iff_right hne
  case isFalse hzero =>
    obtain ⟨_, rfl⟩ := Prod.mk.inj (Option.some.inj hs)
    exact ⟨fun h => absurd h.1 hzero, fun h => absurd rfl h.1⟩

/-! ## 2. Pages a range needs -/

def rangeAddrs (uva : BitVec 32) (len : Nat) : Finset (BitVec 32) :=
  (Finset.range len).image fun k => uva + BitVec.ofNat 32 k

def absentPages (K : KernelLayout) (s : Vmm) (p : Pid) (uva : BitVec 32) (len : Nat) : Finset Nat :=
  ((rangeAddrs uva len).filter fun w => s.getPtblEntryByVa K p w &&& pteP = 0).image pageOf

def missingTables (K : KernelLayout) (s : Vmm) (p : Pid) (uva : BitVec 32) (len : Nat) :
    Finset PtIndex :=
  ((rangeAddrs uva len).filter fun w => s.getPdirEntryByVa K p w = 0).image pdeAddr

/-- The pages that have to be allocated before the whole range is mapped. -/
def needed (K : KernelLayout) (s : Vmm) (p : Pid) (uva : BitVec 32) (len : Nat) : Nat :=
  (s.absentPages K p uva len).card + (s.missingTables K p uva len).card

theorem mem_rangeAddrs (hlen : uva.toNat + len ≤ 2 ^ 32) {w : BitVec 32} :
    w ∈ rangeAddrs uva len ↔ uva.toNat ≤ w.toNat ∧ w.toNat < uva.toNat + len := by
  rw [rangeAddrs, Finset.mem_image]
  constructor
  · rintro ⟨k, hk, rfl⟩
    have hk := Finset.mem_range.mp hk
    rw [BitVec.toNat_add, BitVec.toNat_ofNat]
    omega
  · rintro ⟨hlo, hhi⟩
    refine ⟨w.toNat - uva.toNat, Finset.mem_range.mpr (by omega), ?_⟩
    bv_omega

/-- The addresses of a range are those of its first chunk, which are in one page, and those of the
rest, which are in other pages. -/
theorem mem_rangeAddrs_chunk (hlen : uva.toNat + len < 2 ^ 32) (hpos : len ≠ 0) {pa : BitVec 32}
    (hpa : pa.toNat % pageSize = uva.toNat % pageSize) :
    (∀ w, w ∈ rangeAddrs uva len ↔ w ∈ rangeAddrs uva (chunkSize pa len) ∨
      w ∈ rangeAddrs (uva + BitVec.ofNat 32 (chunkSize pa len)) (len - chunkSize pa len)) ∧
    uva ∈ rangeAddrs uva (chunkSize pa len) ∧
    (∀ w ∈ rangeAddrs uva (chunkSize pa len), SamePage w uva) ∧
    ∀ w ∈ rangeAddrs (uva + BitVec.ofNat 32 (chunkSize pa len)) (len - chunkSize pa len),
      ¬ SamePage w uva := by
  have hle := chunkSize_le pa len
  have hgt := chunkSize_pos pa hpos
  have hnext : (uva + BitVec.ofNat 32 (chunkSize pa len)).toNat = uva.toNat + chunkSize pa len := by
    rw [BitVec.toNat_add, BitVec.toNat_ofNat]
    omega
  have hpage : chunkSize pa len = len ∨ chunkSize pa len = 4096 - uva.toNat % 4096 := by
    unfold chunkSize
    rw [hpa, show pageSize = 4096 from rfl]
    split
    · exact Or.inl rfl
    · exact Or.inr rfl
  have hmax : chunkSize pa len ≤ 4096 - uva.toNat % 4096 := by
    have hsize := chunkSize_page pa len
    rwa [hpa] at hsize
  refine ⟨fun w => ?_, ?_, fun w hw => ?_, fun w hw => ?_⟩
  · rw [mem_rangeAddrs (by omega), mem_rangeAddrs (by omega), mem_rangeAddrs (by omega), hnext]
    omega
  · rw [mem_rangeAddrs (by omega)]
    omega
  · rw [mem_rangeAddrs (by omega)] at hw
    rw [samePage_iff]
    omega
  · rw [mem_rangeAddrs (by omega), hnext] at hw
    rw [samePage_iff]
    omega

theorem samePage_iff_pageOf {va w : BitVec 32} : SamePage va w ↔ pageOf va = pageOf w := by
  rw [samePage_iff, pageOf_val, pageOf_val]
  rfl

/-- The values of `f` at the addresses of a range with `P`, counted chunk by chunk: the first chunk has
one value, and behind it `Q` holds where `P` does and the value is another. -/
theorem card_image_chunk {α : Type} [DecidableEq α] {f : BitVec 32 → α} {P Q : BitVec 32 → Prop}
    [DecidablePred P] [DecidablePred Q] {A B C : Finset (BitVec 32)}
    (hA : ∀ w, w ∈ A ↔ w ∈ B ∨ w ∈ C) (hself : uva ∈ B) (hf : ∀ w ∈ B, f w = f uva)
    (hP : ∀ w ∈ A, f w = f uva → (P w ↔ P uva)) (hQ : ∀ w ∈ C, Q w ↔ P w ∧ f w ≠ f uva) :
    ((A.filter P).image f).card = ((C.filter Q).image f).card + if P uva then 1 else 0 := by
  have hset : (A.filter P).image f =
      if P uva then insert (f uva) ((C.filter Q).image f) else (C.filter Q).image f := by
    ext x
    have hx : x ∈ (A.filter P).image f ↔ P uva ∧ x = f uva ∨ x ∈ (C.filter Q).image f := by
      simp only [Finset.mem_image, Finset.mem_filter]
      constructor
      · rintro ⟨w, ⟨hw, hPw⟩, rfl⟩
        by_cases hfw : f w = f uva
        · exact Or.inl ⟨(hP w hw hfw).mp hPw, hfw⟩
        · have hC := ((hA w).mp hw).resolve_left fun hB => hfw (hf w hB)
          exact Or.inr ⟨w, ⟨hC, (hQ w hC).mpr ⟨hPw, hfw⟩⟩, rfl⟩
      · rintro (⟨hPa, rfl⟩ | ⟨w, ⟨hC, hPw⟩, rfl⟩)
        · exact ⟨uva, ⟨(hA uva).mpr (Or.inl hself), hPa⟩, rfl⟩
        · exact ⟨w, ⟨(hA w).mpr (Or.inr hC), ((hQ w hC).mp hPw).1⟩, rfl⟩
    split
    case isTrue hPa => rw [hx, Finset.mem_insert, and_iff_right hPa]
    case isFalse hPa => rw [hx, or_iff_right fun h => hPa h.1]
  have hnew : f uva ∉ (C.filter Q).image f := by
    intro hmem
    obtain ⟨w, hw, hfw⟩ := Finset.mem_image.mp hmem
    obtain ⟨hC, hPw⟩ := Finset.mem_filter.mp hw
    exact ((hQ w hC).mp hPw).2 hfw
  rw [hset]
  split
  · rw [Finset.card_insert_of_notMem hnew]
  · rfl

/-- The first chunk needs its own page, if it is absent, and the table of that page, if it is
missing.  When it has them, the rest needs what is left. -/
theorem needed_chunk (hlen : uva.toNat + len < 2 ^ 32) (hpos : len ≠ 0) {pa : BitVec 32}
    (hpa : pa.toNat % pageSize = uva.toNat % pageSize)
    (hentry : ∀ w, ¬ SamePage w uva → s'.getPtblEntryByVa K p w = s.getPtblEntryByVa K p w)
    (hpde : ∀ i, s'.getPdirEntry K p i = 0 ↔ s.getPdirEntry K p i = 0 ∧ i ≠ pdeAddr uva) :
    s.needed K p uva len =
      s'.needed K p (uva + BitVec.ofNat 32 (chunkSize pa len)) (len - chunkSize pa len) +
        (if s.getPdirEntry K p (pdeAddr uva) = 0 then 1 else 0) +
        if s.getPtblEntryByVa K p uva &&& pteP = 0 then 1 else 0 := by
  obtain ⟨hsplit, hself, hin, hout⟩ := mem_rangeAddrs_chunk hlen hpos hpa
  have habsent := card_image_chunk (f := pageOf) hsplit hself
    (P := fun w => s.getPtblEntryByVa K p w &&& pteP = 0)
    (Q := fun w => s'.getPtblEntryByVa K p w &&& pteP = 0)
    (fun w hw => samePage_iff_pageOf.mp (hin w hw))
    (fun w _ hpage => by rw [getPtblEntryByVa_samePage (samePage_iff_pageOf.mpr hpage)])
    fun w hw => by
      rw [hentry w (hout w hw), and_iff_left fun hpage => hout w hw (samePage_iff_pageOf.mpr hpage)]
  have hmissing := card_image_chunk (f := pdeAddr) hsplit hself
    (P := fun w => s.getPdirEntryByVa K p w = 0) (Q := fun w => s'.getPdirEntryByVa K p w = 0)
    (fun w hw => ((samePage_iff_indices w uva).mp (hin w hw)).1)
    (fun w _ hi => by unfold getPdirEntryByVa; rw [hi]) fun w _ => hpde (pdeAddr w)
  unfold needed absentPages missingTables
  rw [habsent, hmissing]
  show _ + _ + (_ + if s.getPdirEntry K p (pdeAddr uva) = 0 then 1 else 0) = _
  omega

theorem needed_pos (hlen : uva.toNat + len < 2 ^ 32) (hpos : len ≠ 0)
    (habsent : s.getPtblEntryByVa K p uva &&& pteP = 0) :
    (if s.getPdirEntry K p (pdeAddr uva) = 0 then 1 else 0) + 1 ≤ s.needed K p uva len := by
  have huva : uva ∈ rangeAddrs uva len := (mem_rangeAddrs (by omega)).mpr (by omega)
  have hpage : 0 < (s.absentPages K p uva len).card :=
    Finset.card_pos.mpr ⟨_, Finset.mem_image_of_mem _ (Finset.mem_filter.mpr ⟨huva, habsent⟩)⟩
  unfold needed
  split
  case isTrue hpde =>
    have htable : 0 < (s.missingTables K p uva len).card :=
      Finset.card_pos.mpr ⟨_, Finset.mem_image_of_mem _ (Finset.mem_filter.mpr ⟨huva, hpde⟩)⟩
    omega
  case isFalse => omega

theorem needed_page (hpage : uva.toNat % pageSize + len ≤ pageSize) :
    s.needed K p uva len ≤ 2 := by
  have hsame : ∀ w ∈ rangeAddrs uva len, SamePage w uva := by
    have hlt := uva.isLt
    rw [show pageSize = 4096 from rfl] at hpage
    intro w hw
    rw [mem_rangeAddrs (by omega)] at hw
    rw [samePage_iff]
    omega
  have habsent : s.absentPages K p uva len ⊆ {pageOf uva} := by
    intro page hmem
    obtain ⟨w, hw, rfl⟩ := Finset.mem_image.mp hmem
    have hw := hsame w (Finset.mem_filter.mp hw).1
    exact Finset.mem_singleton.mpr (samePage_iff_pageOf.mp hw)
  have hmissing : s.missingTables K p uva len ⊆ {pdeAddr uva} := by
    intro i hmem
    obtain ⟨w, hw, rfl⟩ := Finset.mem_image.mp hmem
    have hw := hsame w (Finset.mem_filter.mp hw).1
    exact Finset.mem_singleton.mpr ((samePage_iff_indices w uva).mp hw).1
  exact Nat.add_le_add (Finset.card_le_card habsent) (Finset.card_le_card hmissing)

theorem Isolated.mapPage_pde (h : s.Isolated K) {va : UserAddr} {page r : Nat} {perm : BitVec 32}
    (hs : s.mapPage K p va page perm = some (s', r)) (hr : r ≠ magicNumber) (i : PtIndex) :
    s'.getPdirEntry K p i = 0 ↔ s.getPdirEntry K p i = 0 ∧ i ≠ pdeAddr va := by
  have hne : pageAddr r ||| ptPermPtu ≠ 0 := by
    intro hz
    have hand : (pageAddr r ||| ptPermPtu) &&& pteP = ptPermPtu &&& pteP := entry_and _ _ (by decide)
    rw [hz] at hand
    exact absurd hand (by decide)
  rw [h.getPdirEntry_mapPage hs]
  by_cases hi : i = pdeAddr va
  · subst hi
    by_cases hz : s.getPdirEntry K p (pdeAddr va) = 0
    · rw [if_pos ⟨rfl, rfl, hz, hr⟩]
      exact ⟨fun h => absurd h hne, fun h => absurd rfl h.2⟩
    · rw [if_neg fun hc => hz hc.2.2.1]
      exact ⟨fun h => absurd h hz, fun h => absurd rfl h.2⟩
  · rw [if_neg fun hc => hi hc.2.1, and_iff_left hi]

theorem Isolated.allocPage_pde (h : s.Isolated K) (va : UserAddr) {perm : BitVec 32} {r : Nat}
    (hs : s.allocPage K p va perm = some (s', r)) (hr : r ≠ magicNumber) (i : PtIndex) :
    s'.getPdirEntry K p i = 0 ↔ s.getPdirEntry K p i = 0 ∧ i ≠ pdeAddr va := by
  obtain ⟨⟨pmm, page⟩, halloc, hs⟩ := Option.bind_eq_some_iff.mp hs
  dsimp only at hs
  split at hs
  case isTrue => exact (h.withPmm (Pmm.containerAlloc_mono halloc)).mapPage_pde hs hr i
  case isFalse =>
    obtain ⟨_, rfl⟩ := Prod.mk.inj (Option.some.inj hs)
    exact absurd rfl hr

end Vmm

open Vmm

variable {K : KernelLayout}

/-! ## 3. Whole copies -/

theorem chunk_inRange {uva pa : BitVec 32} {len : Nat} (hlo : vmUserLo ≤ uva)
    (hhi : uva.toNat + len ≤ vmUserHi.toNat) (hlen : len ≠ 0)
    (hpa : pa.toNat % pageSize = uva.toNat % pageSize) :
    (vmUserLo ≤ uva ∧ uva < vmUserHi) ∧ chunkSize pa len ≤ pageSize - uva.toNat % pageSize ∧
      vmUserLo ≤ uva + BitVec.ofNat 32 (chunkSize pa len) ∧
      (uva + BitVec.ofNat 32 (chunkSize pa len)).toNat + (len - chunkSize pa len) ≤
        vmUserHi.toNat := by
  have hdef : vmUserHi.toNat = 0xF0000000 := rfl
  have hle := chunkSize_le pa len
  have hnext : (uva + BitVec.ofNat 32 (chunkSize pa len)).toNat = uva.toNat + chunkSize pa len := by
    rw [BitVec.toNat_add, BitVec.toNat_ofNat]
    omega
  have hlow : vmUserLo.toNat ≤ uva.toNat := hlo
  refine ⟨⟨hlo, ?_⟩, ?_, ?_, by omega⟩
  · show uva.toNat < vmUserHi.toNat
    omega
  · rw [← hpa]
    exact chunkSize_page _ _
  · show vmUserLo.toNat ≤ (uva + BitVec.ofNat 32 (chunkSize pa len)).toNat
    omega

/-- No page is refused exactly if the containers and the memory had all pages the range needs before
the copy. -/
theorem magicNumber_notMem_allocs_iff (d : Direction) (p : UserPid) (uva kva : BitVec 32)
    (len copied : Nat) (m : Vmm × KMem) (h : m.1.Isolated K) (hl : m.1.pmm.locked p = false)
    (hlo : vmUserLo ≤ uva) (hhi : uva.toNat + len ≤ vmUserHi.toNat) :
    magicNumber ∉ (copyLoop K d p uva kva len copied m).allocs ↔
      m.1.pmm.Grants p (m.1.needed K p uva len) := by
  fun_induction copyLoop K d p uva kva len copied m with
  | case1 => exact ⟨fun _ => Pmm.grants_zero, fun _ => List.not_mem_nil⟩
  | case2 uva kva len copied m hlen hnone =>
    have hsome := copyLoop_returns (K := K) d p uva kva len copied m hl
    unfold copyLoop at hsome
    rw [dif_neg hlen, hnone] at hsome
    contradiction
  | case3 uva kva len copied m hlen s allocs pte hentry pa size m' rest ih =>
    have hmod : pa.toNat % pageSize = uva.toNat % pageSize := userPa_mod pte uva
    obtain ⟨hu, hpage, hlo', hhi'⟩ := chunk_inRange hlo hhi hlen hmod
    have hlt : uva.toNat + len < 2 ^ 32 := Nat.lt_of_le_of_lt hhi (by decide)
    -- the copy of the chunk changes neither the containers nor the tables
    have hnext : pte = s.getPtblEntryByVa K p uva → pte &&& pteP ≠ 0 → s.Isolated K →
        s.pmm.locked p = false →
        (∀ w, ¬ SamePage w uva → s.getPtblEntryByVa K p w = m.1.getPtblEntryByVa K p w) →
        (∀ i, s.getPdirEntry K p i = 0 ↔ m.1.getPdirEntry K p i = 0 ∧ i ≠ pdeAddr uva) →
        (magicNumber ∉ rest.allocs ↔ s.pmm.Grants p (m'.1.needed K p
          (uva + BitVec.ofNat 32 size) (len - size))) ∧
        m.1.needed K p uva len = m'.1.needed K p (uva + BitVec.ofNat 32 size) (len - size) +
          (if m.1.getPdirEntry K p (pdeAddr uva) = 0 then 1 else 0) +
          if m.1.getPtblEntryByVa K p uva &&& pteP = 0 then 1 else 0 := by
      intro hpte hP hiso hl hentries hpdes
      have hpa : pa = userPa (s.getPtblEntryByVa K p uva) uva := by rw [← hpte]
      obtain ⟨hiso', hentries', hpdes'⟩ := hiso.memcpy_chunk (m := (s, m.2)) d kva hu (hpte ▸ hP)
        hpage hpa
      have hpmm : m'.1.pmm = s.pmm := memcpy_pmm ..
      have hrest := ih hiso' (by rw [hpmm]; exact hl) hlo' hhi'
      rw [hpmm] at hrest
      refine ⟨hrest, needed_chunk hlt hlen hmod (fun w hw => ?_) fun i => ?_⟩
      · exact (hentries' p w).trans (hentries w hw)
      · rw [hpdes' p i]
        exact hpdes i
    show magicNumber ∉ allocs ++ rest.allocs ↔ _
    rw [List.mem_append, not_or]
    rcases userEntry_cases hentry with ⟨hP, rfl, rfl, hpte⟩ | ⟨habsent, r, halloc, rfl, hpte⟩
    · have hpde : m.1.getPdirEntry K p (pdeAddr uva) ≠ 0 := fun hz =>
        hP (by rw [show m.1.getPtblEntryByVa K p uva = 0 from if_neg (not_not.mpr hz)]; rfl)
      obtain ⟨hrest, hneeded⟩ := hnext hpte (hpte ▸ hP) h hl (fun _ _ => rfl) fun i =>
        ⟨fun hz => ⟨hz, by rintro rfl; exact hpde hz⟩, And.left⟩
      rw [hneeded, if_neg hpde, if_neg hP, Nat.add_zero, ← hrest]
      exact and_iff_right List.not_mem_nil
    · obtain ⟨hiso, ⟨n, hmap⟩, _⟩ := h.allocPage_spec ⟨uva, hu⟩ ⟨pteP ||| pteU ||| pteW, by decide⟩
        halloc
      by_cases hr : r = magicNumber
      · refine ⟨fun hc => absurd (List.mem_singleton.mpr hr.symm) hc.1, fun hg => ?_⟩
        have hfirst := hg.mono (needed_pos hlt hlen habsent)
        rw [← Nat.zero_add (ite _ _ _), allocPage_grants halloc] at hfirst
        exact absurd hr hfirst.1
      · have hP : pte &&& pteP ≠ 0 := by
          rw [hpte, hmap p uva, if_pos ⟨hr, rfl, rfl⟩, entry_and n _ (by decide)]
          decide
        obtain ⟨s', r', halloc', hl'⟩ := allocPage_returns (K := K) hl uva (pteP ||| pteU ||| pteW)
        obtain ⟨rfl, rfl⟩ := Prod.mk.inj (Option.some.inj (halloc'.symm.trans halloc))
        obtain ⟨hrest, hneeded⟩ := hnext hpte hP hiso hl'
          (fun w hw => by rw [hmap p w, if_neg fun hc => hw hc.2.2])
          (h.allocPage_pde ⟨uva, hu⟩ halloc hr)
        rw [hneeded, if_pos habsent, allocPage_grants halloc, ← hrest]
        exact and_congr_left fun _ => ⟨fun _ => hr, fun _ hm => hr (List.mem_singleton.mp hm).symm⟩

theorem copied_copyLoop_own (d : Direction) (p : UserPid) (uva kva : BitVec 32) (len copied : Nat)
    (m : Vmm × KMem) (h : m.1.Isolated K) (hlo : vmUserLo ≤ uva)
    (hhi : uva.toNat + len ≤ vmUserHi.toNat)
    (hok : magicNumber ∉ (copyLoop K d p uva kva len copied m).allocs) :
    ∃ n ≤ len, ((copyLoop K d p uva kva len copied m).copied.isSome = true → n = len) ∧
      Copied K d p uva kva n m (copyLoop K d p uva kva len copied m).mem
        (copyLoop K d p uva kva len copied m).accesses := by
  have hdef : vmUserHi.toNat = 0xF0000000 := rfl
  fun_induction copyLoop K d p uva kva len copied m with
  | case1 => exact ⟨0, Nat.le_refl _, fun _ => rfl, Copied.refl h⟩
  | case2 => exact ⟨0, Nat.zero_le _, Bool.noConfusion, Copied.refl h⟩
  | case3 uva kva len copied m hlen s allocs pte hentry pa size m' rest ih =>
    have hmod : pa.toNat % pageSize = uva.toNat % pageSize := userPa_mod pte uva
    obtain ⟨hu, hpage, hlo', hhi'⟩ := chunk_inRange hlo hhi hlen hmod
    obtain ⟨hallocs, hrest⟩ := not_or.mp fun hc => hok (List.mem_append.mpr hc)
    obtain ⟨hentered, hpte, hP⟩ := copied_userEntry d kva h hu hentry hallocs
    have hsize : size ≤ len := chunkSize_le _ _
    have hpa : pa = userPa (s.getPtblEntryByVa K p uva) uva := by rw [← hpte]
    have hchunk := copied_chunk d kva (m := (s, m.2)) hentered.isolated hu (hpte ▸ hP) hpage hpa
    -- the entry, the chunk, and the rest by induction
    have hfirst := hentered.append (by rwa [BitVec.add_zero, BitVec.add_zero]) hlo (by omega)
    rw [Nat.zero_add] at hfirst
    obtain ⟨n, hn, hall, htail⟩ := ih hfirst.isolated hlo' hhi' hrest
    refine ⟨size + n, by omega, fun hr => ?_, hfirst.append htail hlo (by omega)⟩
    have hlast := hall hr
    omega

/-- What a copy should do: every physical byte it accesses is behind its user address, a copy that
says it copied everything did, and one for which a page could not be allocated says less. -/
structure CopyCorrect (K : KernelLayout) (d : Direction) (p : UserPid) (uva kva len : BitVec 32)
    (m : Vmm × KMem) (run : CopyRun) : Prop where
  own : ∀ a ∈ run.accesses, ∀ k < a.size,
    run.mem.1.Mapped K p (a.va + BitVec.ofNat 32 k) (a.pa + BitVec.ofNat 32 k)
  bytes : run.copied = some len.toNat → Copied K d p uva kva len.toNat m run.mem run.accesses
  short : magicNumber ∈ run.allocs → ∃ n, run.copied = some n ∧ n < len.toNat

theorem allocs_locked (d : Direction) (p : UserPid) (uva kva : BitVec 32) (len copied : Nat)
    (m : Vmm × KMem) (hl : m.1.pmm.locked p = true) :
    (copyLoop K d p uva kva len copied m).allocs = [] := by
  fun_induction copyLoop K d p uva kva len copied m with
  | case1 => rfl
  | case2 => rfl
  | case3 uva kva len copied m hlen s allocs pte hentry pa size m' rest ih =>
    rcases userEntry_cases hentry with ⟨_, rfl, rfl, _⟩ | ⟨_, r, halloc, _⟩
    · exact ih (by rw [memcpy_pmm]; exact hl)
    · -- `alloc_page` does not get the lock
      obtain ⟨r, hr, _⟩ := Option.bind_eq_some_iff.mp halloc
      have hfree := Pmm.containerAlloc_isSome_iff.mp (show (m.1.pmm.containerAlloc p).isSome = true
        by rw [hr]; rfl)
      exact absurd (hl.symm.trans hfree) Bool.noConfusion

/-- **Copies stay in the pages of the process** exactly if, when a copy is neither refused at its
guards nor left spinning on the container's lock, the quota and the memory have all pages that are
absent from the range and all tables that are missing. -/
theorem copy_own_pages {m : Vmm × KMem} (h : m.1.AddressSpaceIsolation K) (d : Direction)
    (p : UserPid) {uva kva len : BitVec 32} (hlo : vmUserLo ≤ uva)
    (hhi : uva.toNat + len.toNat ≤ vmUserHi.toNat) :
    (m.1.pmm.locked p = false → (ptCopy K d p uva kva len m).copied.isSome = true) ∧
    (CopyCorrect K d p uva kva len m (ptCopy K d p uva kva len m) ↔
      (kva + len ≤ vmUserHi → m.1.pmm.locked p = false →
        m.1.pmm.Grants p (m.1.needed K p uva len.toNat))) := by
  have huser : uva + len ≤ vmUserHi := by
    have hdef : vmUserHi.toNat = 0xF0000000 := rfl
    show (uva + len).toNat ≤ vmUserHi.toNat
    rw [BitVec.toNat_add]
    omega
  by_cases hk : kva + len ≤ vmUserHi
  · rw [ptCopy_passed d p m (passesGuards_iff.mpr ⟨hlo, huser, hk⟩)]
    have hrefused : magicNumber ∉ (copyLoop K d p uva kva len.toNat 0 m).allocs ↔
        (kva + len ≤ vmUserHi → m.1.pmm.locked p = false →
          m.1.pmm.Grants p (m.1.needed K p uva len.toNat)) := by
      cases hl : m.1.pmm.locked p with
      | true =>
        rw [allocs_locked d p uva kva len.toNat 0 m hl]
        exact ⟨fun _ _ => Bool.noConfusion, fun _ => List.not_mem_nil⟩
      | false =>
        rw [magicNumber_notMem_allocs_iff d p uva kva len.toNat 0 m h.isolated hl hlo hhi]
        exact ⟨fun hg _ _ => hg, fun hg => hg hk rfl⟩
    rw [← hrefused]
    refine ⟨fun hl => ?_, fun hc hm => ?_, fun hok => ?_⟩
    · rw [copyLoop_returns d p uva kva len.toNat 0 m hl]
      rfl
    · obtain ⟨n, hn, hlt⟩ := hc.short hm
      have hall := copied_copyLoop d p uva kva len.toNat 0 m hn
      omega
    · obtain ⟨n, _, hall, hcopied⟩ :=
        copied_copyLoop_own d p uva kva len.toNat 0 m h.isolated hlo hhi hok
      refine ⟨hcopied.own, fun hr => ?_, fun hm => absurd hm hok⟩
      rw [hall (by rw [hr]; rfl)] at hcopied
      exact hcopied
  · -- the kernel's side is refused: nothing is accessed
    rw [ptCopy_refused d p m (Bool.eq_false_iff.mpr fun hg => hk (passesGuards_iff.mp hg).2.2)]
    refine ⟨fun _ => rfl, fun _ hk' => absurd hk' hk, fun _ => ⟨fun _ ha => by contradiction,
      fun hr => ?_, fun hm => by contradiction⟩⟩
    rw [← Option.some.inj hr]
    exact Copied.refl h.isolated

/-! ## 4. One byte at an absent page -/

theorem ptCopy_absent (d : Direction) {p : Pid} {uva kva : BitVec 32} {s s' : Vmm} (mem : KMem)
    {r : Nat} (hg : passesGuards uva kva 1 = true) (hpde : s.getPdirEntry K p (pdeAddr uva) = 0)
    (hs : s.allocPage K p uva 7 = some (s', r)) :
    (ptCopy K d p uva kva 1 (s, mem)).copied = some 1 ∧
      (ptCopy K d p uva kva 1 (s, mem)).allocs = [r] ∧
      (ptCopy K d p uva kva 1 (s, mem)).accesses =
        [⟨uva, userPa (s'.getPtblEntryByVa K p uva) uva, 1⟩] ∧
      (d = .copyin → (ptCopy K d p uva kva 1 (s, mem)).mem.1 = s') := by
  have hentry : userEntry K p uva s = some (s', [r], s'.getPtblEntryByVa K p uva) := by
    have hzero : s.getPtblEntryByVa K p uva = 0 := if_neg (not_not.mpr hpde)
    unfold userEntry
    rw [hzero, if_pos (by decide), show pteP ||| pteU ||| pteW = 7 from rfl, hs]
    rfl
  have hsize : ∀ pa : BitVec 32, chunkSize pa 1 = 1 := fun pa =>
    Nat.le_antisymm (chunkSize_le pa 1) (chunkSize_pos pa Nat.one_ne_zero)
  rw [ptCopy_passed d p _ hg]
  unfold copyLoop
  rw [dif_neg (by decide)]
  rw [hentry]
  dsimp only
  rw [show BitVec.toNat (1 : BitVec 32) = 1 from rfl, hsize]
  unfold copyLoop
  rw [dif_pos rfl]
  refine ⟨rfl, rfl, rfl, ?_⟩
  rintro rfl
  rfl

/-- A child that may have both pages reads the page at `VM_USERLO`: the page is mapped there, its table
is in the other one, and the bytes are the page's. -/
theorem copy_own_pages_fresh :
    ∃ past s, Run sampleLayout Pmm.twoPages past s ∧
      s.getPdirEntry sampleLayout firstChild (pdeAddr firstAddr) = 0 ∧
      CopyCorrect sampleLayout .copyin firstChild firstAddr 0x100000 4096 (s, fun _ => 0)
        (ptCopy sampleLayout .copyin firstChild firstAddr 0x100000 4096 (s, fun _ => 0)) := by
  obtain ⟨past, s, hrun, _, hiso, hinv, hchild, hempty⟩ := sample_child 2 (by decide)
  refine ⟨past, s, hrun, hempty _ (kernelPde_pdeAddr firstAddr), ?_⟩
  refine (copy_own_pages (m := (s, fun _ => 0)) hiso.isolation .copyin firstChild (by decide)
    (by decide)).2.mpr fun _ _ => ?_
  have hgrants : s.pmm.Grants firstChild 2 := by
    rw [hinv.grants_iff (by rw [hchild]), hchild]
    decide
  exact hgrants.mono (needed_page (by decide))

/-- A child without pages reads a byte at `VM_USERLO`: nothing can be mapped there, the byte at the
physical address 0 is read instead, and the copy says that it copied everything. -/
theorem copy_reads_page_zero :
    ∃ past s, Run sampleLayout Pmm.twoPages past s ∧
      ∃ run, run = ptCopyin sampleLayout firstChild firstAddr 0x100000 1 (s, fun _ => 0) ∧
        magicNumber ∈ run.allocs ∧ run.copied = some 1 ∧
        ∃ a ∈ run.accesses, a.va = firstAddr ∧ a.pa = 0 ∧ a.size = 1 ∧
          run.mem.1.getPtblEntryByVa sampleLayout firstChild a.va &&& pteP = 0 := by
  obtain ⟨past, s, hrun, _, hpde, _, hrefused⟩ := sample_refused
  obtain ⟨hcopied, hallocs, haccesses, hmem⟩ := ptCopy_absent .copyin (fun _ => 0)
    (show passesGuards firstAddr 0x100000 1 = true by decide) hpde hrefused
  have hzero : s.getPtblEntryByVa sampleLayout firstChild firstAddr = 0 :=
    if_neg (not_not.mpr hpde)
  refine ⟨past, s, hrun, _, rfl, ?_, hcopied, ?_⟩
  · show magicNumber ∈ (ptCopy _ _ _ _ _ _ _).allocs
    rw [hallocs]
    exact List.mem_singleton_self _
  · refine ⟨⟨firstAddr, userPa 0 firstAddr, 1⟩, ?_, rfl, by decide, rfl, ?_⟩
    · show _ ∈ (ptCopy _ _ _ _ _ _ _).accesses
      rw [haccesses, hzero]
      exact List.mem_singleton_self _
    · show (ptCopy _ _ _ _ _ _ _).mem.1.getPtblEntryByVa _ _ _ &&& pteP = 0
      rw [hmem rfl, hzero]
      rfl

end MCertiKOS
