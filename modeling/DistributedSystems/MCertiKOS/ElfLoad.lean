import DistributedSystems.MCertiKOS.CopyNeeds
import DistributedSystems.MCertiKOS.Elf

/-!
# What a loaded program sees

`elf_load` maps and fills the pages of every segment one after another.  A page that was filled keeps
its entry and its bytes while the others are loaded, since no page is mapped twice and no physical
page is used twice.  As many pages are charged to the process as it maps and needs for tables.
-/

namespace MCertiKOS

open Spans Vmm

variable {K : KernelLayout}

/-! ## 1. Reads of a process -/

def Vmm.userLoad (K : KernelLayout) (s : Vmm) (p : Pid) (va : BitVec 32) : Option (BitVec 8) :=
  (s.translate K p va).map fun page => getByte (s.phys page (wordAddr va)) (va.toNat % 4)

theorem translate_present {s : Vmm} {p : Pid} {va : BitVec 32}
    (ht : s.getPdirEntry K p (pdeAddr va) = 0 ∨ s.getPdirEntry K p (pdeAddr va) &&& pteP ≠ 0)
    (hP : s.getPtblEntryByVa K p va &&& pteP ≠ 0) :
    s.translate K p va = some (pageOf (s.getPtblEntryByVa K p va)) := by
  have hpde : s.getPdirEntry K p (pdeAddr va) ≠ 0 := by
    intro hz
    have hzero : s.getPtblEntryByVa K p va = 0 := if_neg (not_not.mpr hz)
    rw [hzero] at hP
    exact hP BitVec.zero_and
  have hentry : s.getPtblEntryByVa K p va =
      s.phys (pageOf (s.getPdirEntry K p (pdeAddr va))) (pteAddr va) := by
    unfold getPtblEntryByVa getPtblEntry
    rw [if_pos hpde, ptblPage_eq]
  unfold Vmm.translate getPdirEntryByVa
  rw [if_neg (ht.resolve_left hpde), ← hentry, if_neg hP]

theorem userLoad_eq_userByte {s : Vmm} {p : Pid} {va : BitVec 32}
    (ht : s.getPdirEntry K p (pdeAddr va) = 0 ∨ s.getPdirEntry K p (pdeAddr va) &&& pteP ≠ 0)
    (hP : s.getPtblEntryByVa K p va &&& pteP ≠ 0) : s.userLoad K p va = s.userByte K p va := by
  have hword : ∀ pte : BitVec 32, wordAddr (userPa pte va) = wordAddr va := by
    intro pte
    apply Fin.ext
    rw [wordAddr_val, wordAddr_val, userPa_toNat, show pageSize = 4096 from rfl]
    omega
  have hbyte : ∀ pte : BitVec 32, (userPa pte va).toNat % 4 = va.toNat % 4 := by
    intro pte
    rw [userPa_toNat, show pageSize = 4096 from rfl]
    omega
  unfold userLoad
  rw [translate_present ht hP, userByte_eq hP]
  unfold readByte
  rw [pageOf_userPa, hword, hbyte]
  rfl

/-! ## 2. Pages -/

theorem toNat_rounddown (a : BitVec 32) :
    (rounddown a pageBytes).toNat = a.toNat / pageSize * pageSize := by
  have hlt := a.isLt
  unfold rounddown pageBytes
  rw [BitVec.toNat_sub, BitVec.toNat_umod, show pageSize = 4096 from rfl]
  show (2 ^ 32 - a.toNat % 4096 + a.toNat) % 2 ^ 32 = _
  omega

theorem toNat_roundup {a : BitVec 32} (h : a.toNat ≤ vmUserHi.toNat) :
    (roundup a pageBytes).toNat = (a.toNat + (pageSize - 1)) / pageSize * pageSize := by
  have hadd : (a + pageBytes - 1).toNat = a.toNat + 4095 := by
    have hdef : vmUserHi.toNat = 0xF0000000 := rfl
    unfold pageBytes
    bv_omega
  unfold roundup
  rw [toNat_rounddown, hadd]
  rfl

variable {va w : BitVec 32}

theorem samePage_iff_offset (h : va.toNat % pageSize = 0) :
    SamePage w va ↔ offset va w < pageSize := by
  have hva := va.isLt
  have hw := w.isLt
  rw [samePage_iff, show pageSize = 4096 from rfl] at *
  unfold offset
  rw [BitVec.toNat_sub]
  omega

theorem toNat_of_offset (hu : va < vmUserHi) (hw : offset va w < pageSize) :
    w.toNat = va.toNat + offset va w := by
  have hhi : va.toNat < 0xF0000000 := hu
  have hlt := w.isLt
  rw [show pageSize = 4096 from rfl] at hw
  unfold offset at hw ⊢
  rw [BitVec.toNat_sub] at hw ⊢
  omega

theorem userAddr_of_samePage (hu : vmUserLo ≤ va ∧ va < vmUserHi) (h : SamePage w va) :
    vmUserLo ≤ w ∧ w < vmUserHi := by
  have hlo : vmUserLo.toNat ≤ va.toNat := hu.1
  have hhi : va.toNat < vmUserHi.toNat := hu.2
  have hpage := (samePage_iff w va).mp h
  rw [show vmUserLo.toNat = 0x40000000 from rfl] at hlo
  rw [show vmUserHi.toNat = 0xF0000000 from rfl] at hhi
  constructor
  · show 0x40000000 ≤ w.toNat
    omega
  · show w.toNat < 0xF0000000
    omega

/-- A process with unlocked containers, whose tables are pages of its own that the processor accepts. -/
structure Ready (K : KernelLayout) (p : UserPid) (s : Vmm) : Prop where
  isolated : s.Isolated K
  inv : s.pmm.Inv
  used : (s.pmm.container p).used = true
  tables : ∀ i, kernelPde i = false → s.getPdirEntry K p i = 0 ∨ s.getPdirEntry K p i &&& pteP ≠ 0

/-! ## 3. Writes to one page -/

/-- The `n` bytes from `va` were written, with `src w` at `w`, and nothing else that the process
sees. -/
structure Written (K : KernelLayout) (p : UserPid) (va : BitVec 32) (n : Nat)
    (src : BitVec 32 → BitVec 8) (s s' : Vmm) : Prop where
  isolated : s'.Isolated K
  pmm : s'.pmm = s.pmm
  pdir : ∀ i, s'.getPdirEntry K p i = s.getPdirEntry K p i
  entries : ∀ w, s'.getPtblEntryByVa K p w = s.getPtblEntryByVa K p w
  bytes : ∀ w, offset va w < n → s'.userByte K p w = some (src w)
  others : ∀ (w : UserAddr) (b : BitVec 8), ¬ offset va w < n → s.userByte K p w = some b →
    s'.userByte K p w = some b

section Writes

variable {p : UserPid} {va : BitVec 32} {s s₁ s₂ : Vmm}

variable {n : Nat}

variable {src : BitVec 32 → BitVec 8}

theorem Written.ready (h : Written K p va n src s s₁) (hs : Ready K p s) : Ready K p s₁ where
  isolated := h.isolated
  inv := h.pmm ▸ hs.inv
  used := h.pmm ▸ hs.used
  tables i hi := by
    rw [h.pdir]
    exact hs.tables i hi

theorem Written.overwrite {k : Nat} {src' : BitVec 32 → BitVec 8} (h : Written K p va n src s s₁)
    (h' : Written K p va k src' s₁ s₂) (hk : k ≤ n) (hlo : vmUserLo ≤ va)
    (hhi : va.toNat + n ≤ vmUserHi.toNat) :
    Written K p va n (fun w => if offset va w < k then src' w else src w) s s₂ where
  isolated := h'.isolated
  pmm := h'.pmm.trans h.pmm
  pdir i := (h'.pdir i).trans (h.pdir i)
  entries w := (h'.entries w).trans (h.entries w)
  bytes w hw := by
    by_cases hwk : offset va w < k
    · rw [h'.bytes w hwk, if_pos hwk]
    · rw [if_neg hwk]
      exact h'.others ⟨w, userAddr_of_offset hlo hhi hw⟩ _ hwk (h.bytes w hw)
  others w b hw hb := h'.others w b (by omega) (h.others w b hw hb)

theorem Written.congr {src' : BitVec 32 → BitVec 8} (h : Written K p va n src s s₁)
    (hsrc : ∀ w, offset va w < n → src w = src' w) :
    Written K p va n src' s s₁ where
  isolated := h.isolated
  pmm := h.pmm
  pdir := h.pdir
  entries := h.entries
  bytes w hw := by rw [h.bytes w hw, hsrc w hw]
  others := h.others

theorem written_memcpy (h : s.Isolated K) (hu : vmUserLo ≤ va ∧ va < vmUserHi)
    (hP : s.getPtblEntryByVa K p va &&& pteP ≠ 0) (hn : n ≤ pageSize - va.toNat % pageSize)
    (kva : BitVec 32) (mem : KMem) :
    Written K p va n (fun w => mem (kva + (w - va))) s
      (memcpy .copyout n (userPa (s.getPtblEntryByVa K p va) va) kva (s, mem)).1 := by
  have hsmall : n ≤ 2 ^ 32 := Nat.le_trans hn (Nat.le_trans (Nat.sub_le _ _) (by decide))
  obtain ⟨hiso, hentries, hpdes⟩ := h.memcpy_chunk (m := (s, mem)) .copyout kva hu hP hn rfl
  have hcopied := copied_chunk .copyout kva (m := (s, mem)) h hu hP hn rfl
  refine ⟨hiso, memcpy_pmm .copyout n _ kva (s, mem), hpdes p, hentries p, fun w hw => ?_,
    fun w b hw hb => ?_⟩
  · rw [hcopied.bytes w hw, (memcpy_copyout n hsmall _ kva (s, mem)).1]
  · exact hcopied.users p w b (Or.inr fun hc => hw hc.2) hb

theorem memset_eq_memcpy (c : BitVec 8) (n : Nat) (pa kva : BitVec 32) (s : Vmm) :
    memset c n pa s = (memcpy .copyout n pa kva (s, fun _ => c)).1 := by
  induction n generalizing pa kva s with
  | zero => rfl
  | succ n ih => exact ih (pa + 1) (kva + 1) (s.writeByte pa c)

theorem written_memset (h : s.Isolated K) (hu : vmUserLo ≤ va ∧ va < vmUserHi)
    (hP : s.getPtblEntryByVa K p va &&& pteP ≠ 0) (hn : n ≤ pageSize - va.toNat % pageSize)
    (c : BitVec 8) :
    Written K p va n (fun _ => c) s (memset c n (userPa (s.getPtblEntryByVa K p va) va) s) := by
  rw [memset_eq_memcpy c n _ 0 s]
  exact written_memcpy h hu hP hn 0 fun _ => c

theorem chunkSize_eq {pte : BitVec 32} (hn : n ≤ pageSize - va.toNat % pageSize) :
    chunkSize (userPa pte va) n = n := by
  unfold chunkSize
  rw [userPa_mod]
  split <;> omega

theorem userEntry_present (hP : s.getPtblEntryByVa K p va &&& pteP ≠ 0) :
    userEntry K p va s = some (s, [], s.getPtblEntryByVa K p va) := if_neg hP

theorem returned_copyLoop (d : Direction) (hP : s.getPtblEntryByVa K p va &&& pteP ≠ 0)
    (hn : n ≤ pageSize - va.toNat % pageSize) (kva : BitVec 32) (copied : Nat) (mem : KMem) :
    (copyLoop K d p va kva n copied (s, mem)).returned =
      some (memcpy d n (userPa (s.getPtblEntryByVa K p va) va) kva (s, mem)) := by
  unfold copyLoop
  by_cases hzero : n = 0
  · subst hzero
    rfl
  · rw [dif_neg hzero]
    rw [userEntry_present hP]
    dsimp only
    rw [chunkSize_eq hn, Nat.sub_self]
    unfold copyLoop
    rw [dif_pos rfl]
    rfl

theorem written_ptCopyout (h : s.Isolated K) (hu : vmUserLo ≤ va ∧ va < vmUserHi)
    (hP : s.getPtblEntryByVa K p va &&& pteP ≠ 0) {kva len : BitVec 32}
    (hg : passesGuards va kva len = true) (hn : len.toNat ≤ pageSize - va.toNat % pageSize)
    (mem : KMem) :
    ∃ s', (ptCopyout K kva p va len (s, mem)).returned = some (s', mem) ∧
      Written K p va len.toNat (fun w => mem (kva + (w - va))) s s' := by
  refine ⟨_, ?_, written_memcpy h hu hP hn kva mem⟩
  unfold ptCopyout
  rw [ptCopy_passed .copyout p (s, mem) hg, returned_copyLoop .copyout hP hn kva 0 mem]
  have hmem := (memcpy_copyout len.toNat (Nat.le_of_lt len.isLt)
    (userPa (s.getPtblEntryByVa K p va) va) kva (s, mem)).1
  exact congrArg some (Prod.ext rfl hmem)

theorem written_ptMemset (h : s.Isolated K) (hu : vmUserLo ≤ va ∧ va < vmUserHi)
    (hP : s.getPtblEntryByVa K p va &&& pteP ≠ 0) (c : BitVec 8) {len : BitVec 32}
    (hn : len.toNat ≤ pageSize - va.toNat % pageSize) :
    ∃ s', ptMemset K p va c len s = some (s', len.toNat) ∧
      Written K p va len.toNat (fun _ => c) s s' := by
  refine ⟨_, ?_, written_memset h hu hP hn c⟩
  unfold ptMemset memsetLoop
  by_cases hzero : len.toNat = 0
  · rw [dif_pos hzero, hzero]
    rfl
  · rw [dif_neg hzero, userEntry_present hP]
    dsimp only
    rw [chunkSize_eq hn, Nat.sub_self]
    unfold memsetLoop
    rw [dif_pos rfl, Nat.zero_add]

end Writes

/-! ## 4. Quotas -/

/-- The directory entries that the pages need and that are not set. -/
def missingTables (K : KernelLayout) (p : Pid) (s : Vmm) (pages : List (BitVec 32)) :
    Finset PtIndex :=
  (pages.map pdeAddr).toFinset.filter fun i => s.getPdirEntry K p i = 0

/-- The process may use as many pages more as are to be mapped and as their tables take. -/
def Affords (K : KernelLayout) (p : Pid) (s : Vmm) (pages : List (BitVec 32)) : Prop :=
  (s.pmm.container p).usage.toNat + pages.length + (missingTables K p s pages).card ≤
    (s.pmm.container p).quota.toNat

structure Allocated (K : KernelLayout) (p : UserPid) (va perm : BitVec 32) (s s' : Vmm) : Prop where
  ready : Ready K p s'
  quota : (s'.pmm.container p).quota = (s.pmm.container p).quota
  usage : (s'.pmm.container p).usage.toNat = (s.pmm.container p).usage.toNat + 1 +
    if s.getPdirEntry K p (pdeAddr va) = 0 then 1 else 0
  pdir : ∀ i, s'.getPdirEntry K p i = 0 ↔ s.getPdirEntry K p i = 0 ∧ i ≠ pdeAddr va
  entry : ∃ n, ∀ w, SamePage w va → s'.getPtblEntryByVa K p w = pageAddr n ||| perm
  others : ∀ w, ¬ SamePage w va → s'.getPtblEntryByVa K p w = s.getPtblEntryByVa K p w
  bytes : ∀ (w : UserAddr) (b : BitVec 8), ¬ SamePage (w : BitVec 32) va →
    s.userByte K p w = some b → s'.userByte K p w = some b

section Quotas

variable {p : UserPid} {s s' : Vmm}

theorem Affords.first {pages : List (BitVec 32)} (h : Affords K p s (va :: pages)) :
    (s.pmm.container p).usage.toNat + 1 +
      (if s.getPdirEntry K p (pdeAddr va) = 0 then 1 else 0) ≤ (s.pmm.container p).quota.toNat := by
  unfold Affords at h
  rw [List.length_cons] at h
  split
  · rename_i hz
    have hmem : pdeAddr va ∈ missingTables K p s (va :: pages) := by
      simp [missingTables, hz]
    have hpos := Finset.card_pos.mpr ⟨_, hmem⟩
    omega
  · omega

theorem Affords.rest {perm : BitVec 32} {pages : List (BitVec 32)} (h : Affords K p s (va :: pages))
    (ha : Allocated K p va perm s s') :
    Affords K p s' pages := by
  have hsub : missingTables K p s' pages ⊆ (missingTables K p s (va :: pages)).erase (pdeAddr va) := by
    intro i hi
    simp only [missingTables, Finset.mem_filter, List.mem_toFinset, ha.pdir] at hi
    simp only [missingTables, Finset.mem_erase, Finset.mem_filter, List.mem_toFinset,
      List.map_cons, List.mem_cons]
    exact ⟨hi.2.2, Or.inr hi.1, hi.2.1⟩
  have hcard := Finset.card_le_card hsub
  have husage := ha.usage
  unfold Affords at h ⊢
  rw [List.length_cons] at h
  rw [ha.quota]
  by_cases hz : s.getPdirEntry K p (pdeAddr va) = 0
  · have hmem : pdeAddr va ∈ missingTables K p s (va :: pages) := by
      simp [missingTables, hz]
    have herase := Finset.card_erase_add_one hmem
    rw [if_pos hz] at husage
    omega
  · have hle := Finset.card_erase_le (s := missingTables K p s (va :: pages)) (a := pdeAddr va)
    rw [if_neg hz] at husage
    omega

theorem Ready.allocPage (h : Ready K p s) (va : UserAddr) (perm : Perm)
    (hroom : (s.pmm.container p).usage.toNat + 1 +
      (if s.getPdirEntry K p (pdeAddr va) = 0 then 1 else 0) ≤ (s.pmm.container p).quota.toNat) :
    ∃ s' r, s.allocPage K p va perm = some (s', r) ∧ Allocated K p va perm s s' := by
  obtain ⟨pmm, n, halloc, hn, hinv, hcont⟩ :=
    h.inv.alloc_room h.used ((h.inv.sle_iff p).mpr (by omega))
  have hused : (pmm.container p).used = true := by rw [hcont, h.used]
  have husage : (pmm.container p).usage.toNat = (s.pmm.container p).usage.toNat + 1 := by
    rw [hcont]
    exact h.inv.succ_usage_toNat p
  have hquota : (pmm.container p).quota = (s.pmm.container p).quota := by rw [hcont]
  have hiso := h.isolated.withPmm (Pmm.containerAlloc_mono halloc)
  -- the mapping, and the containers after it
  obtain ⟨s', r, hmap, hr, hinv', hused', hquota', husage'⟩ : ∃ s' r,
      ({ s with pmm := pmm } : Vmm).mapPage K p va n perm = some (s', r) ∧ r ≠ magicNumber ∧
      s'.pmm.Inv ∧ (s'.pmm.container p).used = true ∧
      (s'.pmm.container p).quota = (s.pmm.container p).quota ∧
      (s'.pmm.container p).usage.toNat = (s.pmm.container p).usage.toNat + 1 +
        if s.getPdirEntry K p (pdeAddr va) = 0 then 1 else 0 := by
    by_cases hpde : s.getPdirEntry K p (pdeAddr va) = 0
    · rw [if_pos hpde] at hroom ⊢
      obtain ⟨pmm₂, k, halloc₂, hk, hinv₂, hcont₂⟩ :=
        hinv.alloc_room hused ((hinv.sle_iff p).mpr (by rw [husage, hquota]; omega))
      obtain ⟨s', hmap⟩ := mapPage_fresh (s := { s with pmm := pmm }) hpde halloc₂ hk n perm
      have hpmm : s'.pmm = pmm₂ := by
        rcases mapPage_pmm hmap with ⟨hne, _⟩ | ⟨_, _, halloc'⟩
        · exact absurd hpde hne
        · exact (Prod.mk.inj (Option.some.inj (halloc₂.symm.trans halloc'))).1.symm
      refine ⟨s', k, hmap, Pmm.containerAlloc_ne_magicNumber halloc₂ hk, ?_⟩
      rw [hpmm, hcont₂, hinv.succ_usage_toNat p, husage]
      exact ⟨hinv₂, hused, hquota, rfl⟩
    · rw [if_neg hpde]
      refine ⟨_, _, if_neg hpde, magicNumber_ne_pageOf _, ?_⟩
      exact ⟨hinv, hused, hquota, husage⟩
  have hs : s.allocPage K p va perm = some (s', r) := by rw [allocPage_eq halloc hn, hmap]
  obtain ⟨hiso', ⟨page, hentries⟩, hdata⟩ := h.isolated.allocPage_spec va perm hs
  have hpdir : ∀ i, s'.getPdirEntry K p i =
      if i = pdeAddr va ∧ s.getPdirEntry K p (pdeAddr va) = 0 then pageAddr r ||| ptPermPtu
      else s.getPdirEntry K p i := by
    intro i
    refine (hiso.getPdirEntry_mapPage hmap p i).trans ?_
    simp only [true_and, ne_eq, hr, not_false_eq_true, and_true]
    rfl
  have hset : (pageAddr r ||| ptPermPtu) &&& pteP ≠ 0 := by
    rw [entry_and r ptPermPtu (by decide)]
    decide
  have hothers : ∀ w, ¬ SamePage w va → s'.getPtblEntryByVa K p w = s.getPtblEntryByVa K p w := by
    intro w hw
    rw [hentries p w, if_neg fun hc => hw hc.2.2]
  refine ⟨s', r, hs, ⟨hiso', hinv', hused', fun i hi => ?_⟩, hquota', husage', fun i => ?_,
    ⟨page, fun w hw => ?_⟩, hothers, fun w b hw hb => ?_⟩
  · rw [hpdir]
    split
    · exact Or.inr hset
    · exact h.tables i hi
  · rw [hpdir]
    split
    · rename_i hc
      constructor
      · intro hz
        rw [hz] at hset
        exact absurd BitVec.zero_and hset
      · exact fun hz => absurd hc.1 hz.2
    · rename_i hc
      constructor
      · intro hz
        exact ⟨hz, fun he => hc ⟨he, he ▸ hz⟩⟩
      · exact fun hz => hz.1
  · rw [hentries p w, if_pos ⟨hr, rfl, hw⟩]
  · have hP := present_of_userByte hb
    rw [← hb]
    exact userByte_of_agree (hothers w hw) (hdata p _ _ _ (uses_of_present hP))

end Quotas

/-! ## 5. One page of a segment -/

/-- A segment of the image at `exe` that can be loaded: it lies among the user addresses, the part in
the file lies in the kernel's memory, and both are equally far into a page. -/
structure SegmentFits (exe : BitVec 32) (ph : Proghdr) : Prop where
  congr : ph.va.toNat % pageSize = ph.offset.toNat % pageSize
  filesz_le : ph.filesz ≤ ph.memsz
  lo : vmUserLo ≤ ph.va
  hi : ph.va.toNat + ph.memsz.toNat ≤ vmUserHi.toNat
  file : ph.filesz ≠ 0 → exe.toNat + ph.offset.toNat + ph.filesz.toNat ≤ vmUserLo.toNat

/-- What the pages of a segment are filled with.  In front of the segment there are the bytes that
are in front of it in the file. -/
def segmentByte (mem : KMem) (exe : BitVec 32) (ph : Proghdr) (w : BitVec 32) : BitVec 8 :=
  if ph.filesz ≠ 0 ∧ w < ph.va + ph.filesz then mem (exe + ph.offset + (w - ph.va)) else 0

section Page

variable {p : UserPid} {exe va fa : BitVec 32} {ph : Proghdr}

theorem SegmentFits.toNat_zva (h : SegmentFits exe ph) :
    (ph.va + ph.filesz).toNat = ph.va.toNat + ph.filesz.toNat := by
  have hle : ph.filesz.toNat ≤ ph.memsz.toNat := h.filesz_le
  have hhi := h.hi
  rw [show vmUserHi.toNat = 0xF0000000 from rfl] at hhi
  rw [BitVec.toNat_add]
  omega

theorem SegmentFits.toNat_fa (h : SegmentFits exe ph) (hfile : ph.filesz ≠ 0)
    (hfirst : ph.va.toNat / pageSize * pageSize ≤ va.toNat)
    (hfa : ∀ w, fa + (w - va) = exe + ph.offset + (w - ph.va))
    (hva : va.toNat < ph.va.toNat + ph.filesz.toNat) :
    fa.toNat + ph.va.toNat = exe.toNat + ph.offset.toNat + va.toNat := by
  have hself := hfa va
  have hkern := h.file hfile
  have hcongr := h.congr
  rw [show pageSize = 4096 from rfl] at hfirst hcongr
  rw [show vmUserLo.toNat = 0x40000000 from rfl] at hkern
  rw [BitVec.sub_self, BitVec.add_zero] at hself
  rw [hself, BitVec.toNat_add, BitVec.toNat_add, BitVec.toNat_sub]
  have hlt := va.isLt
  have hlt' := ph.va.isLt
  omega

theorem SegmentFits.passesGuards (h : SegmentFits exe ph) (hfile : ph.filesz ≠ 0)
    (hlo : vmUserLo ≤ va) (hfirst : ph.va.toNat / pageSize * pageSize ≤ va.toNat)
    (hfa : ∀ w, fa + (w - va) = exe + ph.offset + (w - ph.va)) (len : BitVec 32)
    (hpos : 0 < len.toNat) (hin : va.toNat + len.toNat ≤ ph.va.toNat + ph.filesz.toNat) :
    passesGuards va fa len = true := by
  have hkern := h.file hfile
  have hle : ph.filesz.toNat ≤ ph.memsz.toNat := h.filesz_le
  have hend := h.hi
  have hplace := h.toNat_fa hfile hfirst hfa (by omega)
  rw [show vmUserLo.toNat = 0x40000000 from rfl] at hkern
  rw [show vmUserHi.toNat = 0xF0000000 from rfl] at hend
  rw [passesGuards_iff]
  refine ⟨hlo, ?_, ?_⟩
  · show (va + len).toNat ≤ 0xF0000000
    rw [BitVec.toNat_add]
    omega
  · show (fa + len).toNat ≤ 0xF0000000
    rw [BitVec.toNat_add]
    omega

theorem fillPage_written (h : SegmentFits exe ph) {s : Vmm} (hiso : s.Isolated K)
    (hu : vmUserLo ≤ va ∧ va < vmUserHi) (halign : va.toNat % pageSize = 0)
    (hP : s.getPtblEntryByVa K p va &&& pteP ≠ 0)
    (hfirst : ph.va.toNat / pageSize * pageSize ≤ va.toNat)
    (hfa : ∀ w, fa + (w - va) = exe + ph.offset + (w - ph.va)) (mem : KMem) :
    ∃ s', fillPage K p ph va fa (s, mem) = some (s', mem) ∧
      Written K p va pageSize (segmentByte mem exe ph) s s' := by
  have hsize : pageBytes.toNat = pageSize := rfl
  have hpage : pageBytes.toNat ≤ pageSize - va.toNat % pageSize := by
    rw [halign]
    exact Nat.le_refl _
  have hhi : va.toNat < 0xF0000000 := hu.2
  have hzva := h.toNat_zva
  have hround := toNat_rounddown (ph.va + ph.filesz)
  rw [hzva] at hround
  -- whether an address of the page is in front of the end of the file's part
  have hlt : ∀ w, offset va w < pageSize →
      (w < ph.va + ph.filesz ↔ va.toNat + offset va w < ph.va.toNat + ph.filesz.toNat) := by
    intro w hw
    rw [BitVec.lt_def, hzva, toNat_of_offset hu.2 hw]
  unfold fillPage
  by_cases hwhole : va < rounddown (ph.va + ph.filesz) pageBytes
  · -- a page of the file
    rw [if_pos hwhole]
    rw [BitVec.lt_def, hround] at hwhole
    rw [show pageSize = 4096 from rfl] at hwhole halign hfirst hsize
    have hfile : ph.filesz ≠ 0 := by
      intro hz
      have hz' : ph.filesz.toNat = 0 := by rw [hz]; rfl
      omega
    have hg := h.passesGuards hfile hu.1 hfirst hfa pageBytes (by decide) (by omega)
    obtain ⟨s', hs', hwritten⟩ := written_ptCopyout hiso hu hP hg hpage mem
    refine ⟨s', hs', hwritten.congr fun w hw => ?_⟩
    have hin : w < ph.va + ph.filesz := (hlt w hw).mpr (by omega)
    unfold segmentByte
    rw [if_pos ⟨hfile, hin⟩, hfa]
  · rw [if_neg hwhole]
    rw [BitVec.lt_def, hround] at hwhole
    obtain ⟨s₁, hs₁, hzero⟩ := written_ptMemset hiso hu hP 0 hpage
    rw [hs₁]
    by_cases hpart : va < ph.va + ph.filesz ∧ ph.filesz ≠ 0
    · -- the page in which the file's part ends
      rw [if_pos hpart]
      have hva : va.toNat < ph.va.toNat + ph.filesz.toNat := hzva ▸ hpart.1
      have hlen : (ph.va + ph.filesz - va).toNat = ph.va.toNat + ph.filesz.toNat - va.toNat := by
        have hlt' := (ph.va + ph.filesz).isLt
        rw [BitVec.toNat_sub, hzva]
        omega
      have hshort : (ph.va + ph.filesz - va).toNat ≤ pageBytes.toNat := by
        rw [show pageSize = 4096 from rfl] at hwhole
        show _ ≤ 4096
        omega
      have hg := h.passesGuards hpart.2 hu.1 hfirst hfa (ph.va + ph.filesz - va)
        (by omega) (by omega)
      have hP₁ : s₁.getPtblEntryByVa K p va &&& pteP ≠ 0 := by
        rw [hzero.entries]
        exact hP
      obtain ⟨s₂, hs₂, hcopied⟩ := written_ptCopyout hzero.isolated hu hP₁ hg
        (Nat.le_trans hshort hpage) mem
      refine ⟨s₂, hs₂, (hzero.overwrite hcopied hshort hu.1 ?_).congr fun w hw => ?_⟩
      · rw [show pageSize = 4096 from rfl] at halign
        show va.toNat + 4096 ≤ 0xF0000000
        omega
      · have hiff := hlt w hw
        unfold segmentByte
        rw [hlen]
        by_cases hin : va.toNat + offset va w < ph.va.toNat + ph.filesz.toNat
        · rw [if_pos (by omega), if_pos ⟨hpart.2, hiff.mpr hin⟩, hfa]
        · rw [if_neg (by omega), if_neg fun hc => hin (hiff.mp hc.2)]
    · -- a page behind the file's part
      rw [if_neg hpart]
      refine ⟨s₁, rfl, hzero.congr fun w hw => ?_⟩
      have hiff := hlt w hw
      unfold segmentByte
      rw [if_neg]
      intro hc
      have hva : ¬ va.toNat < ph.va.toNat + ph.filesz.toNat := by
        intro hin
        exact hpart ⟨by rw [BitVec.lt_def, hzva]; exact hin, hc.1⟩
      have hin := hiff.mp hc.2
      omega

end Page

/-! ## 6. Pages that are in place -/

structure PageImage where
  va : BitVec 32
  perm : BitVec 32
  byte : BitVec 32 → BitVec 8

structure Holds (K : KernelLayout) (p : UserPid) (s : Vmm) (img : PageImage) : Prop where
  entry : ∃ n, ∀ w, SamePage w img.va → s.getPtblEntryByVa K p w = pageAddr n ||| img.perm
  bytes : ∀ w, SamePage w img.va → s.userByte K p w = some (img.byte w)

/-- The pages `imgs` were put in place, with quota left for the pages `rest`; every other page of the
process is as it was. -/
structure Installed (K : KernelLayout) (p : UserPid) (imgs : List PageImage)
    (rest : List (BitVec 32)) (m m' : Vmm × KMem) : Prop where
  mem : m'.2 = m.2
  ready : Ready K p m'.1
  affords : Affords K p m'.1 rest
  users : ∀ img ∈ imgs, vmUserLo ≤ img.va ∧ img.va < vmUserHi
  holds : ∀ img ∈ imgs, Holds K p m'.1 img
  keeps : ∀ img : PageImage, vmUserLo ≤ img.va ∧ img.va < vmUserHi →
    (∀ i ∈ imgs, ¬ SamePage img.va i.va) → Holds K p m.1 img → Holds K p m'.1 img

section Installing

variable {p : UserPid} {exe : BitVec 32} {ph : Proghdr} {m m₁ m₂ : Vmm × KMem}
  {imgs imgs' : List PageImage} {rest rest' : List (BitVec 32)}

theorem SamePage.symm (h : SamePage va w) : SamePage w va := Eq.symm h

theorem SamePage.trans {x : BitVec 32} (h : SamePage va w) (h' : SamePage w x) :
    SamePage va x := Eq.trans h h'

theorem Installed.refl (h : Ready K p m.1) (ha : Affords K p m.1 rest) :
    Installed K p [] rest m m where
  mem := rfl
  ready := h
  affords := ha
  users _ hi := by contradiction
  holds _ hi := by contradiction
  keeps _ _ _ hi := hi

theorem Installed.append (h : Installed K p imgs rest' m m₁)
    (h' : Installed K p imgs' rest m₁ m₂)
    (hne : ∀ i ∈ imgs, ∀ j ∈ imgs', ¬ SamePage i.va j.va) :
    Installed K p (imgs ++ imgs') rest m m₂ where
  mem := h'.mem.trans h.mem
  ready := h'.ready
  affords := h'.affords
  users i hi := by
    rcases List.mem_append.mp hi with hi | hi
    · exact h.users i hi
    · exact h'.users i hi
  holds i hi := by
    rcases List.mem_append.mp hi with hi | hi
    · exact h'.keeps i (h.users i hi) (hne i hi) (h.holds i hi)
    · exact h'.holds i hi
  keeps i hu hi hold := by
    refine h'.keeps i hu (fun j hj => hi j (List.mem_append_right _ hj)) ?_
    exact h.keeps i hu (fun j hj => hi j (List.mem_append_left _ hj)) hold

theorem installed_page {perm : BitVec 32} {byte : BitVec 32 → BitVec 8} {s s₁ s₂ : Vmm}
    (hu : vmUserLo ≤ va ∧ va < vmUserHi) (halign : va.toNat % pageSize = 0)
    (ha : Allocated K p va perm s s₁) (hw : Written K p va pageSize byte s₁ s₂)
    (hrest : Affords K p s (va :: rest)) (mem : KMem) :
    Installed K p [⟨va, perm, byte⟩] rest (s, mem) (s₂, mem) where
  mem := rfl
  ready := hw.ready ha.ready
  affords := by
    have hleft := hrest.rest ha
    unfold Affords missingTables at hleft ⊢
    simp only [hw.pmm, hw.pdir]
    exact hleft
  users i hi := by
    rw [List.mem_singleton.mp hi]
    exact hu
  holds i hi := by
    rw [List.mem_singleton.mp hi]
    obtain ⟨n, hn⟩ := ha.entry
    refine ⟨⟨n, fun w hsame => ?_⟩, fun w hsame => ?_⟩
    · rw [hw.entries, hn w hsame]
    · exact hw.bytes w ((samePage_iff_offset halign).mp hsame)
  keeps i hi hne hold := by
    have hother : ∀ w, SamePage w i.va → ¬ SamePage w va := fun w hsame hc =>
      hne _ (List.mem_singleton_self _) (hsame.symm.trans hc)
    obtain ⟨n, hn⟩ := hold.entry
    refine ⟨⟨n, fun w hsame => ?_⟩, fun w hsame => ?_⟩
    · rw [hw.entries, ha.others w (hother w hsame), hn w hsame]
    · have hwu := userAddr_of_samePage hi hsame
      refine hw.others ⟨w, hwu⟩ _ ?_ ?_
      · exact fun hc => hother w hsame ((samePage_iff_offset halign).mpr hc)
      · exact ha.bytes ⟨w, hwu⟩ _ (hother w hsame) (hold.bytes w hsame)

theorem segmentPerm_lt (ph : Proghdr) : segmentPerm ph < 4096 := by
  unfold segmentPerm
  split <;> decide

theorem segmentPerm_present (ph : Proghdr) : segmentPerm ph &&& pteP ≠ 0 := by
  unfold segmentPerm
  split <;> decide

theorem segmentPerm_writable (ph : Proghdr) :
    segmentPerm ph &&& pteW ≠ 0 ↔ ph.flags &&& elfProgFlagWrite ≠ 0 := by
  unfold segmentPerm
  split
  · rename_i hw
    exact iff_of_true (by decide) hw
  · rename_i hw
    exact iff_of_false (by decide) hw

def segmentImage (mem : KMem) (exe : BitVec 32) (ph : Proghdr) (va : BitVec 32) : PageImage :=
  ⟨va, segmentPerm ph, segmentByte mem exe ph⟩

theorem loadPage_installed (h : SegmentFits exe ph) {fa : BitVec 32}
    (hu : vmUserLo ≤ va ∧ va < vmUserHi) (halign : va.toNat % pageSize = 0)
    (hfirst : ph.va.toNat / pageSize * pageSize ≤ va.toNat)
    (hfa : ∀ w, fa + (w - va) = exe + ph.offset + (w - ph.va)) (hm : Ready K p m.1)
    (hrest : Affords K p m.1 (va :: rest)) :
    ∃ m', loadPage K p ph va fa m = some m' ∧
      Installed K p [segmentImage m.2 exe ph va] rest m m' := by
  obtain ⟨s₁, r, halloc, ha⟩ := hm.allocPage ⟨va, hu⟩ ⟨segmentPerm ph, segmentPerm_lt ph⟩ hrest.first
  have hP : s₁.getPtblEntryByVa K p va &&& pteP ≠ 0 := by
    obtain ⟨n, hn⟩ := ha.entry
    rw [hn va rfl, entry_and n _ (by decide)]
    exact segmentPerm_present ph
  obtain ⟨s₂, hs₂, hw⟩ := fillPage_written h ha.ready.isolated hu halign hP hfirst hfa m.2
  refine ⟨(s₂, m.2), ?_, installed_page hu halign ha hw hrest m.2⟩
  unfold loadPage
  rw [halloc]
  exact hs₂

end Installing

/-! ## 7. Segments -/

def segmentPages (ph : Proghdr) : List (BitVec 32) :=
  let first := ph.va.toNat / pageSize
  (List.range' first ((ph.va.toNat + ph.memsz.toNat + (pageSize - 1)) / pageSize - first)).map
    pageAddr

theorem toNat_pageAddr {n : Nat} (h : n < 2 ^ 20) : (pageAddr n).toNat = n * pageSize := by
  unfold pageAddr
  rw [BitVec.toNat_shiftLeft, BitVec.toNat_ofNat, Nat.shiftLeft_eq, show pageSize = 4096 from rfl]
  omega

theorem pageAddr_succ (n : Nat) : pageAddr n + pageBytes = pageAddr (n + 1) := by
  apply BitVec.eq_of_toNat_eq
  unfold pageAddr pageBytes
  rw [BitVec.toNat_add, BitVec.toNat_shiftLeft, BitVec.toNat_shiftLeft, BitVec.toNat_ofNat,
    BitVec.toNat_ofNat, Nat.shiftLeft_eq, Nat.shiftLeft_eq]
  show (_ + 4096) % 2 ^ 32 = _
  omega

theorem samePage_pageAddr {n k : Nat} (hn : n < 2 ^ 20) (hk : k < 2 ^ 20) :
    SamePage (pageAddr n) (pageAddr k) ↔ n = k := by
  rw [samePage_iff, toNat_pageAddr hn, toNat_pageAddr hk, show pageSize = 4096 from rfl]
  omega

section Segments

variable {p : UserPid} {exe : BitVec 32} {ph : Proghdr} {m m₁ m₂ : Vmm × KMem}
  {rest : List (BitVec 32)}

theorem loadPages_installed (h : SegmentFits exe ph) (fuel n first : Nat) (hfuel : n < fuel)
    (hlo : 0x40000 ≤ first) (hhi : first + n ≤ 0xF0000) (hfirst : ph.va.toNat / pageSize ≤ first)
    {fa : BitVec 32} (hfa : ∀ w, fa + (w - pageAddr first) = exe + ph.offset + (w - ph.va))
    (hm : Ready K p m.1)
    (hrest : Affords K p m.1 ((List.range' first n).map pageAddr ++ rest)) :
    ∃ m', loadPages K p ph (pageAddr (first + n)) fuel (pageAddr first) fa m = some m' ∧
      Installed K p ((List.range' first n).map fun k => segmentImage m.2 exe ph (pageAddr k))
        rest m m' := by
  induction n generalizing fuel first fa m with
  | zero =>
    obtain ⟨fuel, rfl⟩ : ∃ k, fuel = k + 1 := ⟨fuel - 1, by omega⟩
    refine ⟨m, ?_, Installed.refl hm hrest⟩
    unfold loadPages
    rw [Nat.add_zero, if_neg (BitVec.lt_irrefl _)]
  | succ n ih =>
    obtain ⟨fuel, rfl⟩ : ∃ k, fuel = k + 1 := ⟨fuel - 1, by omega⟩
    have haddr : ∀ {k : Nat}, k < 2 ^ 20 → (pageAddr k).toNat = k * 4096 := toNat_pageAddr
    have hstart := haddr (k := first) (by omega)
    have hend := haddr (k := first + (n + 1)) (by omega)
    have hu : vmUserLo ≤ pageAddr first ∧ pageAddr first < vmUserHi := by
      constructor
      · show 0x40000000 ≤ (pageAddr first).toNat
        omega
      · show (pageAddr first).toNat < 0xF0000000
        omega
    have hpos : pageAddr first < pageAddr (first + (n + 1)) := by
      rw [BitVec.lt_def]
      omega
    rw [List.range'_succ, List.map_cons, List.cons_append] at hrest
    obtain ⟨m₁, hm₁, hfilled⟩ := loadPage_installed h hu (by rw [hstart]; exact Nat.mul_mod_left _ _)
      (by rw [hstart]; exact Nat.mul_le_mul_right _ hfirst) hfa hm hrest
    -- the other pages
    have hfa' : ∀ w, fa + pageBytes + (w - pageAddr (first + 1)) =
        exe + ph.offset + (w - ph.va) := by
      intro w
      rw [← hfa w, ← pageAddr_succ]
      bv_omega
    obtain ⟨m₂, hm₂, hothers⟩ := ih fuel (first + 1) (by omega) (by omega)
      (by omega) (by omega) hfa' hfilled.ready hfilled.affords
    rw [hfilled.mem] at hothers
    refine ⟨m₂, ?_, ?_⟩
    · unfold loadPages
      rw [if_pos hpos, hm₁, pageAddr_succ, show first + (n + 1) = first + 1 + n by omega]
      exact hm₂
    · rw [List.range'_succ, List.map_cons]
      refine hfilled.append hothers fun i hi j hj => ?_
      obtain ⟨k, hk, rfl⟩ := List.mem_map.mp hj
      have hk' := List.mem_range'_1.mp hk
      rw [List.mem_singleton.mp hi]
      intro hsame
      have heq := (samePage_pageAddr (by omega) (by omega)).mp hsame
      omega

theorem SegmentFits.exists_pageAddr (h : SegmentFits exe ph) (hva : va ∈ segmentPages ph) :
    ∃ n < 2 ^ 20, va = pageAddr n := by
  obtain ⟨n, hn, rfl⟩ := List.mem_map.mp hva
  have hrange := List.mem_range'_1.mp hn
  have hhi : ph.va.toNat + ph.memsz.toNat ≤ 0xF0000000 := h.hi
  rw [show pageSize = 4096 from rfl] at hrange
  exact ⟨n, by omega, rfl⟩

theorem SegmentFits.exists_page (h : SegmentFits exe ph) (hlo : ph.va ≤ w)
    (hhi : w.toNat < ph.va.toNat + ph.memsz.toNat) :
    ∃ va ∈ segmentPages ph, SamePage w va := by
  have hle : ph.va.toNat ≤ w.toNat := hlo
  have hend : ph.va.toNat + ph.memsz.toNat ≤ 0xF0000000 := h.hi
  refine ⟨pageAddr (w.toNat / pageSize), List.mem_map.mpr ⟨_, List.mem_range'_1.mpr ?_, rfl⟩, ?_⟩
  · rw [show pageSize = 4096 from rfl]
    omega
  · have hlt : w.toNat / pageSize < 2 ^ 20 := by
      rw [show pageSize = 4096 from rfl]
      omega
    rw [samePage_iff, toNat_pageAddr hlt]
    exact (Nat.mul_div_cancel _ (by decide)).symm

theorem SegmentFits.not_samePage {ph' : Proghdr} (h : SegmentFits exe ph) (h' : SegmentFits exe ph')
    (hd : (segmentPages ph).Disjoint (segmentPages ph')) {va' : BitVec 32}
    (hva : va ∈ segmentPages ph) (hva' : va' ∈ segmentPages ph') : ¬ SamePage va va' := by
  intro hsame
  obtain ⟨n, hn, rfl⟩ := h.exists_pageAddr hva
  obtain ⟨k, hk, rfl⟩ := h'.exists_pageAddr hva'
  rw [(samePage_pageAddr hn hk).mp hsame] at hva
  exact hd hva hva'

def segmentImages (mem : KMem) (exe : BitVec 32) (ph : Proghdr) : List PageImage :=
  (segmentPages ph).map (segmentImage mem exe ph)

theorem loadSegment_installed (h : SegmentFits exe ph) (hload : ph.type = elfProgLoad)
    (hm : Ready K p m.1) (hrest : Affords K p m.1 (segmentPages ph ++ rest)) :
    ∃ m', loadSegment K exe p ph m = some m' ∧
      Installed K p (segmentImages m.2 exe ph) rest m m' := by
  have hlo : 0x40000000 ≤ ph.va.toNat := h.lo
  have hhi : ph.va.toNat + ph.memsz.toNat ≤ 0xF0000000 := h.hi
  have hva := toNat_rounddown ph.va
  have hsum : (ph.va + ph.memsz).toNat = ph.va.toNat + ph.memsz.toNat := by
    rw [BitVec.toNat_add]
    omega
  have heva := toNat_roundup (a := ph.va + ph.memsz) (by rw [hsum]; exact h.hi)
  rw [hsum] at heva
  obtain ⟨first, hfirst⟩ : ∃ k, k = ph.va.toNat / pageSize := ⟨_, rfl⟩
  obtain ⟨n, hn⟩ : ∃ k, k = (ph.va.toNat + ph.memsz.toNat + (pageSize - 1)) / pageSize - first :=
    ⟨_, rfl⟩
  have hpages : segmentPages ph = (List.range' first n).map pageAddr := by
    rw [hn, hfirst]
    rfl
  have hstart : rounddown ph.va pageBytes = pageAddr first := by
    apply BitVec.eq_of_toNat_eq
    rw [hva, hfirst, toNat_pageAddr]
    rw [show pageSize = 4096 from rfl]
    omega
  rw [show pageSize = 4096 from rfl] at hfirst hn
  have hend : roundup (ph.va + ph.memsz) pageBytes = pageAddr (first + n) := by
    apply BitVec.eq_of_toNat_eq
    rw [heva, toNat_pageAddr (by omega), show pageSize = 4096 from rfl]
    omega
  -- the file is as far into its page as the segment
  have hmod : ph.va % pageBytes = ph.offset % pageBytes := by
    apply BitVec.eq_of_toNat_eq
    rw [BitVec.toNat_umod, BitVec.toNat_umod]
    exact h.congr
  have hfa : ∀ w, exe + rounddown ph.offset pageBytes + (w - pageAddr first) =
      exe + ph.offset + (w - ph.va) := by
    intro w
    rw [← hstart]
    unfold rounddown
    rw [hmod]
    grind
  rw [hpages] at hrest
  obtain ⟨m', hm', hinstalled⟩ := loadPages_installed h (2 ^ 20) n first
    (by omega) (by omega) (by omega) (Nat.le_of_eq hfirst.symm) hfa hm hrest
  refine ⟨m', ?_, ?_⟩
  · unfold loadSegment
    rw [if_neg (not_not.mpr hload), hstart, hend]
    exact hm'
  · unfold segmentImages
    rw [hpages, List.map_map]
    exact hinstalled

end Segments

/-! ## 8. The whole image -/

def proghdrs (mem : KMem) (start : BitVec 32) (n : Nat) : List Proghdr :=
  (List.range n).map fun i => Proghdr.load mem (start + BitVec.ofNat 32 (proghdrSize * i))

def loadable (phs : List Proghdr) : List Proghdr := phs.filter fun ph => ph.type = elfProgLoad

theorem proghdr_addr_succ (start : BitVec 32) (i : Nat) :
    start + BitVec.ofNat 32 (proghdrSize * (i + 1)) =
      start + BitVec.ofNat 32 proghdrSize + BitVec.ofNat 32 (proghdrSize * i) := by
  rw [Nat.mul_succ, Nat.add_comm, BitVec.ofNat_add, BitVec.add_assoc]

theorem proghdrs_succ (mem : KMem) (start : BitVec 32) (n : Nat) :
    proghdrs mem start (n + 1) =
      Proghdr.load mem start :: proghdrs mem (start + BitVec.ofNat 32 proghdrSize) n := by
  unfold proghdrs
  rw [List.range_succ_eq_map, List.map_cons, List.map_map, Nat.mul_zero, BitVec.add_zero]
  simp only [Function.comp_def, Nat.succ_eq_add_one, proghdr_addr_succ]

section Images

variable {p : UserPid} {exe : BitVec 32} {m m₁ m₂ : Vmm × KMem}

theorem loadSegments_installed (n : Nat) (start : BitVec 32) (rest : List (BitVec 32))
    (hwrap : start.toNat + proghdrSize * n < 2 ^ 32)
    (hfits : ∀ ph ∈ loadable (proghdrs m.2 start n), SegmentFits exe ph)
    (hdisj : (loadable (proghdrs m.2 start n)).Pairwise fun a b =>
      (segmentPages a).Disjoint (segmentPages b))
    (hm : Ready K p m.1)
    (hrest : Affords K p m.1 ((loadable (proghdrs m.2 start n)).flatMap segmentPages ++ rest)) :
    ∃ m', loadSegments K exe p (start + BitVec.ofNat 32 (proghdrSize * n)) n start m = some m' ∧
      Installed K p ((loadable (proghdrs m.2 start n)).flatMap (segmentImages m.2 exe)) rest m m' := by
  induction n generalizing start m with
  | zero => exact ⟨m, rfl, Installed.refl hm hrest⟩
  | succ n ih =>
    rw [show proghdrSize = 32 from rfl] at hwrap
    have hnext : (start + BitVec.ofNat 32 proghdrSize).toNat = start.toNat + 32 := by
      rw [BitVec.toNat_add]
      show (start.toNat + 32) % 2 ^ 32 = _
      omega
    have hlt : start < start + BitVec.ofNat 32 (proghdrSize * (n + 1)) := by
      rw [BitVec.lt_def, BitVec.toNat_add, BitVec.toNat_ofNat, show proghdrSize = 32 from rfl]
      omega
    have hwrap' : (start + BitVec.ofNat 32 proghdrSize).toNat + proghdrSize * n < 2 ^ 32 := by
      rw [hnext, show proghdrSize = 32 from rfl]
      omega
    rw [proghdrs_succ] at hfits hdisj hrest ⊢
    unfold loadSegments
    rw [if_pos hlt, proghdr_addr_succ]
    by_cases hload : (Proghdr.load m.2 start).type = elfProgLoad
    · -- a segment: its pages, and then those of the others
      have hcons : ∀ phs, loadable (Proghdr.load m.2 start :: phs) =
          Proghdr.load m.2 start :: loadable phs := fun phs =>
        List.filter_cons_of_pos (decide_eq_true hload)
      rw [hcons] at hfits hdisj hrest ⊢
      rw [List.flatMap_cons, List.append_assoc] at hrest
      have hfit := hfits _ List.mem_cons_self
      obtain ⟨hfirst, hothers⟩ := List.pairwise_cons.mp hdisj
      obtain ⟨m₁, hm₁, hone⟩ := loadSegment_installed hfit hload hm hrest
      obtain ⟨m₂, hm₂, htail⟩ := ih (m := m₁) _ hwrap'
        (by rw [hone.mem]; exact fun ph hph => hfits ph (List.mem_cons_of_mem _ hph))
        (by rw [hone.mem]; exact hothers) hone.ready (by rw [hone.mem]; exact hone.affords)
      rw [hone.mem] at htail
      refine ⟨m₂, ?_, ?_⟩
      · rw [hm₁]
        exact hm₂
      · rw [List.flatMap_cons]
        refine hone.append htail fun i hi j hj => ?_
        obtain ⟨va, hva, rfl⟩ := List.mem_map.mp hi
        obtain ⟨ph', hph', hj⟩ := List.mem_flatMap.mp hj
        obtain ⟨va', hva', rfl⟩ := List.mem_map.mp hj
        exact hfit.not_samePage (hfits ph' (List.mem_cons_of_mem _ hph')) (hfirst ph' hph') hva hva'
    · have hskip : ∀ phs, loadable (Proghdr.load m.2 start :: phs) = loadable phs := fun phs =>
        List.filter_cons_of_neg (by simpa using hload)
      rw [hskip] at hfits hdisj hrest ⊢
      have hsame : loadSegment K exe p (Proghdr.load m.2 start) m = some m := if_pos hload
      rw [hsame]
      exact ih _ hwrap' hfits hdisj hm hrest

def imageSegments (mem : KMem) (exe : BitVec 32) : List Proghdr :=
  let eh := Elfhdr.load mem exe
  loadable (proghdrs mem (exe + eh.phoff) eh.phnum.toNat)

/-- An image that can be loaded: the assertions hold, the program headers and the segments' parts of
the file lie in the kernel's memory, and the segments are where a process may have them, each on
pages of its own. -/
structure Loadable (mem : KMem) (exe : BitVec 32) : Prop where
  accepted : elfAccepted mem exe = true
  headers : exe.toNat + (Elfhdr.load mem exe).phoff.toNat +
    proghdrSize * (Elfhdr.load mem exe).phnum.toNat ≤ vmUserLo.toNat
  fits : ∀ ph ∈ imageSegments mem exe, SegmentFits exe ph
  apart : (imageSegments mem exe).Pairwise fun a b => (segmentPages a).Disjoint (segmentPages b)

/-- The byte of the file, and 0 behind the part that is in the file. -/
def expectedByte (mem : KMem) (exe : BitVec 32) (ph : Proghdr) (w : BitVec 32) : BitVec 8 :=
  if w.toNat < ph.va.toNat + ph.filesz.toNat then mem (exe + ph.offset + (w - ph.va)) else 0

/-- **Loaded programs.**  For a process whose quota covers the pages of the segments and their tables,
`elf_load` returns, the process then reads at the addresses of every segment what is in the file and
zeros behind it, and the pages are writable if the segment is. -/
theorem elf_load_image (hm : Ready K p m.1) (himage : Loadable m.2 exe)
    (hquota : Affords K p m.1 ((imageSegments m.2 exe).flatMap segmentPages)) :
    ∃ m', elfLoad K exe p m = some m' ∧
      ∀ ph ∈ imageSegments m.2 exe, ∀ w, ph.va ≤ w → w.toNat < ph.va.toNat + ph.memsz.toNat →
        m'.1.userLoad K p w = some (expectedByte m.2 exe ph w) ∧
        (m'.1.getPtblEntryByVa K p w &&& pteW ≠ 0 ↔ ph.flags &&& elfProgFlagWrite ≠ 0) := by
  have hheaders := himage.headers
  rw [show vmUserLo.toNat = 0x40000000 from rfl] at hheaders
  have hstart : (exe + (Elfhdr.load m.2 exe).phoff).toNat =
      exe.toNat + (Elfhdr.load m.2 exe).phoff.toNat := by
    rw [BitVec.toNat_add]
    omega
  obtain ⟨m', hm', hinstalled⟩ := loadSegments_installed
    (Elfhdr.load m.2 exe).phnum.toNat (exe + (Elfhdr.load m.2 exe).phoff) [] (by omega)
    himage.fits himage.apart hm (by rw [List.append_nil]; exact hquota)
  refine ⟨m', ?_, fun ph hph w hlo hhi => ?_⟩
  · unfold elfLoad
    rw [if_pos himage.accepted]
    exact hm'
  · have hfit := himage.fits ph hph
    obtain ⟨va, hva, hsame⟩ := hfit.exists_page hlo hhi
    have hheld : Holds K p m'.1 (segmentImage m.2 exe ph va) := by
      apply hinstalled.holds
      exact List.mem_flatMap.mpr ⟨ph, hph, List.mem_map.mpr ⟨va, hva, rfl⟩⟩
    obtain ⟨n, hn⟩ := hheld.entry
    have hentry : m'.1.getPtblEntryByVa K p w = pageAddr n ||| segmentPerm ph := hn w hsame
    have hbyte : m'.1.userByte K p w = some (segmentByte m.2 exe ph w) := hheld.bytes w hsame
    have hle : ph.va.toNat ≤ w.toNat := hlo
    constructor
    · have hu : vmUserLo ≤ w ∧ w < vmUserHi := by
        have hhi' := hfit.hi
        have hlo' : vmUserLo.toNat ≤ ph.va.toNat := hfit.lo
        constructor
        · show vmUserLo.toNat ≤ w.toNat
          omega
        · show w.toNat < vmUserHi.toNat
          omega
      rw [userLoad_eq_userByte (hinstalled.ready.tables _ (kernelPde_pdeAddr ⟨w, hu⟩))
        (present_of_userByte hbyte), hbyte]
      -- at the addresses of the segment the two descriptions agree
      have hiff : (ph.filesz ≠ 0 ∧ w < ph.va + ph.filesz) ↔
          w.toNat < ph.va.toNat + ph.filesz.toNat := by
        rw [BitVec.lt_def, hfit.toNat_zva]
        refine ⟨And.right, fun hin => ⟨fun hz => ?_, hin⟩⟩
        have hz' : ph.filesz.toNat = 0 := by rw [hz]; rfl
        omega
      unfold segmentByte expectedByte
      simp only [hiff]
    · rw [hentry, entry_and n _ (by decide)]
      exact segmentPerm_writable ph

end Images

/-- A file of 164 bytes: one segment, writable, that is the whole file and 36 bytes more. -/
def sampleImage : KMem := fun a =>
  match (a - 0x100000).toNat with
  | 0 => 0x7F
  | 1 => 0x45
  | 2 => 0x4C
  | 3 => 0x46
  | 28 => 52
  | 32 => 84
  | 44 => 1
  | 50 => 1
  | 52 => 1
  | 63 => 0x40
  | 68 => 164
  | 72 => 200
  | 76 => 6
  | 128 => 3
  | _ => 0

def sampleSegment : Proghdr := ⟨1, 0, 0x40000000, 164, 200, 6⟩

theorem sampleImage_segments : imageSegments sampleImage 0x100000 = [sampleSegment] := by decide

theorem sampleImage_loadable : Loadable sampleImage 0x100000 where
  accepted := by decide
  headers := by decide
  fits ph hph := by
    rw [sampleImage_segments] at hph
    rw [List.mem_singleton.mp hph]
    exact ⟨by decide, by decide, by decide, by decide, by decide⟩
  apart := by
    rw [sampleImage_segments]
    exact List.pairwise_singleton _ _

/-- A child with both pages of a machine gets the file: the `E` of its magic number is the second byte
it reads, there are zeros behind the file, and it may write to the page. -/
theorem elf_load_image_sample :
    ∃ past s m', Run sampleLayout Pmm.twoPages past s ∧
      elfLoad sampleLayout 0x100000 firstChild (s, sampleImage) = some m' ∧
      m'.1.userLoad sampleLayout firstChild 0x40000001 = some 0x45 ∧
      m'.1.userLoad sampleLayout firstChild 0x400000A4 = some 0 ∧
      m'.1.getPtblEntryByVa sampleLayout firstChild 0x40000001 &&& pteW ≠ 0 := by
  obtain ⟨past, s, hrun, _, hiso, hinv, hchild, hempty⟩ := sample_child 2 (by decide)
  have hready : Ready sampleLayout firstChild s :=
    ⟨hiso, hinv, by rw [hchild], fun i hi => Or.inl (hempty i hi)⟩
  have hquota : Affords sampleLayout firstChild s
      ((imageSegments sampleImage 0x100000).flatMap segmentPages) := by
    have hpages : (imageSegments sampleImage 0x100000).flatMap segmentPages = [0x40000000] := by
      rw [sampleImage_segments]
      decide
    have htables := Finset.card_filter_le (([0x40000000#32].map pdeAddr).toFinset)
      fun i => s.getPdirEntry sampleLayout firstChild i = 0
    unfold Affords missingTables
    rw [hpages, hchild]
    exact Nat.add_le_add_left htables 1
  obtain ⟨m', hm', hloaded⟩ := elf_load_image (m := (s, sampleImage)) hready sampleImage_loadable hquota
  have hmem : sampleSegment ∈ imageSegments sampleImage 0x100000 := by
    rw [sampleImage_segments]
    exact List.mem_singleton_self _
  have hfirst := hloaded sampleSegment hmem 0x40000001 (by decide) (by decide)
  have hbehind := hloaded sampleSegment hmem 0x400000A4 (by decide) (by decide)
  exact ⟨past, s, m', hrun, hm', hfirst.1, hbehind.1, hfirst.2.mpr (by decide)⟩

end MCertiKOS
