import DistributedSystems.MCertiKOS.CopyBytes

/-!
# Copies and the pages of a process

What one step of a copy does to the memory of the processes: the allocation of a page that is absent,
and the copy of a chunk through the page of its address.
-/

namespace MCertiKOS

open Spans

namespace Vmm

variable {K : KernelLayout} {s s' : Vmm}

/-! ## 1. What a process sees -/

def userByte (K : KernelLayout) (s : Vmm) (q : Pid) (w : BitVec 32) : Option (BitVec 8) :=
  let pte := s.getPtblEntryByVa K q w
  if pte &&& pteP = 0 then none else some (s.readByte (userPa pte w))

def Mapped (K : KernelLayout) (s : Vmm) (q : Pid) (va pa : BitVec 32) : Prop :=
  s.getPtblEntryByVa K q va &&& pteP ≠ 0 ∧ pa = userPa (s.getPtblEntryByVa K q va) va

theorem pageOf_userPa (pte w : BitVec 32) : pageOf (userPa pte w) = pageOf pte := by
  rw [pageOf_val, pageOf_val, userPa_toNat, show pageSize = 4096 from rfl]
  omega

variable {q : Pid} {w : BitVec 32}

theorem userByte_eq (hP : s.getPtblEntryByVa K q w &&& pteP ≠ 0) :
    s.userByte K q w = some (s.readByte (userPa (s.getPtblEntryByVa K q w) w)) :=
  if_neg hP

theorem present_of_userByte {b : BitVec 8} (h : s.userByte K q w = some b) :
    s.getPtblEntryByVa K q w &&& pteP ≠ 0 := by
  intro hz
  unfold userByte at h
  rw [if_pos hz] at h
  contradiction

theorem userByte_of_agree (hpte : s'.getPtblEntryByVa K q w = s.getPtblEntryByVa K q w)
    (hpage : s'.phys (pageOf (s.getPtblEntryByVa K q w)) =
      s.phys (pageOf (s.getPtblEntryByVa K q w))) :
    s'.userByte K q w = s.userByte K q w := by
  unfold userByte readByte
  dsimp only
  rw [hpte, pageOf_userPa, hpage]

theorem getPtblEntryByVa_samePage {va : BitVec 32} (h : SamePage w va) :
    s.getPtblEntryByVa K q w = s.getPtblEntryByVa K q va := by
  obtain ⟨hi, hj⟩ := (samePage_iff_indices w va).mp h
  unfold getPtblEntryByVa
  rw [hi, hj]

theorem uses_of_present {q : UserPid} {w : UserAddr}
    (hP : s.getPtblEntryByVa K q w &&& pteP ≠ 0) :
    s.Uses K (.data q (pdeAddr w) (pteAddr w)) (pageOf (s.getPtblEntryByVa K q w)) := by
  by_cases hpde : s.getPdirEntry K q (pdeAddr w) = 0
  · have hzero : s.getPtblEntryByVa K q w = 0 := if_neg (not_not.mpr hpde)
    rw [hzero] at hP
    exact absurd rfl hP
  · have hentry : s.getPtblEntryByVa K q w = s.getPtblEntry K q (pdeAddr w) (pteAddr w) :=
      if_pos hpde
    rw [hentry] at hP ⊢
    exact ⟨⟨kernelPde_pdeAddr w, hpde⟩, hP, rfl⟩

variable {p : UserPid}

theorem Isolated.samePage_of_page (h : s.Isolated K) {q : UserPid} (va w : UserAddr)
    (hp : s.getPtblEntryByVa K p va &&& pteP ≠ 0) (hq : s.getPtblEntryByVa K q w &&& pteP ≠ 0)
    (hpage : pageOf (s.getPtblEntryByVa K q w) = pageOf (s.getPtblEntryByVa K p va)) :
    q = p ∧ SamePage (w : BitVec 32) va := by
  have huse := uses_of_present hq
  rw [hpage] at huse
  have heq := h.exclusive.unique _ _ _ huse (uses_of_present hp)
  obtain ⟨hqp, hi, hj⟩ := PageUse.data.inj heq
  exact ⟨hqp, (samePage_iff_indices _ _).mpr ⟨hi, hj⟩⟩

/-! ## 2. Writes to a data page -/

theorem Isolated.of_data_page (h : s.Isolated K) {i j : PtIndex} {page : Nat}
    (hu : s.Uses K (.data p i j) page) (hpmm : s'.pmm = s.pmm)
    (hphys : ∀ n, n ≠ page → s'.phys n = s.phys n) :
    s'.Isolated K ∧
      (∀ (q : UserPid) (w : BitVec 32), s'.getPtblEntryByVa K q w = s.getPtblEntryByVa K q w) ∧
      ∀ q i, s'.getPdirEntry K q i = s.getPdirEntry K q i := by
  have hwin := h.uses_window hu
  have hpde : ∀ q k, s'.getPdirEntry K q k = s.getPdirEntry K q k := by
    intro q k
    have hlt := K.pdirPage_lt q
    exact congrFun (hphys _ (by omega)) k
  have hid : ∀ k l, s'.phys (K.idptblPage k) l = s.phys (K.idptblPage k) l := by
    intro k l
    have hlt := K.idptblPage_lt k
    exact congrFun (hphys _ (by omega)) l
  have htable : ∀ (q : UserPid) k, s.HasTable K q k → ∀ l,
      s'.phys (s.ptblPage K q k) l = s.phys (s.ptblPage K q k) l := by
    intro q k ht l
    refine congrFun (hphys _ fun he => ?_) l
    exact PageUse.noConfusion (h.exclusive.unique (.table q k) (.data p i j) page ⟨ht, he⟩ hu)
  refine ⟨?_, ?_, hpde⟩
  · refine ⟨?_, fun q k hk => (hpde q k).trans (h.kernel_pde q k hk), fun k l =>
      (hid k l).trans (h.identity_map k l)⟩
    rw [hpmm]
    refine h.exclusive.shrink (fun u n hn => ?_) fun _ _ _ hx => hx
    exact uses_of_agree (hpde _ _) (htable _ _) hn
  · intro q w
    unfold getPtblEntryByVa getPtblEntry
    rw [ptblPage_eq, hpde, ← ptblPage_eq]
    by_cases hz : s.getPdirEntry K q (pdeAddr w) = 0
    · rw [if_neg (not_not.mpr hz), if_neg (not_not.mpr hz)]
    · rw [if_pos hz, if_pos hz]
      rcases h.table_cases (fun hroot => absurd hroot q.property) hz with hk | ⟨_, ht⟩
      · rw [hk]
        exact hid _ _
      · exact htable _ _ ht _

/-! ## 3. Allocations -/

theorem Isolated.mapPage_data (h : s.Isolated K) {q : UserPid} {va : UserAddr} {page r n : Nat}
    {perm : BitVec 32} (hs : s.mapPage K p va page perm = some (s', r)) {i j : PtIndex}
    (hu : s.Uses K (.data q i j) n) : s'.phys n = s.phys n := by
  have hn := h.exclusive.backed _ n hu
  have hwin := h.uses_window hu
  rcases mapPage_cases hs with ⟨_, halloc, _⟩ | ⟨_, hr, s₁, halloc, rfl⟩ | ⟨hpde, _, rfl⟩
  · obtain ⟨pmm, _, ⟨_, rfl⟩ | ⟨hne, _⟩⟩ := allocPtbl_eq halloc
    · rfl
    · exact absurd rfl hne
  · -- the new table is in a page that was free
    obtain ⟨pmm, hpages, ⟨h0, _⟩ | ⟨_, hs₁⟩⟩ := allocPtbl_eq halloc
    · exact absurd h0 hr
    obtain ⟨hout, hin⟩ := Pmm.containerAlloc_fresh hpages hr
    obtain ⟨hlo, hhi⟩ := PMem.allocated_window hin
    have hne : n ≠ r := fun he => hout (he ▸ hn)
    have hlt := K.pdirPage_lt p
    have htable : s₁.ptblPage K p (pdeAddr va) = r := by
      rw [hs₁]
      exact ptblPage_withTable (s := { s with pmm := pmm }) hlo hhi
    funext l
    rw [setPtblEntryByVa, Vmm.setPtblEntry, htable, write_phys_of_ne _ hne, hs₁,
      Vmm.setPdirEntry, write_phys_of_ne _ (by omega), zeroPage_phys_of_ne _ hne]
  · have ht : s.HasTable K p (pdeAddr va) := ⟨kernelPde_pdeAddr va, hpde⟩
    funext l
    refine s.write_phys_of_ne (fun he => ?_) _ _ _
    exact PageUse.noConfusion
      (h.exclusive.unique (.table p (pdeAddr va)) (.data q i j) n ⟨ht, he.symm⟩ hu)

theorem Isolated.allocPage_spec (h : s.Isolated K) (va : UserAddr) (perm : Perm) {r : Nat}
    (hs : s.allocPage K p va perm = some (s', r)) :
    s'.Isolated K ∧
    (∃ n, ∀ (q : UserPid) (w : BitVec 32), s'.getPtblEntryByVa K q w =
      if r ≠ magicNumber ∧ q = p ∧ SamePage w va then pageAddr n ||| perm
      else s.getPtblEntryByVa K q w) ∧
    ∀ (q : UserPid) (i j : PtIndex) (n : Nat), s.Uses K (.data q i j) n → s'.phys n = s.phys n := by
  have hiso := h.allocPage hs
  obtain ⟨⟨pmm, page⟩, halloc, hs⟩ := Option.bind_eq_some_iff.mp hs
  have h₁ := h.withPmm (Pmm.containerAlloc_mono halloc)
  dsimp only at hs
  split at hs
  · refine ⟨hiso, ⟨page, fun q w => ?_⟩, fun q i j n hu => ?_⟩
    · have hmap := h₁.mapPage_map hs (q := q) (w := w) fun hroot => absurd hroot q.property
      rw [hmap]
      simp only [Subtype.ext_iff]
      rfl
    · exact h₁.mapPage_data (q := q) (i := i) (j := j) hs hu
  · obtain ⟨rfl, rfl⟩ := Prod.mk.inj (Option.some.inj hs)
    exact ⟨hiso, ⟨0, fun q w => by rw [if_neg fun hc => hc.1 rfl]; rfl⟩, fun _ _ _ _ _ => rfl⟩

end Vmm

open Vmm

variable {K : KernelLayout}

/-! ## 4. Parts of a copy -/

/-- What a copy of the `len` bytes at `uva` did: it kept the tables in order and the entries that were
present, it stayed in the pages of the process, the range and the buffer hold the same bytes, and
every other byte that a process or the kernel sees is the same. -/
structure Copied (K : KernelLayout) (d : Direction) (p : UserPid) (uva kva : BitVec 32) (len : Nat)
    (m m' : Vmm × KMem) (l : List Access) : Prop where
  isolated : m'.1.Isolated K
  entries : ∀ (q : UserPid) (w : BitVec 32), m.1.getPtblEntryByVa K q w &&& pteP ≠ 0 →
    m'.1.getPtblEntryByVa K q w = m.1.getPtblEntryByVa K q w
  own : ∀ a ∈ l, ∀ k < a.size, m'.1.Mapped K p (a.va + BitVec.ofNat 32 k) (a.pa + BitVec.ofNat 32 k)
  bytes : ∀ w, offset uva w < len → m'.1.userByte K p w = some (m'.2 (kva + (w - uva)))
  users : ∀ (q : UserPid) (w : UserAddr) (b : BitVec 8),
    d = .copyin ∨ ¬ (q = p ∧ offset uva w < len) →
    m.1.userByte K q w = some b → m'.1.userByte K q w = some b
  buffer : ∀ a, d = .copyout ∨ ¬ offset kva a < len → m'.2 a = m.2 a

section Parts

variable {d : Direction} {p : UserPid} {uva kva : BitVec 32} {m m₁ m₂ : Vmm × KMem}

theorem Copied.refl (h : m.1.Isolated K) : Copied K d p uva kva 0 m m [] where
  isolated := h
  entries _ _ _ := rfl
  own _ ha := by contradiction
  bytes _ hw := by contradiction
  users _ _ _ _ hb := hb
  buffer _ _ := rfl

variable {n : Nat}

theorem userAddr_of_offset (hlo : vmUserLo ≤ uva) (hhi : uva.toNat + n ≤ vmUserHi.toNat)
    {w : BitVec 32} (hw : offset uva w < n) : vmUserLo ≤ w ∧ w < vmUserHi := by
  apply addrsFrom_inRange (Nat.le_refl n) hlo hhi
  exact List.mem_map.mpr ⟨offset uva w, List.mem_range.mpr hw, add_offset uva w⟩

theorem Copied.append {k : Nat} {l l' : List Access} (h : Copied K d p uva kva n m m₁ l)
    (h' : Copied K d p (uva + BitVec.ofNat 32 n) (kva + BitVec.ofNat 32 n) k m₁ m₂ l')
    (hlo : vmUserLo ≤ uva) (hhi : uva.toNat + (n + k) ≤ vmUserHi.toNat) :
    Copied K d p uva kva (n + k) m m₂ (l ++ l') := by
  have hdef : vmUserHi.toNat = 0xF0000000 := rfl
  -- the second copy does not come back to the first one's addresses
  have hpassed : ∀ b x : BitVec 32, offset b x < n → ¬ offset (b + BitVec.ofNat 32 n) x < k := by
    intro b x hx
    rw [offset_passed (by omega) hx]
    omega
  have hnext : ∀ b x : BitVec 32, ¬ offset b x < n →
      (offset (b + BitVec.ofNat 32 n) x < k ↔ offset b x < n + k) := by
    intro b x hx
    rw [offset_advance (by omega)]
    omega
  have hout : ∀ b x : BitVec 32, ¬ offset b x < n + k →
      ¬ offset b x < n ∧ ¬ offset (b + BitVec.ofNat 32 n) x < k := by
    intro b x hx
    have hn : ¬ offset b x < n := by omega
    exact ⟨hn, fun hc => hx ((hnext b x hn).mp hc)⟩
  refine ⟨h'.isolated, fun q w hP => ?_, fun a ha j hj => ?_, fun w hw => ?_, fun q w b hc hb => ?_,
    fun a hc => ?_⟩
  · have hfirst := h.entries q w hP
    rw [← hfirst] at hP
    rw [h'.entries q w hP, hfirst]
  · rcases List.mem_append.mp ha with ha | ha
    · obtain ⟨hP, hpa⟩ := h.own a ha j hj
      have hsame := h'.entries p _ hP
      unfold Mapped
      rw [hsame]
      exact ⟨hP, hpa⟩
    · exact h'.own a ha j hj
  · by_cases hwn : offset uva w < n
    · have huser := userAddr_of_offset hlo (by omega) hwn
      have hfirst := h.bytes w hwn
      have hkeep := h'.users p ⟨w, huser⟩ _ (Or.inr fun hc => hpassed uva w hwn hc.2) hfirst
      have hoff : offset kva (kva + (w - uva)) = offset uva w := by
        unfold offset
        rw [BitVec.add_comm, BitVec.add_sub_cancel]
      have hbuf := h'.buffer (kva + (w - uva)) (Or.inr (hpassed kva _ (by rw [hoff]; exact hwn)))
      rw [hbuf]
      exact hkeep
    · have hsecond := h'.bytes w ((hnext uva w hwn).mpr hw)
      have haddr : kva + BitVec.ofNat 32 n + (w - (uva + BitVec.ofNat 32 n)) = kva + (w - uva) := by
        bv_omega
      rw [hsecond, haddr]
  · refine h'.users q w b ?_ (h.users q w b ?_ hb)
    · rcases hc with hc | hc
      · exact Or.inl hc
      · by_cases hq : q = p
        · exact Or.inr fun hx => (hout uva w fun ho => hc ⟨hq, ho⟩).2 hx.2
        · exact Or.inr fun hx => hq hx.1
    · rcases hc with hc | hc
      · exact Or.inl hc
      · by_cases hq : q = p
        · exact Or.inr fun hx => (hout uva w fun ho => hc ⟨hq, ho⟩).1 hx.2
        · exact Or.inr fun hx => hq hx.1
  · rcases hc with hc | hc
    · rw [h'.buffer a (Or.inl hc), h.buffer a (Or.inl hc)]
    · obtain ⟨hfirst, hsecond⟩ := hout kva a hc
      rw [h'.buffer a (Or.inr hsecond), h.buffer a (Or.inr hfirst)]

theorem copied_userEntry (d : Direction) (kva : BitVec 32) (h : m.1.Isolated K)
    (hu : vmUserLo ≤ uva ∧ uva < vmUserHi) {s : Vmm} {allocs : List Nat} {pte : BitVec 32}
    (hs : userEntry K p uva m.1 = some (s, allocs, pte))
    (hok : magicNumber ∉ allocs) :
    Copied K d p uva kva 0 m (s, m.2) [] ∧ pte = s.getPtblEntryByVa K p uva ∧ pte &&& pteP ≠ 0 := by
  rcases userEntry_cases hs with ⟨hpresent, rfl, rfl, hpte⟩ | ⟨habsent, r, halloc, rfl, hpte⟩
  · exact ⟨Copied.refl h, hpte, hpte ▸ hpresent⟩
  · rw [hpte]
    have hne : r ≠ magicNumber := fun he => hok (he ▸ List.mem_singleton_self r)
    obtain ⟨hiso, ⟨n, hmap⟩, hdata⟩ := h.allocPage_spec ⟨uva, hu⟩
      ⟨pteP ||| pteU ||| pteW, by decide⟩ halloc
    -- a page that was present is not the one that was allocated
    have hkeep : ∀ (q : UserPid) (w : BitVec 32), m.1.getPtblEntryByVa K q w &&& pteP ≠ 0 →
        s.getPtblEntryByVa K q w = m.1.getPtblEntryByVa K q w := by
      intro q w hP
      rw [hmap q w, if_neg]
      rintro ⟨_, rfl, hpage⟩
      rw [getPtblEntryByVa_samePage hpage] at hP
      exact hP habsent
    refine ⟨⟨hiso, hkeep, fun _ ha => by contradiction, fun _ hw => by contradiction, ?_,
      fun _ _ => rfl⟩, rfl, ?_⟩
    · intro q w b _ hb
      have hP := present_of_userByte hb
      rw [← hb]
      exact userByte_of_agree (hkeep q w hP) (hdata q _ _ _ (uses_of_present hP))
    · rw [hmap p uva, if_pos ⟨hne, rfl, rfl⟩, entry_and n _ (by decide)]
      decide

theorem chunk_addr (pte : BitVec 32) {va w : BitVec 32} (hn : n ≤ pageSize - va.toNat % pageSize)
    (hw : offset va w < n) :
    SamePage w va ∧ userPa pte w = userPa pte va + (w - va) := by
  have hva := va.isLt
  rw [show pageSize = 4096 from rfl] at hn
  have hwval : w.toNat = va.toNat + offset va w := by
    have hadd := congrArg BitVec.toNat (add_offset va w)
    rw [BitVec.toNat_add, BitVec.toNat_ofNat] at hadd
    omega
  constructor
  · rw [samePage_iff]
    omega
  · have hpa := userPa_toNat pte va
    have hpa' := userPa_toNat pte w
    have hpte := pte.isLt
    rw [show pageSize = 4096 from rfl] at hpa hpa'
    apply BitVec.eq_of_toNat_eq
    rw [BitVec.toNat_add]
    change _ = (_ + offset va w) % _
    omega

theorem chunk_page (pte : BitVec 32) {va : BitVec 32} {k : Nat}
    (hn : n ≤ pageSize - va.toNat % pageSize) (hk : k < n) :
    pageOf (userPa pte va + BitVec.ofNat 32 k) = pageOf pte := by
  have hval := userPa_toNat pte va
  have hpte := pte.isLt
  rw [show pageSize = 4096 from rfl] at hn hval
  rw [pageOf_val, pageOf_val, BitVec.toNat_add, BitVec.toNat_ofNat, hval,
    show pageSize = 4096 from rfl]
  omega

theorem Vmm.Isolated.not_in_chunk {s : Vmm} (h : s.Isolated K)
    (hu : vmUserLo ≤ uva ∧ uva < vmUserHi) (hP : s.getPtblEntryByVa K p uva &&& pteP ≠ 0)
    (hn : n ≤ pageSize - uva.toNat % pageSize) {q : UserPid} {w : UserAddr}
    (hPw : s.getPtblEntryByVa K q w &&& pteP ≠ 0) (hc : ¬ (q = p ∧ offset uva w < n)) :
    ¬ offset (userPa (s.getPtblEntryByVa K p uva) uva) (userPa (s.getPtblEntryByVa K q w) w) < n := by
  intro hin
  have hpage : pageOf (s.getPtblEntryByVa K q w) = pageOf (s.getPtblEntryByVa K p uva) := by
    rw [← pageOf_userPa _ w.val, ← add_offset (userPa (s.getPtblEntryByVa K p uva) uva)
      (userPa _ w.val)]
    exact chunk_page _ hn hin
  obtain ⟨rfl, hsame⟩ := h.samePage_of_page ⟨uva, hu⟩ w hP hPw hpage
  -- the same page of the same process: the distances are the same
  refine hc ⟨rfl, ?_⟩
  rw [getPtblEntryByVa_samePage hsame] at hin
  have hval := userPa_toNat (s.getPtblEntryByVa K q uva) uva
  have hval' := userPa_toNat (s.getPtblEntryByVa K q uva) w
  have hdiv := (samePage_iff w.val uva).mp hsame
  have hpte := (s.getPtblEntryByVa K q uva).isLt
  have hlt := w.val.isLt
  have hlt' := uva.isLt
  rw [show pageSize = 4096 from rfl] at hn hval hval'
  unfold offset at hin ⊢
  rw [BitVec.toNat_sub, hval, hval'] at hin
  rw [BitVec.toNat_sub]
  omega

theorem Vmm.Isolated.memcpy_chunk (d : Direction) (kva : BitVec 32) (h : m.1.Isolated K)
    (hu : vmUserLo ≤ uva ∧ uva < vmUserHi) (hP : m.1.getPtblEntryByVa K p uva &&& pteP ≠ 0)
    (hn : n ≤ pageSize - uva.toNat % pageSize) {pa : BitVec 32}
    (hpa : pa = userPa (m.1.getPtblEntryByVa K p uva) uva) :
    (memcpy d n pa kva m).1.Isolated K ∧
      (∀ (q : UserPid) (w : BitVec 32),
        (memcpy d n pa kva m).1.getPtblEntryByVa K q w = m.1.getPtblEntryByVa K q w) ∧
      ∀ q i, (memcpy d n pa kva m).1.getPdirEntry K q i = m.1.getPdirEntry K q i := by
  have hpages : ∀ k < n, pageOf (pa + BitVec.ofNat 32 k) = pageOf (m.1.getPtblEntryByVa K p uva) :=
    fun k hk => hpa ▸ chunk_page _ hn hk
  exact h.of_data_page (uses_of_present (q := p) (w := ⟨uva, hu⟩) hP) (memcpy_pmm d n pa kva m)
    fun _ hne => memcpy_other_pages d n _ pa kva m hpages hne

theorem copied_chunk (d : Direction) (kva : BitVec 32) (h : m.1.Isolated K)
    (hu : vmUserLo ≤ uva ∧ uva < vmUserHi) (hP : m.1.getPtblEntryByVa K p uva &&& pteP ≠ 0)
    (hn : n ≤ pageSize - uva.toNat % pageSize) {pa : BitVec 32}
    (hpa : pa = userPa (m.1.getPtblEntryByVa K p uva) uva) :
    Copied K d p uva kva n m (memcpy d n pa kva m) [⟨uva, pa, n⟩] := by
  have hsmall : n ≤ 2 ^ 32 := Nat.le_trans hn (Nat.le_trans (Nat.sub_le _ _) (by decide))
  obtain ⟨hiso, hentries, _⟩ := h.memcpy_chunk d kva hu hP hn hpa
  have hbytes : ∀ w, offset uva w < n → m.1.getPtblEntryByVa K p w &&& pteP ≠ 0 ∧
      userPa (m.1.getPtblEntryByVa K p w) w = pa + (w - uva) := by
    intro w hw
    obtain ⟨hsame, haddr⟩ := chunk_addr (m.1.getPtblEntryByVa K p uva) hn hw
    rw [getPtblEntryByVa_samePage hsame, hpa]
    exact ⟨hP, haddr⟩
  have hoff : ∀ b w : BitVec 32, offset b (b + (w - uva)) = offset uva w := by
    intro b w
    unfold offset
    rw [BitVec.add_comm, BitVec.add_sub_cancel]
  refine ⟨hiso, fun q w _ => hentries q w, fun a ha k hk => ?_, fun w hw => ?_,
    fun q w b hc hb => ?_, fun a hc => ?_⟩
  · rw [List.mem_singleton.mp ha] at hk ⊢
    have hw : offset uva (uva + BitVec.ofNat 32 k) < n := by
      rw [offset_add (Nat.lt_of_lt_of_le hk hsmall)]
      exact hk
    obtain ⟨hPw, haddr⟩ := hbytes _ hw
    unfold Mapped
    rw [hentries]
    refine ⟨hPw, ?_⟩
    rw [haddr, BitVec.add_comm uva, BitVec.add_sub_cancel]
  · obtain ⟨hPw, haddr⟩ := hbytes w hw
    rw [userByte_eq (by rw [hentries]; exact hPw), hentries, haddr]
    cases d with
    | copyin =>
      obtain ⟨hvmm, hmem⟩ := memcpy_copyin n hsmall pa kva m
      rw [hmem, if_pos (by rw [hoff]; exact hw), hvmm, BitVec.add_comm kva, BitVec.add_sub_cancel]
    | copyout =>
      obtain ⟨hkmem, hread⟩ := memcpy_copyout n hsmall pa kva m
      rw [hread, if_pos (by rw [hoff]; exact hw), hkmem, BitVec.add_comm pa, BitVec.add_sub_cancel]
  · cases d with
    | copyin =>
      rw [(memcpy_copyin n hsmall pa kva m).1]
      exact hb
    | copyout =>
      have hPw := present_of_userByte hb
      have hout := h.not_in_chunk hu hP hn hPw (hc.resolve_left (by decide))
      rw [← hpa] at hout
      rw [← hb, userByte_eq hPw, userByte_eq (by rw [hentries]; exact hPw), hentries,
        (memcpy_copyout n hsmall pa kva m).2, if_neg hout]
  · cases d with
    | copyin => rw [(memcpy_copyin n hsmall pa kva m).2, if_neg (hc.resolve_left (by decide))]
    | copyout => rw [(memcpy_copyout n hsmall pa kva m).1]

end Parts

end MCertiKOS
