import Mathlib.Data.Finset.Card
import Mathlib.Order.Interval.Finset.Nat
import DistributedSystems.Library.Loops

/-!
# Physical pages (`kern/pmm/MATIntro`, `MATInit`, `MATOp`)

The allocation table, its initialisation from the memory map, and the page allocator.  Addresses and
lengths are 32-bit words; page indices are natural numbers.
-/

namespace MCertiKOS

open Function

/-! ## 1. The allocation table -/

def pageSize : Nat := 4096

def userLoPi : Nat := 0x40000

def userHiPi : Nat := 0xF0000

/-- A page index `palloc` scans. -/
abbrev UserPage := { i : Nat // userLoPi ≤ i ∧ i < userHiPi }

def firstUserPage : UserPage := ⟨userLoPi, by decide⟩

def UserPage.next (i : UserPage) : UserPage :=
  if h : userHiPi ≤ i.val + 1 then firstUserPage
  else ⟨i.val + 1, Nat.le_succ_of_le i.property.1, Nat.lt_of_not_le h⟩

/-- The table `AT` with `NUM_PAGES` and `last_palloc_index`.  Permissions above 1 are normal; only
pages of the user window that the machine has are. -/
structure PMem where
  nps : Nat
  perm : Nat → Nat
  allocated : Nat → Nat
  lastPallocIndex : UserPage
  norm_user : ∀ i, 1 < perm i → userLoPi ≤ i ∧ i < userHiPi ∧ i < nps

namespace PMem

def atIsNorm (m : PMem) (i : Nat) : Bool := 1 < m.perm i

def atIsAllocated (m : PMem) (i : Nat) : Bool := 0 < m.allocated i

def atSetAllocated (m : PMem) (i v : Nat) : PMem :=
  { m with allocated := update m.allocated i v }

end PMem

/-! ## 2. Initialisation -/

/-- An entry of the physical memory map: `get_mms`, `get_mml`, `is_usable`. -/
structure MemRange where
  start : BitVec 32
  len : BitVec 32
  usable : Bool
  deriving DecidableEq

/-- The number of pages below the highest end of a range.  The sum of start and length wraps. -/
def numPages (mmap : List MemRange) : Nat :=
  (mmap.foldl (fun nps r => max nps (r.start + r.len).toNat) 0) / pageSize

/-- The first range that contains the whole page decides; a page in the window is normal when that
range is usable. -/
def pagePerm (mmap : List MemRange) (i : Nat) : Nat :=
  if i < userLoPi ∨ userHiPi ≤ i then 1
  else
    match mmap.find? fun r =>
      decide (r.start.toNat ≤ i * pageSize ∧ (i + 1) * pageSize ≤ (r.start + r.len).toNat) with
    | some r => if r.usable then 2 else 0
    | none => 0

/-- The loop sets the permission of every page below `nps`; the rest of the static table is 0. -/
def initialPerm (mmap : List MemRange) (i : Nat) : Nat :=
  if i < numPages mmap then pagePerm mmap i else 0

theorem initialPerm_norm (mmap : List MemRange) (i : Nat) (h : 1 < initialPerm mmap i) :
    userLoPi ≤ i ∧ i < userHiPi ∧ i < numPages mmap := by
  unfold initialPerm at h
  split at h
  · rename_i hlt
    unfold pagePerm at h
    split at h
    · omega
    · rename_i hwin
      omega
  · omega

def pmemInit (mmap : List MemRange) : PMem where
  nps := numPages mmap
  perm := initialPerm mmap
  allocated := fun _ => 0
  lastPallocIndex := firstUserPage
  norm_user := initialPerm_norm mmap

/-! ## 3. The allocator -/

/-- The loop's variables; `pallocFreeIndex = none` is the value `nps`, which no normal page has. -/
structure PallocLoop where
  pallocIndex : UserPage
  pallocFreeIndex : Option UserPage
  first : Bool

namespace PMem

def available (m : PMem) (i : Nat) : Bool := m.atIsNorm i && !m.atIsAllocated i

def pallocCond (m : PMem) (s : PallocLoop) : Bool :=
  (s.pallocIndex ≠ m.lastPallocIndex || s.first) && s.pallocFreeIndex.isNone

def pallocBody (m : PMem) (s : PallocLoop) : PallocLoop where
  pallocIndex := s.pallocIndex.next
  pallocFreeIndex := if m.available s.pallocIndex then some s.pallocIndex else s.pallocFreeIndex
  first := false

def take (m : PMem) (i : UserPage) : PMem := { m.atSetAllocated i 1 with lastPallocIndex := i }

/-- `palloc`: the page, or 0; nothing if the scan did not end. -/
def palloc (m : PMem) : Option (PMem × Nat) :=
  (Loops.runWhile m.pallocCond m.pallocBody userHiPi ⟨m.lastPallocIndex, none, true⟩).map fun s =>
    match s.pallocFreeIndex with
    | none => ({ m with lastPallocIndex := firstUserPage }, 0)
    | some i => (m.take i, i.val)

def pfree (m : PMem) (i : Nat) : PMem := m.atSetAllocated i 0

end PMem

/-! ## 4. The scan visits every page -/

def userPages : Nat := userHiPi - userLoPi

theorem next_val (i : UserPage) :
    i.next.val = if i.val + 1 = userHiPi then userLoPi else i.val + 1 := by
  have hi := i.property.2
  unfold UserPage.next
  split
  · rename_i h
    rw [if_pos (by omega)]
    rfl
  · rename_i h
    rw [if_neg (by omega)]

theorem iterate_next_val (i : UserPage) (k : Nat) :
    (UserPage.next^[k] i).val = userLoPi + (i.val - userLoPi + k) % userPages := by
  have hi := i.property
  have hw : userPages = 720896 := by decide
  have hlo : userLoPi = 262144 := by decide
  have hhi : userHiPi = 983040 := by decide
  induction k with
  | zero =>
    rw [Function.iterate_zero, id, Nat.add_zero, Nat.mod_eq_of_lt (by omega)]
    omega
  | succ k ih =>
    rw [Function.iterate_succ', Function.comp, next_val, ih]
    rw [hw]
    split <;> omega

theorem exists_iterate_next (i p : UserPage) : ∃ k, k < userPages ∧ UserPage.next^[k] i = p := by
  have hi := i.property
  have hp := p.property
  have hw : userPages = 720896 := by decide
  have hlo : userLoPi = 262144 := by decide
  have hhi : userHiPi = 983040 := by decide
  refine ⟨(p.val + userPages - i.val) % userPages, Nat.mod_lt _ (by omega), Subtype.ext ?_⟩
  rw [iterate_next_val]
  rw [hw]
  omega

namespace PMem

/-- After `userPages - k` iterations: the pages seen so far were not available, or one was found. -/
def Scanning (m : PMem) (k : Nat) (s : PallocLoop) : Prop :=
  (∃ p, s.pallocFreeIndex = some p ∧ m.available p = true) ∨
    (s.pallocFreeIndex = none ∧ k ≤ userPages ∧
      s.pallocIndex = UserPage.next^[userPages - k] m.lastPallocIndex ∧
      (s.first = true ↔ k = userPages) ∧
      ∀ j < userPages - k, m.available (UserPage.next^[j] m.lastPallocIndex).val = false)

theorem scanning_body (m : PMem) (k : Nat) (s : PallocLoop) (h : m.Scanning k s)
    (hc : m.pallocCond s = true) : ∃ k', k' < k ∧ m.Scanning k' (m.pallocBody s) := by
  unfold pallocCond at hc
  rw [Bool.and_eq_true] at hc
  rcases h with ⟨p, hp, _⟩ | ⟨hnone, hk, hidx, hfirst, hseen⟩
  · rw [hp] at hc
    exact absurd hc.2 (by simp)
  · -- the scan is not back at its start, so a page is left
    have hpos : 0 < k := by
      rcases Nat.eq_zero_or_pos k with rfl | hpos
      · have hback : UserPage.next^[userPages] m.lastPallocIndex = m.lastPallocIndex := by
          apply Subtype.ext
          have hi := m.lastPallocIndex.property
          have hw : userPages = 720896 := by decide
          have hlo : userLoPi = 262144 := by decide
          have hhi : userHiPi = 983040 := by decide
          rw [iterate_next_val, hw]
          omega
        rw [Nat.sub_zero, hback] at hidx
        have hf : s.first = false := by
          cases hb : s.first with
          | false => rfl
          | true =>
            have hw := hfirst.mp hb
            exact absurd hw (by decide)
        have h1 := hc.1
        rw [hidx, hf] at h1
        simp at h1
      · exact hpos
    refine ⟨k - 1, by omega, ?_⟩
    have hstep : userPages - (k - 1) = userPages - k + 1 := by omega
    cases hav : m.available s.pallocIndex with
    | true =>
      refine Or.inl ⟨s.pallocIndex, ?_, hav⟩
      simp only [pallocBody, hav, if_true]
    | false =>
      refine Or.inr ⟨?_, by omega, ?_, ?_, fun j hj => ?_⟩
      · simp only [pallocBody, hav, Bool.false_eq_true, if_false, hnone]
      · rw [hstep, Function.iterate_succ', Function.comp, ← hidx]
        rfl
      · constructor
        · intro hf
          exact absurd hf (by simp [pallocBody])
        · intro hk'
          omega
      · rw [hstep] at hj
        rcases Nat.lt_or_ge j (userPages - k) with hlt | hge
        · exact hseen j hlt
        · rw [show j = userPages - k by omega, ← hidx]
          exact hav

theorem palloc_spec (m : PMem) :
    (∃ p : UserPage, m.available p = true ∧ m.palloc = some (m.take p, p.val)) ∨
    ((∀ p : UserPage, m.available p = false) ∧
      m.palloc = some ({ m with lastPallocIndex := firstUserPage }, 0)) := by
  have hstart : m.Scanning userPages ⟨m.lastPallocIndex, none, true⟩ := by
    refine Or.inr ⟨rfl, le_rfl, ?_, ⟨fun _ => rfl, fun _ => rfl⟩, fun j hj => ?_⟩
    · rw [Nat.sub_self]
      rfl
    · omega
  obtain ⟨k, s, hrun, hI, hc⟩ := Loops.runWhile_total m.scanning_body userHiPi userPages _ hstart
    (by decide)
  unfold palloc
  rw [hrun]
  rcases hI with ⟨p, hp, hav⟩ | ⟨hnone, hk, hidx, hfirst, hseen⟩
  · refine Or.inl ⟨p, hav, ?_⟩
    rw [Option.map_some, hp]
  · refine Or.inr ⟨fun p => ?_, ?_⟩
    · -- the loop ended at its start: the whole window was seen
      have hend : s.pallocIndex = m.lastPallocIndex ∧ s.first = false := by
        unfold pallocCond at hc
        simp only [hnone, Option.isNone_none, Bool.and_true, Bool.or_eq_false_iff,
          decide_eq_false_iff_not, not_not] at hc
        exact hc
      have hk0 : k = 0 := by
        have hne : k ≠ userPages := by
          intro he
          have hf := hfirst.mpr he
          rw [hend.2] at hf
          contradiction
        have hv := congrArg Subtype.val (hidx.symm.trans hend.1)
        have hi := m.lastPallocIndex.property
        have hw : userPages = 720896 := by decide
        have hlo : userLoPi = 262144 := by decide
        have hhi : userHiPi = 983040 := by decide
        rw [iterate_next_val, hw] at hv
        omega
      obtain ⟨j, hj, hjp⟩ := exists_iterate_next m.lastPallocIndex p
      rw [← hjp]
      exact hseen j (by omega)
    · rw [Option.map_some, hnone]

/-! ## 5. Counting pages -/

def normalPages (m : PMem) : Finset Nat := (Finset.range (2 ^ 20)).filter fun i => m.atIsNorm i

def allocatedPages (m : PMem) : Finset Nat :=
  (Finset.range (2 ^ 20)).filter fun i => m.atIsNorm i && m.atIsAllocated i

variable {m : PMem} {i : Nat}

theorem mem_normalPages : i ∈ m.normalPages ↔ m.atIsNorm i = true := by
  have hwin : m.atIsNorm i = true → i < 2 ^ 20 := by
    intro h
    have hlt := (m.norm_user i (of_decide_eq_true h)).2.1
    exact Nat.lt_trans hlt (by decide)
  rw [normalPages, Finset.mem_filter, Finset.mem_range]
  exact ⟨fun h => h.2, fun h => ⟨hwin h, h⟩⟩

theorem mem_allocatedPages :
    i ∈ m.allocatedPages ↔ m.atIsNorm i = true ∧ m.atIsAllocated i = true := by
  rw [allocatedPages, Finset.mem_filter, ← Bool.and_eq_true]
  constructor
  · exact fun h => h.2
  · intro h
    have hnorm := mem_normalPages.mpr (Bool.and_eq_true _ _ ▸ h).1
    exact ⟨(Finset.mem_filter.mp hnorm).1, h⟩

theorem allocated_window (h : i ∈ m.allocatedPages) : userLoPi ≤ i ∧ i < userHiPi := by
  have hnorm := (mem_allocatedPages.mp h).1
  have hwin := m.norm_user i (of_decide_eq_true hnorm)
  exact ⟨hwin.1, hwin.2.1⟩

theorem atIsAllocated_set (m : PMem) (i v j : Nat) :
    (m.atSetAllocated i v).atIsAllocated j = if j = i then decide (0 < v) else m.atIsAllocated j := by
  show decide (0 < update m.allocated i v j) = _
  split
  · rename_i h
    rw [h, update_self]
  · rename_i h
    rw [update_of_ne h]
    rfl

theorem allocatedPages_insert {p : UserPage} (hav : m.available p = true) :
    (m.take p).allocatedPages = insert p.val m.allocatedPages := by
  have hnorm : m.atIsNorm p = true := (Bool.and_eq_true _ _ ▸ hav).1
  ext i
  rw [Finset.mem_insert, mem_allocatedPages, mem_allocatedPages]
  show m.atIsNorm i = true ∧ (m.atSetAllocated p 1).atIsAllocated i = true ↔ _
  rw [atIsAllocated_set]
  rcases eq_or_ne i p.val with rfl | hne
  · simp [hnorm]
  · simp [hne]

theorem notMem_allocatedPages (hav : m.available i = true) : i ∉ m.allocatedPages := by
  intro hmem
  rw [available, (mem_allocatedPages.mp hmem).2, Bool.not_true, Bool.and_false] at hav
  contradiction

theorem allocatedPages_pfree (m : PMem) (i : Nat) :
    (m.pfree i).allocatedPages = m.allocatedPages.erase i := by
  ext j
  rw [Finset.mem_erase, mem_allocatedPages, mem_allocatedPages]
  show m.atIsNorm j = true ∧ (m.atSetAllocated i 0).atIsAllocated j = true ↔ _
  rw [atIsAllocated_set]
  rcases eq_or_ne j i with rfl | hne
  · simp
  · simp [hne]

theorem exists_available (h : m.allocatedPages.card < m.normalPages.card) :
    ∃ p : UserPage, m.available p = true := by
  have hsub : ¬ m.normalPages ⊆ m.allocatedPages := by
    intro hsub
    have := Finset.card_le_card hsub
    omega
  obtain ⟨i, hi, hna⟩ := Finset.not_subset.mp hsub
  have hnorm := mem_normalPages.mp hi
  have hwin := m.norm_user i (of_decide_eq_true hnorm)
  refine ⟨⟨i, hwin.1, hwin.2.1⟩, ?_⟩
  show (m.atIsNorm i && !m.atIsAllocated i) = true
  cases hal : m.atIsAllocated i with
  | false => rw [hnorm]; rfl
  | true => exact absurd (mem_allocatedPages.mpr ⟨hnorm, hal⟩) hna

end PMem

end MCertiKOS
