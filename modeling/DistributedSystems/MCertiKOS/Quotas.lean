import Mathlib.Algebra.BigOperators.Ring.Finset
import Mathlib.Data.Int.Cast.Basic
import DistributedSystems.MCertiKOS.Containers

/-!
# Memory quotas are isolated

The table of containers is read as a tree of budgets.  As long as no spawn makes the unsigned sum of
`container_can_consume` wrap, and no page is freed on behalf of a container that holds no page of its
own, every operation is one of the operations on budgets and the pages that are out are exactly the
own usages.
-/

namespace MCertiKOS

open Function

theorem containerInit_root (mmap : List MemRange) : (containerInit mmap).container rootPid =
    ⟨BitVec.ofNat 32 (realQuota (pmemInit mmap)), 0, rootPid, 0, true⟩ := by
  unfold containerInit
  dsimp only
  rw [update_self]

theorem containerInit_other (mmap : List MemRange) (i : Pid) (hi : i ≠ rootPid) :
    (containerInit mmap).container i = SContainer.zero := by
  unfold containerInit
  dsimp only
  rw [update_of_ne hi]

namespace Pmm

/-! ## 1. What the operations do when the locks are free -/

variable {s : Pmm} {id : Pid} {page : Nat} {quota : BitVec 32}

theorem release_acquire (h : s.locked id = false) :
    update (update s.locked id true) id false = s.locked := by
  rw [update_idem, ← h, update_eq_self]

def withUsage (s : Pmm) (id : Pid) (u : BitVec 32) : Pmm :=
  s.setContainer id { s.container id with usage := u }

def withChild (s : Pmm) (id child : Pid) (quota : BitVec 32) : Pmm :=
  (s.setContainer child ⟨quota, 0, id, 0, true⟩).setContainer id
    { s.container id with
      usage := (s.container id).usage + quota
      nchildren := (s.container id).nchildren + 1 }

theorem containerSplit_eq (hl : s.locked id = false) (quota : BitVec 32)
    (h : id.val * maxChildren + 1 + (s.container id).nchildren < numIds) :
    s.containerSplit id quota =
      some (s.withChild id ⟨_, h⟩ quota,
        some ⟨id.val * maxChildren + 1 + (s.container id).nchildren, h⟩) := by
  have hne : id ≠ ⟨id.val * maxChildren + 1 + (s.container id).nchildren, h⟩ := by
    intro he
    have hv := congrArg Fin.val he
    change id.val = id.val * 3 + 1 + (s.container id).nchildren at hv
    omega
  have hc : update s.container
      (⟨id.val * maxChildren + 1 + (s.container id).nchildren, h⟩ : Pid) ⟨quota, 0, id, 0, true⟩ id =
        s.container id :=
    update_of_ne hne _ _
  unfold containerSplit spinlockAcquire
  rw [hl]
  show (if h : _ then _ else _) = _
  rw [dif_pos h]
  congr 2
  unfold withChild spinlockRelease setContainer
  dsimp only
  rw [hc, release_acquire hl]

theorem containerSplit_full (hl : s.locked id = false) (quota : BitVec 32)
    (h : ¬ id.val * maxChildren + 1 + (s.container id).nchildren < numIds) :
    s.containerSplit id quota = some ({ s with locked := update s.locked id true }, none) := by
  unfold containerSplit spinlockAcquire
  rw [hl]
  show (if h : _ then _ else _) = _
  rw [dif_neg h]
  rfl

theorem containerSplit_locked (hl : s.locked id = true) (quota : BitVec 32) :
    s.containerSplit id quota = none := by
  unfold containerSplit spinlockAcquire
  rw [hl]
  rfl

theorem kctxNew_eq (hl : s.locked id = false) (hcan : s.containerCanConsume id quota = true)
    (h : id.val * maxChildren + 1 + (s.container id).nchildren < numIds) :
    s.kctxNew id quota =
      some (s.withChild id ⟨_, h⟩ quota,
        some ⟨id.val * maxChildren + 1 + (s.container id).nchildren, h⟩) := by
  unfold kctxNew allocMemQuota
  rw [if_pos hcan, containerSplit_eq hl quota h]

theorem kctxNew_full (hl : s.locked id = false) (hcan : s.containerCanConsume id quota = true)
    (h : ¬ id.val * maxChildren + 1 + (s.container id).nchildren < numIds) :
    s.kctxNew id quota = some ({ s with locked := update s.locked id true }, none) := by
  unfold kctxNew allocMemQuota
  rw [if_pos hcan, containerSplit_full hl quota h]

variable {child : Pid} {s' : Pmm}

theorem kctxNew_cases {r : Option Pid} (h : s.kctxNew id quota = some (s', r)) :
    (s.containerCanConsume id quota = false ∧ s' = s ∧ r = none) ∨
    (s.containerCanConsume id quota = true ∧
      ∃ child : Pid, child.val = id.val * maxChildren + 1 + (s.container id).nchildren ∧
        s' = s.withChild id child quota ∧ r = some child) ∨
    (s.containerCanConsume id quota = true ∧
      numIds ≤ id.val * maxChildren + 1 + (s.container id).nchildren ∧
      s' = { s with locked := update s.locked id true } ∧ r = none) := by
  cases hcan : s.containerCanConsume id quota with
  | false =>
    unfold kctxNew at h
    rw [hcan, if_neg (by decide)] at h
    obtain ⟨rfl, rfl⟩ := Prod.mk.inj (Option.some.inj h)
    exact Or.inl ⟨rfl, rfl, rfl⟩
  | true =>
    cases hl : s.locked id with
    | true =>
      unfold kctxNew allocMemQuota at h
      rw [if_pos hcan, containerSplit_locked hl] at h
      contradiction
    | false =>
      by_cases hlt : id.val * maxChildren + 1 + (s.container id).nchildren < numIds
      · rw [kctxNew_eq hl hcan hlt] at h
        obtain ⟨rfl, rfl⟩ := Prod.mk.inj (Option.some.inj h)
        exact Or.inr (Or.inl ⟨rfl, _, rfl, rfl, rfl⟩)
      · rw [kctxNew_full hl hcan hlt] at h
        obtain ⟨rfl, rfl⟩ := Prod.mk.inj (Option.some.inj h)
        exact Or.inr (Or.inr ⟨rfl, Nat.le_of_not_lt hlt, rfl, rfl⟩)

theorem sysSpawn_eq {elfId : BitVec 32} (hl : s.locked id = false)
    (hcan : s.containerCanConsume id quota = true)
    (hids : ¬ numIds < id.val * maxChildren + 1 + maxChildren)
    (hn : (s.container id).nchildren < maxChildren) (helf : knownElf elfId = true)
    (h : id.val * maxChildren + 1 + (s.container id).nchildren < numIds) :
    s.sysSpawn id elfId quota =
      some (s.withChild id ⟨_, h⟩ quota, .succ,
        some ⟨id.val * maxChildren + 1 + (s.container id).nchildren, h⟩) := by
  unfold sysSpawn kctxNew allocMemQuota
  rw [hcan, if_neg (by decide), if_neg hids, if_neg (Nat.ne_of_lt hn), if_pos helf, if_pos rfl,
    containerSplit_eq hl quota h]
  rfl

theorem containerAlloc_eq (hl : s.locked id = false)
    (hq : BitVec.sle ((s.container id).usage + 1) (s.container id).quota = true) {mem : PMem}
    (hp : s.mem.palloc = some (mem, page)) :
    s.containerAlloc id =
      some ({ s.withUsage id ((s.container id).usage + 1) with mem := mem }, page) := by
  unfold containerAlloc spinlockAcquire
  rw [hl]
  show (if _ then _ else _) = _
  rw [if_pos hq]
  show (s.mem.palloc).bind _ = _
  rw [hp]
  show some _ = some _
  congr 2
  unfold withUsage setContainer spinlockRelease
  rw [release_acquire hl]

theorem containerAlloc_refused (hl : s.locked id = false)
    (hq : BitVec.sle ((s.container id).usage + 1) (s.container id).quota = false) :
    s.containerAlloc id = some (s, 0) := by
  unfold containerAlloc spinlockAcquire
  rw [hl]
  show (if BitVec.sle ((s.container id).usage + 1) (s.container id).quota = true then _ else _) = _
  rw [hq]
  show some _ = some _
  congr 2
  unfold spinlockRelease
  rw [release_acquire hl]

theorem containerAlloc_returns (hl : s.locked id = false) :
    ∃ s' page, s.containerAlloc id = some (s', page) ∧ s'.locked = s.locked := by
  cases hq : BitVec.sle ((s.container id).usage + 1) (s.container id).quota with
  | false => exact ⟨_, _, containerAlloc_refused hl hq, rfl⟩
  | true =>
    rcases s.mem.palloc_spec with ⟨p, _, hp⟩ | ⟨_, hp⟩
    · exact ⟨_, _, containerAlloc_eq hl hq hp, rfl⟩
    · exact ⟨_, _, containerAlloc_eq hl hq hp, rfl⟩

theorem containerAlloc_isSome_iff : (s.containerAlloc id).isSome = true ↔ s.locked id = false := by
  cases hl : s.locked id with
  | true =>
    unfold containerAlloc spinlockAcquire
    rw [if_pos hl]
    exact ⟨Bool.noConfusion, Bool.noConfusion⟩
  | false =>
    obtain ⟨s', page, hs, _⟩ := containerAlloc_returns hl
    rw [hs]
    exact ⟨fun _ => rfl, fun _ => rfl⟩

theorem containerAlloc_cases (h : s.containerAlloc id = some (s', page)) :
    (BitVec.sle ((s.container id).usage + 1) (s.container id).quota = false ∧ s' = s ∧ page = 0) ∨
    (BitVec.sle ((s.container id).usage + 1) (s.container id).quota = true ∧
      s'.container id = { s.container id with usage := (s.container id).usage + 1 }) := by
  have hl : s.locked id = false := containerAlloc_isSome_iff.mp (by rw [h]; rfl)
  cases hq : BitVec.sle ((s.container id).usage + 1) (s.container id).quota with
  | false =>
    rw [containerAlloc_refused hl hq] at h
    obtain ⟨rfl, rfl⟩ := Prod.mk.inj (Option.some.inj h)
    exact Or.inl ⟨rfl, rfl, rfl⟩
  | true =>
    refine Or.inr ⟨rfl, ?_⟩
    obtain ⟨mem, n, hp⟩ : ∃ mem n, s.mem.palloc = some (mem, n) := by
      rcases s.mem.palloc_spec with ⟨p, _, hp⟩ | ⟨_, hp⟩
      · exact ⟨_, _, hp⟩
      · exact ⟨_, _, hp⟩
    rw [containerAlloc_eq hl hq hp] at h
    obtain ⟨rfl, _⟩ := Prod.mk.inj (Option.some.inj h)
    exact update_self _ _ _

theorem containerFree_eq (hl : s.locked id = false) (ha : s.mem.atIsAllocated page = true)
    (hu : BitVec.slt 0 (s.container id).usage = true) :
    s.containerFree id page =
      some { s.withUsage id ((s.container id).usage - 1) with mem := s.mem.pfree page } := by
  unfold containerFree spinlockAcquire
  rw [hl]
  show (if s.mem.atIsAllocated page = true then _ else _) = _
  rw [if_pos ha]
  show some (spinlockRelease (if BitVec.slt 0 (s.container id).usage = true then _ else _) id) = _
  rw [if_pos hu]
  unfold withUsage setContainer spinlockRelease
  rw [release_acquire hl]

theorem containerFree_uncharged (hl : s.locked id = false) (ha : s.mem.atIsAllocated page = true)
    (hu : BitVec.slt 0 (s.container id).usage = false) :
    s.containerFree id page = some { s with mem := s.mem.pfree page } := by
  unfold containerFree spinlockAcquire
  rw [hl]
  show (if s.mem.atIsAllocated page = true then _ else _) = _
  rw [if_pos ha]
  show some (spinlockRelease (if BitVec.slt 0 (s.container id).usage = true then _ else _) id) = _
  rw [hu]
  unfold spinlockRelease
  rw [if_neg Bool.false_ne_true, release_acquire hl]

theorem containerFree_unallocated (hl : s.locked id = false) (ha : s.mem.atIsAllocated page = false) :
    s.containerFree id page = some s := by
  unfold containerFree spinlockAcquire
  rw [hl]
  show (if s.mem.atIsAllocated page = true then _ else _) = _
  rw [ha]
  show some (spinlockRelease _ id) = _
  unfold spinlockRelease
  rw [release_acquire hl]

/-! ## 2. The table as a tree of budgets -/

def budget (s : Pmm) : Budgets.Tree Pid where
  root := rootPid
  live := Finset.univ.filter fun i => (s.container i).used
  parent i := (s.container i).parent
  quota i := (s.container i).quota.toNat
  usage i := (s.container i).usage.toNat

theorem mem_live {i : Pid} : i ∈ s.budget.live ↔ (s.container i).used = true := by
  show i ∈ Finset.univ.filter _ ↔ _
  rw [Finset.mem_filter]
  exact ⟨fun h => h.2, fun h => ⟨Finset.mem_univ i, h⟩⟩

theorem withUsage_field {β : Type} (f : SContainer → β) (s : Pmm) (id : Pid) (u : BitVec 32)
    (hf : ∀ c : SContainer, f { c with usage := u } = f c) (j : Pid) :
    f ((s.withUsage id u).container j) = f (s.container j) := by
  show f (update s.container id { s.container id with usage := u } j) = _
  rcases eq_or_ne j id with rfl | hne
  · rw [update_self, hf]
  · rw [update_of_ne hne]

theorem budget_withUsage (s : Pmm) (id : Pid) (u : BitVec 32) :
    (s.withUsage id u).budget = s.budget.setUsage id u.toNat := by
  unfold budget Budgets.Tree.setUsage
  congr 1
  · ext i
    rw [Finset.mem_filter, Finset.mem_filter, withUsage_field (·.used) s id u (fun _ => rfl) i]
  · funext i
    exact withUsage_field (·.parent) s id u (fun _ => rfl) i
  · funext i
    exact withUsage_field (·.quota.toNat) s id u (fun _ => rfl) i
  · funext i
    show (update s.container id { s.container id with usage := u } i).usage.toNat = _
    rcases eq_or_ne i id with rfl | hne
    · rw [update_self, update_self]
    · rw [update_of_ne hne, update_of_ne hne]

theorem ne_child {n : Nat} (hc : child.val = id.val * maxChildren + 1 + n) : id ≠ child := by
  rintro rfl
  unfold maxChildren at hc
  omega

theorem withChild_parent (s : Pmm) (id child : Pid) (quota : BitVec 32) :
    (s.withChild id child quota).container id =
      { s.container id with
        usage := (s.container id).usage + quota
        nchildren := (s.container id).nchildren + 1 } :=
  update_self _ _ _

theorem withChild_child (s : Pmm) (hne : id ≠ child) (quota : BitVec 32) :
    (s.withChild id child quota).container child = ⟨quota, 0, id, 0, true⟩ := by
  show update (update s.container child _) id _ child = _
  rw [update_of_ne hne.symm, update_self]

theorem withChild_other (s : Pmm) {i : Pid} (quota : BitVec 32) (hid : i ≠ id) (hic : i ≠ child) :
    (s.withChild id child quota).container i = s.container i := by
  show update (update s.container child _) id _ i = _
  rw [update_of_ne hid, update_of_ne hic]

theorem withChild_field {β : Type} (f : SContainer → β) (s : Pmm) (id child : Pid)
    (quota : BitVec 32) (hf : ∀ (c : SContainer) (u : BitVec 32) (n : Nat),
      f { c with usage := u, nchildren := n } = f c) (hne : id ≠ child) (j : Pid) :
    f ((s.withChild id child quota).container j) =
      update (fun i => f (s.container i)) child (f ⟨quota, 0, id, 0, true⟩) j := by
  show f (update (update s.container child _) id _ j) = _
  rcases eq_or_ne j id with rfl | hji
  · rw [update_self, hf, update_of_ne hne]
  · rw [update_of_ne hji]
    rcases eq_or_ne j child with rfl | hjc
    · rw [update_self, update_self]
    · rw [update_of_ne hjc, update_of_ne hjc]

theorem budget_withChild (s : Pmm) (hne : id ≠ child) (quota : BitVec 32)
    (hsum : (s.container id).usage.toNat + quota.toNat < 2 ^ 32) :
    (s.withChild id child quota).budget = s.budget.grant id child quota.toNat := by
  unfold budget Budgets.Tree.grant
  congr 1
  · ext i
    rw [Finset.mem_filter, withChild_field (·.used) s id child quota (fun _ _ _ => rfl) hne,
      Finset.mem_insert, Finset.mem_filter]
    rcases eq_or_ne i child with rfl | hic
    · simp
    · simp [hic]
  · funext i
    exact withChild_field (·.parent) s id child quota (fun _ _ _ => rfl) hne i
  · funext i
    exact withChild_field (·.quota.toNat) s id child quota (fun _ _ _ => rfl) hne i
  · funext i
    show (update (update s.container child _) id _ i).usage.toNat = _
    rcases eq_or_ne i id with rfl | hid
    · rw [update_self, update_self]
      rw [BitVec.toNat_add, Nat.mod_eq_of_lt hsum]
    · rw [update_of_ne hid, update_of_ne hid]
      rcases eq_or_ne i child with rfl | hic
      · rw [update_self, update_self]
        rfl
      · rw [update_of_ne hic, update_of_ne hic]

/-! ## 3. The invariant -/

def spawnRefused (s : Pmm) (curid : Pid) (elfId : BitVec 32) : Bool :=
  decide (numIds < curid.val * maxChildren + 1 + maxChildren) ||
    decide ((s.container curid).nchildren = maxChildren) || !knownElf elfId

/-- Containers have the index that their parent's number and their place among its children give. -/
structure Numbered (s : Pmm) : Prop where
  nchildren_le : ∀ i, (s.container i).nchildren ≤ maxChildren
  parent_used : ∀ j, (s.container j).used = true → (s.container (s.container j).parent).used = true
  child_index : ∀ j, (s.container j).used = true → j ≠ rootPid →
    ∃ k < (s.container (s.container j).parent).nchildren,
      j.val = (s.container j).parent.val * maxChildren + 1 + k

namespace Numbered

variable {s : Pmm} (h : s.Numbered)

include h

theorem child_fresh {child : Pid} (hn : (s.container id).nchildren < maxChildren)
    (hc : child.val = id.val * maxChildren + 1 + (s.container id).nchildren) :
    (s.container child).used = false := by
  cases hu : (s.container child).used with
  | false => rfl
  | true =>
    have hne : child ≠ rootPid := by
      rintro rfl
      change 0 = _ at hc
      omega
    obtain ⟨k, hk, hkc⟩ := h.child_index child hu hne
    have hle := h.nchildren_le (s.container child).parent
    rw [hc] at hkc
    unfold maxChildren at *
    -- the index determines the parent, and the parent has no such child yet
    have hp : (s.container child).parent = id := Fin.ext (by omega)
    rw [hp] at hk hkc
    omega

theorem withChild {child : Pid} (hid : (s.container id).used = true)
    (hn : (s.container id).nchildren < maxChildren)
    (hc : child.val = id.val * maxChildren + 1 + (s.container id).nchildren) (quota : BitVec 32) :
    (s.withChild id child quota).Numbered := by
  have hfresh := h.child_fresh hn hc
  have hne := ne_child hc
  have hused : ∀ j, (s.container j).used = true →
      ((s.withChild id child quota).container j).used = true := by
    intro j hj
    rw [withChild_field (·.used) s id child quota (fun _ _ _ => rfl) hne]
    rcases eq_or_ne j child with rfl | hjc
    · exact update_self _ _ _
    · rwa [update_of_ne hjc]
  -- an old child keeps its parent
  have hold : ∀ j, j ≠ child → ((s.withChild id child quota).container j).used = true →
      (s.container j).used = true ∧
        ((s.withChild id child quota).container j).parent = (s.container j).parent := by
    intro j hjc hj
    rw [withChild_field (·.used) s id child quota (fun _ _ _ => rfl) hne, update_of_ne hjc] at hj
    rw [withChild_field (·.parent) s id child quota (fun _ _ _ => rfl) hne, update_of_ne hjc]
    exact ⟨hj, rfl⟩
  refine ⟨fun i => ?_, fun j hj => ?_, fun j hj hroot => ?_⟩
  · rcases eq_or_ne i child with rfl | hic
    · rw [withChild_child s hne]
      exact Nat.zero_le _
    · rcases eq_or_ne i id with rfl | hii
      · rw [withChild_parent]
        exact hn
      · rw [withChild_other s quota hii hic]
        exact h.nchildren_le i
  · rcases eq_or_ne j child with rfl | hjc
    · rw [withChild_child s hne]
      exact hused id hid
    · obtain ⟨hj, hp⟩ := hold j hjc hj
      rw [hp]
      exact hused _ (h.parent_used j hj)
  · rcases eq_or_ne j child with rfl | hjc
    · refine ⟨(s.container id).nchildren, ?_, ?_⟩
      · rw [withChild_child s hne, withChild_parent]
        exact Nat.lt_succ_self _
      · rw [withChild_child s hne]
        exact hc
    · obtain ⟨hj, hp⟩ := hold j hjc hj
      obtain ⟨k, hk, hjk⟩ := h.child_index j hj hroot
      rw [hp]
      refine ⟨k, ?_, hjk⟩
      -- the parent's count did not shrink, and the new child is nobody's parent
      rcases eq_or_ne (s.container j).parent id with he | hpi
      · rw [he] at hk ⊢
        rw [withChild_parent]
        exact Nat.lt_succ_of_lt hk
      · rcases eq_or_ne (s.container j).parent child with he | hpc
        · have hlive := h.parent_used j hj
          rw [he, hfresh] at hlive
          contradiction
        · rwa [withChild_other s quota hpi hpc]

end Numbered

structure Inv (s : Pmm) : Prop where
  unlocked : ∀ i, s.locked i = false
  wf : s.budget.Wf
  quota_lt : ∀ i, (s.container i).quota.toNat < 2 ^ 30
  unused : ∀ i, (s.container i).used = false → s.container i = SContainer.zero
  nchildren_le : ∀ i, (s.container i).nchildren ≤ maxChildren
  child_index : ∀ j, (s.container j).used = true → j ≠ rootPid →
    ∃ k < (s.container (s.container j).parent).nchildren,
      j.val = (s.container j).parent.val * maxChildren + 1 + k
  alloc_norm : ∀ i, s.mem.atIsAllocated i = true → s.mem.atIsNorm i = true
  pages : s.mem.allocatedPages.card = ∑ i ∈ s.budget.live, s.budget.own i
  total : (s.container rootPid).quota.toNat = s.mem.normalPages.card

namespace Inv

variable {s : Pmm} (h : s.Inv)

include h

theorem usage_le (i : Pid) : (s.container i).usage.toNat ≤ (s.container i).quota.toNat := by
  cases hu : (s.container i).used with
  | true => exact h.wf.usage_le i (mem_live.mpr hu)
  | false =>
    rw [h.unused i hu]
    exact le_rfl

theorem quota_toInt (i : Pid) :
    (s.container i).quota.toInt = ((s.container i).quota.toNat : Int) := by
  have := h.quota_lt i
  exact BitVec.toInt_eq_toNat_of_lt (by omega)

theorem usage_toInt (i : Pid) :
    (s.container i).usage.toInt = ((s.container i).usage.toNat : Int) := by
  have := h.quota_lt i
  have := h.usage_le i
  exact BitVec.toInt_eq_toNat_of_lt (by omega)

theorem succ_usage_toNat (i : Pid) :
    ((s.container i).usage + 1).toNat = (s.container i).usage.toNat + 1 := by
  have := h.quota_lt i
  have := h.usage_le i
  rw [BitVec.toNat_add]
  exact Nat.mod_eq_of_lt (by change _ + 1 < _; omega)

theorem sle_iff (i : Pid) :
    BitVec.sle ((s.container i).usage + 1) (s.container i).quota = true ↔
      (s.container i).usage.toNat < (s.container i).quota.toNat := by
  have := h.quota_lt i
  have := h.usage_le i
  have hs := h.succ_usage_toNat i
  have hi : ((s.container i).usage + 1).toInt = (((s.container i).usage + 1).toNat : Int) :=
    BitVec.toInt_eq_toNat_of_lt (by omega)
  unfold BitVec.sle
  rw [decide_eq_true_iff, hi, h.quota_toInt, hs]
  omega

omit h in
theorem init (mmap : List MemRange) : (containerInit mmap).Inv := by
  have hnorm : (Finset.Ico 1 (numPages mmap)).filter (fun i => (pmemInit mmap).available i) =
      (pmemInit mmap).normalPages := by
    ext i
    rw [Finset.mem_filter, PMem.mem_normalPages, Finset.mem_Ico]
    show _ ∧ ((pmemInit mmap).atIsNorm i && true) = true ↔ _
    rw [Bool.and_true]
    constructor
    · exact fun h => h.2
    · intro h
      have hwin := initialPerm_norm mmap i (of_decide_eq_true h)
      exact ⟨⟨Nat.le_trans (by decide) hwin.1, hwin.2.2⟩, h⟩
  have hquota : realQuota (pmemInit mmap) = (pmemInit mmap).normalPages.card :=
    congrArg Finset.card hnorm
  have hle : (pmemInit mmap).normalPages.card ≤ 2 ^ 20 := by
    have := Finset.card_filter_le (Finset.range (2 ^ 20)) fun i => (pmemInit mmap).atIsNorm i = true
    rwa [Finset.card_range] at this
  have htoNat : (BitVec.ofNat 32 (realQuota (pmemInit mmap))).toNat =
      (pmemInit mmap).normalPages.card := by
    rw [BitVec.toNat_ofNat, hquota]
    exact Nat.mod_eq_of_lt (by omega)
  have hroot := containerInit_root mmap
  have hother := containerInit_other mmap
  have hused : ∀ i, ((containerInit mmap).container i).used = true → i = rootPid := by
    intro i hi
    by_contra hne
    rw [hother i hne] at hi
    exact absurd hi (by decide)
  have husage : ∀ i, ((containerInit mmap).container i).usage = 0 := by
    intro i
    rcases eq_or_ne i rootPid with rfl | hne
    · rw [hroot]
    · rw [hother i hne]
      rfl
  have hgranted : ∀ i, (containerInit mmap).budget.granted i = 0 := by
    intro i
    apply Finset.sum_eq_zero
    intro j hj
    obtain ⟨hlive, hne, _⟩ := Budgets.Tree.mem_children.mp hj
    exact absurd (hused j (mem_live.mp hlive)) hne
  refine ⟨fun _ => rfl, ⟨?_, ?_, ?_, ?_⟩, ?_, ?_, ?_, ?_, ?_, ?_, ?_⟩
  · exact mem_live.mpr (by show ((containerInit mmap).container rootPid).used = true; rw [hroot])
  · intro j hj
    have he := hused j (mem_live.mp hj)
    show ((containerInit mmap).container j).parent ∈ _
    rw [he, hroot]
    exact mem_live.mpr (by rw [hroot])
  · intro i _
    show ((containerInit mmap).container i).usage.toNat ≤ _
    rw [husage]
    exact Nat.zero_le _
  · intro i _
    rw [hgranted]
    exact Nat.zero_le _
  · intro i
    rcases eq_or_ne i rootPid with rfl | hne
    · rw [hroot]
      show (BitVec.ofNat 32 (realQuota (pmemInit mmap))).toNat < _
      omega
    · rw [hother i hne]
      decide
  · intro i hi
    rcases eq_or_ne i rootPid with rfl | hne
    · rw [hroot] at hi
      exact absurd hi Bool.noConfusion
    · exact hother i hne
  · intro i
    rcases eq_or_ne i rootPid with rfl | hne
    · rw [hroot]
      exact Nat.zero_le _
    · rw [hother i hne]
      exact Nat.zero_le _
  · intro j hj hne
    exact absurd (hused j hj) hne
  · intro i hi
    exact absurd hi (by simp [containerInit, PMem.atIsAllocated, pmemInit])
  · have hzero : ∀ i ∈ (containerInit mmap).budget.live, (containerInit mmap).budget.own i = 0 := by
      intro i _
      show ((containerInit mmap).container i).usage.toNat - _ = 0
      rw [husage]
      exact Nat.zero_sub _
    have hempty : (containerInit mmap).mem.allocatedPages = ∅ := by
      apply Finset.eq_empty_of_forall_notMem
      intro i hi
      exact absurd (PMem.mem_allocatedPages.mp hi).2
        (by simp [containerInit, PMem.atIsAllocated, pmemInit])
    rw [Finset.sum_eq_zero hzero, hempty, Finset.card_empty]
  · rw [hroot]
    exact htoNat

theorem numbered : s.Numbered :=
  ⟨h.nchildren_le, fun j hj => mem_live.mp (h.wf.parent_live j (mem_live.mpr hj)), h.child_index⟩

variable {id : Pid} {s' : Pmm}

theorem withUsage (hid : (s.container id).used = true) {u : BitVec 32}
    (hlo : s.budget.granted id ≤ u.toNat) (hhi : u.toNat ≤ (s.container id).quota.toNat)
    {mem : PMem} (hperm : mem.perm = s.mem.perm)
    (hal : ∀ i, mem.atIsAllocated i = true → mem.atIsNorm i = true)
    (hcard : mem.allocatedPages.card + (s.container id).usage.toNat =
      s.mem.allocatedPages.card + u.toNat) :
    ({ s.withUsage id u with mem := mem } : Pmm).Inv := by
  have hb : ({ s.withUsage id u with mem := mem } : Pmm).budget = s.budget.setUsage id u.toNat :=
    s.budget_withUsage id u
  refine ⟨h.unlocked, ?_, ?_, ?_, ?_, ?_, hal, ?_, ?_⟩
  · rw [hb]
    exact Budgets.Tree.wf_setUsage h.wf hlo hhi
  · intro i
    rw [withUsage_field (·.quota.toNat) s id u (fun _ => rfl) i]
    exact h.quota_lt i
  · intro i hi
    rw [withUsage_field (·.used) s id u (fun _ => rfl) i] at hi
    have hne : i ≠ id := by
      rintro rfl
      rw [hid] at hi
      contradiction
    rw [← h.unused i hi]
    exact update_of_ne hne _ _
  · intro i
    rw [withUsage_field (·.nchildren) s id u (fun _ => rfl) i]
    exact h.nchildren_le i
  · intro j hj hne
    rw [withUsage_field (·.used) s id u (fun _ => rfl) j] at hj
    rw [withUsage_field (·.parent) s id u (fun _ => rfl) j,
      withUsage_field (·.nchildren) s id u (fun _ => rfl)]
    exact h.child_index j hj hne
  · have hsum := Budgets.Tree.sum_own_setUsage h.wf (mem_live.mpr hid) hlo hhi
    rw [hb]
    show mem.allocatedPages.card = ∑ i ∈ s.budget.live, (s.budget.setUsage id u.toNat).own i
    have hpages := h.pages
    change _ + (s.container id).usage.toNat = _ at hsum
    omega
  · rw [withUsage_field (·.quota.toNat) s id u (fun _ => rfl) rootPid, h.total]
    unfold PMem.normalPages PMem.atIsNorm
    rw [hperm]

theorem withChild {child : Pid} (hid : (s.container id).used = true)
    (hn : (s.container id).nchildren < maxChildren)
    (hc : child.val = id.val * maxChildren + 1 + (s.container id).nchildren)
    (hq : (s.container id).usage.toNat + quota.toNat ≤ (s.container id).quota.toNat) :
    (s.withChild id child quota).Inv := by
  have hlt := h.quota_lt id
  have hfresh := h.numbered.child_fresh hn hc
  have hnumbered := h.numbered.withChild hid hn hc quota
  have hne := ne_child hc
  have hdead : child ∉ s.budget.live := by
    rw [mem_live, hfresh]
    exact Bool.noConfusion
  have hb := s.budget_withChild hne quota (by omega)
  refine ⟨h.unlocked, ?_, ?_, ?_, hnumbered.nchildren_le, hnumbered.child_index, h.alloc_norm,
    ?_, ?_⟩
  · rw [hb]
    exact Budgets.Tree.wf_grant h.wf (mem_live.mpr hid) hdead hq
  · intro i
    rw [withChild_field (·.quota.toNat) s id child quota (fun _ _ _ => rfl) hne]
    rcases eq_or_ne i child with rfl | hic
    · rw [update_self]
      show quota.toNat < _
      omega
    · rw [update_of_ne hic]
      exact h.quota_lt i
  · intro i hi
    rcases eq_or_ne i child with rfl | hic
    · rw [withChild_child s hne] at hi
      exact absurd hi Bool.noConfusion
    · rcases eq_or_ne i id with rfl | hii
      · rw [withChild_parent] at hi
        exact absurd (hid.symm.trans hi) Bool.noConfusion
      · rw [withChild_other s quota hii hic] at hi ⊢
        exact h.unused i hi
  · rw [hb]
    show s.mem.allocatedPages.card = ∑ j ∈ insert child s.budget.live, _
    rw [Budgets.Tree.sum_own_grant h.wf (mem_live.mpr hid) hdead]
    exact h.pages
  · have hrc : rootPid ≠ child := by
      intro he
      have hv := congrArg Fin.val he
      change 0 = child.val at hv
      omega
    rw [withChild_field (·.quota.toNat) s id child quota (fun _ _ _ => rfl) hne, update_of_ne hrc]
    exact h.total

theorem palloc (hid : (s.container id).used = true)
    (hq : BitVec.sle ((s.container id).usage + 1) (s.container id).quota = true) :
    ∃ p : UserPage, s.mem.available p = true ∧ s.mem.palloc = some (s.mem.take p, p.val) := by
  have hroom := (h.sle_iff id).mp hq
  have hlt := Budgets.Tree.sum_own_lt h.wf (mem_live.mpr hid) hroom
  rw [← h.pages] at hlt
  change _ < (s.container rootPid).quota.toNat at hlt
  rw [h.total] at hlt
  rcases s.mem.palloc_spec with hfound | ⟨hnone, _⟩
  · exact hfound
  · obtain ⟨p, hp⟩ := PMem.exists_available hlt
    exact absurd (hp.symm.trans (hnone p)) Bool.noConfusion

/-! ## 4. Steps -/

theorem alloc (hid : (s.container id).used = true) (hs : s.containerAlloc id = some (s', page)) :
    s'.Inv := by
  cases hq : BitVec.sle ((s.container id).usage + 1) (s.container id).quota with
  | false =>
    rw [containerAlloc_refused (h.unlocked id) hq] at hs
    cases hs
    exact h
  | true =>
    obtain ⟨p, hav, hp⟩ := h.palloc hid hq
    rw [containerAlloc_eq (h.unlocked id) hq hp] at hs
    obtain ⟨rfl, _⟩ := Prod.mk.inj (Option.some.inj hs)
    have hroom := (h.sle_iff id).mp hq
    have hsucc := h.succ_usage_toNat id
    have hgr : s.budget.granted id ≤ (s.container id).usage.toNat :=
      h.wf.granted_le id (mem_live.mpr hid)
    refine h.withUsage hid (by omega) (by omega) rfl ?_ ?_
    · intro i hi
      change (s.mem.atSetAllocated p 1).atIsAllocated i = true at hi
      rw [PMem.atIsAllocated_set] at hi
      split at hi
      · rename_i he
        rw [he]
        exact (Bool.and_eq_true _ _ ▸ hav).1
      · exact h.alloc_norm i hi
    · rw [PMem.allocatedPages_insert hav, Finset.card_insert_of_notMem
        (PMem.notMem_allocatedPages hav)]
      omega

theorem alloc_room (hid : (s.container id).used = true)
    (hq : BitVec.sle ((s.container id).usage + 1) (s.container id).quota = true) :
    ∃ s' page, s.containerAlloc id = some (s', page) ∧ page ≠ 0 ∧ s'.Inv ∧
      s'.container id = { s.container id with usage := (s.container id).usage + 1 } := by
  obtain ⟨p, _, hp⟩ := h.palloc hid hq
  have halloc := containerAlloc_eq (h.unlocked id) hq hp
  refine ⟨_, _, halloc, ?_, h.alloc hid halloc, update_self _ _ _⟩
  have hlo := p.property.1
  have hpos : 0 < userLoPi := by decide
  omega

theorem free (hid : (s.container id).used = true) (hown : s.mem.atIsAllocated page = false ∨
      s.budget.granted id < (s.container id).usage.toNat) (hs : s.containerFree id page = some s') :
    s'.Inv := by
  cases ha : s.mem.atIsAllocated page with
  | false =>
    rw [containerFree_unallocated (h.unlocked id) ha] at hs
    cases hs
    exact h
  | true =>
    have hlt : s.budget.granted id < (s.container id).usage.toNat := by
      rcases hown with hno | hlt
      · rw [ha] at hno
        contradiction
      · exact hlt
    have hpos : BitVec.slt 0 (s.container id).usage = true := by
      unfold BitVec.slt
      rw [decide_eq_true_iff, h.usage_toInt]
      show (0 : Int) < _
      omega
    rw [containerFree_eq (h.unlocked id) ha hpos] at hs
    cases hs
    have hpred : ((s.container id).usage - 1).toNat = (s.container id).usage.toNat - 1 := by
      have hbound := (s.container id).usage.isLt
      rw [BitVec.toNat_sub]
      show (2 ^ 32 - 1 + (s.container id).usage.toNat) % 2 ^ 32 = _
      omega
    have hle := h.usage_le id
    refine h.withUsage hid (by omega) (by omega) rfl ?_ ?_
    · intro i hi
      change (s.mem.atSetAllocated page 0).atIsAllocated i = true at hi
      rw [PMem.atIsAllocated_set] at hi
      split at hi
      · exact absurd hi (by decide)
      · exact h.alloc_norm i hi
    · have hmem : page ∈ s.mem.allocatedPages :=
        PMem.mem_allocatedPages.mpr ⟨h.alloc_norm page ha, ha⟩
      have hcard := Finset.card_erase_add_one hmem
      rw [PMem.allocatedPages_pfree]
      omega

theorem spawn (hid : (s.container id).used = true) {elfId : BitVec 32}
    (hsum : (s.container id).usage.toNat + quota.toNat < 2 ^ 32 ∨ s.spawnRefused id elfId = true)
    {r : Errno × Option Pid} (hs : s.sysSpawn id elfId quota = some (s', r)) :
    s'.Inv := by
  cases hcan : s.containerCanConsume id quota with
  | false =>
    unfold sysSpawn at hs
    rw [hcan] at hs
    obtain ⟨rfl, _⟩ := Prod.mk.inj (Option.some.inj hs)
    exact h
  | true =>
    cases href : s.spawnRefused id elfId with
    | true =>
      -- one of the later checks fails, and the containers stay as they are
      unfold spawnRefused at href
      unfold sysSpawn at hs
      rw [hcan, if_neg (by decide)] at hs
      split at hs
      · obtain ⟨rfl, _⟩ := Prod.mk.inj (Option.some.inj hs)
        exact h
      · split at hs
        · obtain ⟨rfl, _⟩ := Prod.mk.inj (Option.some.inj hs)
          exact h
        · rename_i hids hmax
          have helf : knownElf elfId = false := by
            simpa [hids, hmax] using href
          rw [helf] at hs
          obtain ⟨rfl, _⟩ := Prod.mk.inj (Option.some.inj hs)
          exact h
    | false =>
      unfold spawnRefused at href
      simp only [Bool.or_eq_false_iff, decide_eq_false_iff_not, Bool.not_eq_false'] at href
      obtain ⟨⟨hids, hmax⟩, helf⟩ := href
      have hnowrap : (s.container id).usage.toNat + quota.toNat < 2 ^ 32 := by
        rcases hsum with hlt | hyes
        · exact hlt
        · unfold spawnRefused at hyes
          simp [hids, hmax, helf] at hyes
      have hle : (s.container id).usage.toNat + quota.toNat ≤ (s.container id).quota.toNat := by
        unfold containerCanConsume BitVec.ule at hcan
        rwa [decide_eq_true_iff, BitVec.toNat_add, Nat.mod_eq_of_lt hnowrap] at hcan
      have hn : (s.container id).nchildren < maxChildren :=
        lt_of_le_of_ne (h.nchildren_le id) hmax
      have hindex : id.val * maxChildren + 1 + (s.container id).nchildren < numIds := by omega
      rw [sysSpawn_eq (h.unlocked id) hcan hids hn helf hindex] at hs
      obtain ⟨rfl, _⟩ := Prod.mk.inj (Option.some.inj hs)
      exact h.withChild hid hn rfl hle

end Inv

/-! ## 5. Isolation -/

def childQuotas (s : Pmm) (i : Pid) : Int :=
  ∑ j with (s.container j).used = true ∧ j ≠ rootPid ∧ (s.container j).parent = i,
    (s.container j).quota.toInt

/-- No container is above its quota, the quotas of children are charged to the parent, the pages that
are out are exactly the usages, and a container with room gets a page. -/
structure QuotaIsolation (s : Pmm) : Prop where
  usage_le_quota : ∀ i, (s.container i).used = true →
    0 ≤ (s.container i).usage.toInt ∧ (s.container i).usage.toInt ≤ (s.container i).quota.toInt
  children_charged : ∀ i, (s.container i).used = true →
    s.childQuotas i ≤ (s.container i).usage.toInt
  pages_charged : (s.mem.allocatedPages.card : Int) =
    ∑ i, ((s.container i).usage.toInt - s.childQuotas i)
  alloc_succeeds : ∀ i, (s.container i).used = true →
    BitVec.sle ((s.container i).usage + 1) (s.container i).quota = true →
    ∃ s' page, s.containerAlloc i = some (s', page) ∧ page ≠ 0

/-- A spawn's unsigned sum does not wrap, or the spawn is refused anyway; a page is freed for a
container only while the container holds pages besides what its children got. -/
def Chargeable (s : Pmm) : Action → Prop
  | .spawn curid elfId quota =>
    (s.container curid).usage.toNat + quota.toNat < 2 ^ 32 ∨ s.spawnRefused curid elfId = true
  | .alloc _ => True
  | .free id page =>
    s.mem.atIsAllocated page = false ∨ s.childQuotas id < (s.container id).usage.toInt

theorem Inv.childQuotas_eq (h : s.Inv) (i : Pid) :
    s.childQuotas i = (s.budget.granted i : Int) := by
  unfold childQuotas Budgets.Tree.granted
  rw [Nat.cast_sum]
  apply Finset.sum_congr
  · ext j
    rw [Finset.mem_filter, Budgets.Tree.mem_children, mem_live]
    exact ⟨fun hj => hj.2, fun hj => ⟨Finset.mem_univ j, hj⟩⟩
  · intro j _
    exact h.quota_toInt j

theorem Inv.isolation (h : s.Inv) : s.QuotaIsolation := by
  refine ⟨fun i _ => ?_, fun i hi => ?_, ?_, fun i hi hq => ?_⟩
  · rw [h.usage_toInt, h.quota_toInt]
    have := h.usage_le i
    omega
  · rw [h.usage_toInt, h.childQuotas_eq]
    exact_mod_cast h.wf.granted_le i (mem_live.mpr hi)
  · -- containers that are not in use neither hold pages nor have children
    have hlive : ∀ i ∈ s.budget.live,
        (s.budget.own i : Int) = (s.container i).usage.toInt - s.childQuotas i := by
      intro i hi
      rw [h.usage_toInt, h.childQuotas_eq]
      exact Nat.cast_sub (h.wf.granted_le i hi)
    have hdead : ∀ i ∈ Finset.univ, i ∉ s.budget.live →
        (s.container i).usage.toInt - s.childQuotas i = 0 := by
      intro i _ hi
      have hu : (s.container i).used = false := by
        rw [mem_live] at hi
        exact Bool.eq_false_iff.mpr hi
      rw [h.childQuotas_eq, Budgets.Tree.granted_fresh h.wf hi, h.unused i hu]
      decide
    rw [h.pages, Nat.cast_sum, Finset.sum_congr rfl hlive]
    exact Finset.sum_subset (Finset.subset_univ _) hdead
  · obtain ⟨s', page, halloc, hne, _⟩ := h.alloc_room hi hq
    exact ⟨s', page, halloc, hne⟩

theorem Inv.step {a : Action} (h : s.Inv) (hc : s.Chargeable a) (hs : s.exec a = some s') :
    s'.Inv := by
  unfold exec at hs
  split at hs
  swap
  · contradiction
  rename_i hid
  cases a with
  | spawn curid elfId quota =>
    obtain ⟨r, hr, rfl⟩ := Option.map_eq_some_iff.mp hs
    exact h.spawn hid hc hr
  | alloc id =>
    obtain ⟨r, hr, rfl⟩ := Option.map_eq_some_iff.mp hs
    exact h.alloc hid hr
  | free id page =>
    refine h.free hid ?_ hs
    rcases hc with hno | hlt
    · exact Or.inl hno
    · right
      rw [h.childQuotas_eq, h.usage_toInt] at hlt
      exact_mod_cast hlt

/-- **Quota isolation.**  It holds in every state of a run whose steps can all be charged. -/
theorem quota_isolation {mmap : List MemRange} {past : List (Pmm × Action)} {s : Pmm}
    (hr : Run mmap past s) (hc : ∀ x ∈ past, x.1.Chargeable x.2) : s.QuotaIsolation := by
  have hinv : s.Inv := by
    apply Transition.Run.invariant_of (I := Inv) _ _ hr hc
    · rintro _ rfl
      exact Inv.init mmap
    · intro x a x' hx ha hs
      exact hx.step ha hs
  exact hinv.isolation

def windowPages (n : Nat) : List MemRange := [⟨0x40000000, BitVec.ofNat 32 (n * pageSize), true⟩]

theorem realQuota_windowPages {n : Nat} (hn : n ≤ userPages) :
    realQuota (pmemInit (windowPages n)) = n := by
  have hw : userPages = 720896 := by decide
  have hlo : userLoPi = 262144 := by decide
  have hhi : userHiPi = 983040 := by decide
  have hend : ((0x40000000 : BitVec 32) + BitVec.ofNat 32 (n * pageSize)).toNat =
      (userLoPi + n) * pageSize := by
    rw [BitVec.toNat_add, BitVec.toNat_ofNat]
    show (0x40000000 + n * 4096 % 2 ^ 32) % 2 ^ 32 = (userLoPi + n) * 4096
    omega
  have hnps : numPages (windowPages n) = userLoPi + n := by
    show max 0 (_ + BitVec.ofNat 32 (n * pageSize)).toNat / pageSize = _
    rw [hend, Nat.zero_max]
    exact Nat.mul_div_cancel _ (by decide)
  -- exactly the pages of the range are normal
  have hset : (Finset.Ico 1 (numPages (windowPages n))).filter
      (fun i => (pmemInit (windowPages n)).available i) = Finset.Ico userLoPi (userLoPi + n) := by
    ext i
    rw [Finset.mem_filter, Finset.mem_Ico, Finset.mem_Ico, hnps]
    constructor
    · rintro ⟨hi, hav⟩
      have hnorm : 1 < initialPerm (windowPages n) i :=
        of_decide_eq_true (Bool.and_eq_true _ _ ▸ hav).1
      exact ⟨(initialPerm_norm _ i hnorm).1, hi.2⟩
    · intro hi
      refine ⟨by omega, ?_⟩
      have hfind : (windowPages n).find? (fun r => decide (r.start.toNat ≤ i * pageSize ∧
          (i + 1) * pageSize ≤ (r.start + r.len).toNat)) =
            some ⟨0x40000000, BitVec.ofNat 32 (n * pageSize), true⟩ := by
        apply List.find?_cons_of_pos
        rw [decide_eq_true_iff, hend]
        refine ⟨?_, Nat.mul_le_mul_right _ hi.2⟩
        show 0x40000000 ≤ i * 4096
        omega
      have hperm : initialPerm (windowPages n) i = 2 := by
        unfold initialPerm pagePerm
        rw [if_pos (by omega), if_neg (by omega), hfind]
        rfl
      show (decide (1 < initialPerm (windowPages n) i) && true) = true
      rw [hperm]
      rfl
  refine (congrArg Finset.card hset).trans ?_
  rw [Nat.card_Ico]
  omega

def twoPages : List MemRange := [⟨0x40000000, 0x2000, true⟩]

theorem realQuota_twoPages : realQuota (pmemInit twoPages) = 2 :=
  realQuota_windowPages (n := 2) (by decide)

def twoPagesBoot : Pmm where
  mem := pmemInit twoPages
  container := update (fun _ => SContainer.zero) rootPid ⟨2, 0, rootPid, 0, true⟩
  locked := fun _ => false

theorem containerInit_twoPages : containerInit twoPages = twoPagesBoot := by
  unfold containerInit twoPagesBoot
  rw [realQuota_twoPages]
  rfl

def oneChild : Pmm := twoPagesBoot.withChild rootPid ⟨1, by decide⟩ 1

theorem oneChild_run : Run twoPages [(twoPagesBoot, .spawn rootPid 1 1)] oneChild := by
  refine Transition.Run.next (Transition.Run.start containerInit_twoPages.symm) ?_
  show (twoPagesBoot.sysSpawn rootPid 1 1).map (·.1) = some oneChild
  rw [sysSpawn_eq rfl (by decide) (by decide) (by decide) (by decide) (by decide)]
  rfl

theorem quota_isolation_oneChild :
    ∃ past s, Run twoPages past s ∧ past.length = 2 ∧ s.mem.allocatedPages.Nonempty ∧
      s.QuotaIsolation := by
  have hinv : oneChild.Inv := by
    have h0 : twoPagesBoot.Inv := containerInit_twoPages ▸ Inv.init twoPages
    exact h0.withChild rfl (by decide) rfl (by decide)
  obtain ⟨p, hav, hp⟩ := hinv.palloc (show (oneChild.container ⟨1, by decide⟩).used = true from rfl)
    (by decide)
  have hstep : oneChild.exec (.alloc ⟨1, by decide⟩) =
      some { oneChild.withUsage ⟨1, by decide⟩ 1 with mem := oneChild.mem.take p } := by
    show (oneChild.containerAlloc ⟨1, by decide⟩).map (·.1) = _
    rw [containerAlloc_eq rfl (by decide) hp]
    rfl
  have hrun : Run twoPages _ _ := Transition.Run.next oneChild_run hstep
  refine ⟨_, _, hrun, rfl, ?_, quota_isolation hrun ?_⟩
  · exact ⟨p.val, by rw [PMem.allocatedPages_insert hav]; exact Finset.mem_insert_self _ _⟩
  · intro x hx
    rcases List.mem_cons.mp hx with rfl | hx
    · trivial
    · rw [List.mem_singleton.mp hx]
      exact Or.inl (by decide)

/-- The root has used one page and asks for `0xFFFFFFFF` more.  The sum wraps to 0, the check passes,
and the child's quota is the `int` -1. -/
theorem quota_wraps :
    ∃ past s, Run twoPages past s ∧ (s.container ⟨2, by decide⟩).used = true ∧
      (s.container ⟨2, by decide⟩).quota.toInt = -1 ∧ ¬ s.QuotaIsolation := by
  have hstep : oneChild.exec (.spawn rootPid 1 0xFFFFFFFF) =
      some (oneChild.withChild rootPid ⟨2, by decide⟩ 0xFFFFFFFF) := by
    show (oneChild.sysSpawn rootPid 1 0xFFFFFFFF).map (·.1) = _
    rw [sysSpawn_eq rfl (by decide) (by decide) (by decide) (by decide) (by decide)]
    rfl
  refine ⟨_, _, Transition.Run.next oneChild_run hstep, by decide, by decide, ?_⟩
  intro h
  exact absurd (h.usage_le_quota ⟨2, by decide⟩ (by decide)).2 (by decide)

end Pmm

end MCertiKOS
