import Mathlib.Algebra.BigOperators.Group.Finset.Piecewise
import Mathlib.Algebra.Order.BigOperators.Group.Finset
import Mathlib.Data.Fintype.BigOperators

/-!
# A tree of budgets

Every live node has a quota and a usage.  What a node grants to its children counts as used, and the
rest of its usage is its own.  The own usages of all nodes together stay below the quota of the root
as long as any node has room left.
-/

namespace Budgets

open Function

variable {ι : Type*} [DecidableEq ι]

theorem add_sum_update (s : Finset ι) (f : ι → Nat) {i : ι} (hi : i ∈ s) (v : Nat) :
    f i + ∑ j ∈ s, update f i v j = v + ∑ j ∈ s, f j := by
  have hrest := Finset.add_sum_erase s f hi
  have hnew := Finset.sum_update_of_mem hi f v
  rw [Finset.sdiff_singleton_eq_erase] at hnew
  omega

structure Tree (ι : Type*) where
  root : ι
  live : Finset ι
  parent : ι → ι
  quota : ι → Nat
  usage : ι → Nat

namespace Tree

def children (t : Tree ι) (i : ι) : Finset ι :=
  t.live.filter fun j => j ≠ t.root ∧ t.parent j = i

variable {t : Tree ι} {i : ι}

theorem mem_children {j : ι} : j ∈ t.children i ↔ j ∈ t.live ∧ j ≠ t.root ∧ t.parent j = i :=
  Finset.mem_filter

def granted (t : Tree ι) (i : ι) : Nat := ∑ j ∈ t.children i, t.quota j

def own (t : Tree ι) (i : ι) : Nat := t.usage i - t.granted i

/-- No node is above its quota, and every grant is charged to the node that made it. -/
structure Wf (t : Tree ι) : Prop where
  root_live : t.root ∈ t.live
  parent_live : ∀ j ∈ t.live, t.parent j ∈ t.live
  usage_le : ∀ i ∈ t.live, t.usage i ≤ t.quota i
  granted_le : ∀ i ∈ t.live, t.granted i ≤ t.usage i

/-! ## 1. The total -/

theorem sum_granted (h : t.Wf) :
    ∑ i ∈ t.live, t.granted i = ∑ j ∈ t.live.erase t.root, t.quota j := by
  have hmaps : ∀ j ∈ t.live.erase t.root, t.parent j ∈ t.live := by
    intro j hj
    exact h.parent_live j (Finset.mem_of_mem_erase hj)
  rw [← Finset.sum_fiberwise_of_maps_to hmaps]
  apply Finset.sum_congr rfl
  intro i _
  apply Finset.sum_congr _ (fun _ _ => rfl)
  ext j
  rw [mem_children, Finset.mem_filter, Finset.mem_erase]
  tauto

theorem sum_own (h : t.Wf) :
    ∑ i ∈ t.live, t.own i + ∑ i ∈ t.live, t.granted i = ∑ i ∈ t.live, t.usage i := by
  rw [← Finset.sum_add_distrib]
  apply Finset.sum_congr rfl
  intro i hi
  exact Nat.sub_add_cancel (h.granted_le i hi)

theorem sum_own_lt (h : t.Wf) (hi : i ∈ t.live) (hroom : t.usage i < t.quota i) :
    ∑ j ∈ t.live, t.own j < t.quota t.root := by
  have hlt : ∑ j ∈ t.live, t.usage j < ∑ j ∈ t.live, t.quota j :=
    Finset.sum_lt_sum h.usage_le ⟨i, hi, hroom⟩
  have hroot := Finset.add_sum_erase t.live t.quota h.root_live
  have hown := sum_own h
  rw [sum_granted h] at hown
  omega

/-! ## 2. Charging and refunding a node -/

def setUsage (t : Tree ι) (i : ι) (v : Nat) : Tree ι :=
  { t with usage := update t.usage i v }

theorem wf_setUsage (h : t.Wf) {v : Nat} (hlo : t.granted i ≤ v) (hhi : v ≤ t.quota i) :
    (t.setUsage i v).Wf where
  root_live := h.root_live
  parent_live := h.parent_live
  usage_le := by
    intro j hj
    show update t.usage i v j ≤ t.quota j
    rcases eq_or_ne j i with rfl | hne
    · rwa [update_self]
    · rw [update_of_ne hne]
      exact h.usage_le j hj
  granted_le := by
    intro j hj
    show t.granted j ≤ update t.usage i v j
    rcases eq_or_ne j i with rfl | hne
    · rwa [update_self]
    · rw [update_of_ne hne]
      exact h.granted_le j hj

theorem sum_own_setUsage (h : t.Wf) (hi : i ∈ t.live) {v : Nat} (hlo : t.granted i ≤ v)
    (hhi : v ≤ t.quota i) :
    ∑ j ∈ t.live, (t.setUsage i v).own j + t.usage i = ∑ j ∈ t.live, t.own j + v := by
  have hnew := sum_own (wf_setUsage h hlo hhi)
  have hold := sum_own h
  have husage := add_sum_update t.live t.usage hi v
  change ∑ j ∈ t.live, (t.setUsage i v).own j + ∑ j ∈ t.live, t.granted j =
    ∑ j ∈ t.live, update t.usage i v j at hnew
  omega

/-! ## 3. Granting a quota to a new child -/

def grant (t : Tree ι) (i c : ι) (q : Nat) : Tree ι where
  root := t.root
  live := insert c t.live
  parent := update t.parent c i
  quota := update t.quota c q
  usage := update (update t.usage c 0) i (t.usage i + q)

section Grant

variable {t : Tree ι} {i c : ι} {q : Nat}

theorem mem_children_grant (h : t.Wf) (hc : c ∉ t.live) (j k : ι) :
    k ∈ (t.grant i c q).children j ↔ (k = c ∧ j = i) ∨ k ∈ t.children j := by
  rw [mem_children, mem_children]
  show k ∈ insert c t.live ∧ k ≠ t.root ∧ update t.parent c i k = j ↔ _
  rcases eq_or_ne k c with rfl | hne
  · have hroot : k ≠ t.root := by
      rintro rfl
      exact hc h.root_live
    rw [update_self]
    constructor
    · rintro ⟨_, _, hij⟩
      exact Or.inl ⟨rfl, hij.symm⟩
    · rintro (⟨_, hji⟩ | ⟨hk, _⟩)
      · exact ⟨Finset.mem_insert_self k t.live, hroot, hji.symm⟩
      · exact absurd hk hc
  · rw [update_of_ne hne, Finset.mem_insert]
    tauto

theorem granted_grant (h : t.Wf) (hc : c ∉ t.live) (j : ι) :
    (t.grant i c q).granted j = if j = i then t.granted j + q else t.granted j := by
  have hcj : c ∉ t.children j := fun hmem => hc (mem_children.mp hmem).1
  have hsame : ∑ k ∈ t.children j, update t.quota c q k = t.granted j :=
    Finset.sum_update_of_notMem hcj t.quota q
  show ∑ k ∈ (t.grant i c q).children j, update t.quota c q k = _
  split
  · rename_i hji
    have hset : (t.grant i c q).children j = insert c (t.children j) := by
      ext k
      rw [mem_children_grant h hc, Finset.mem_insert]
      tauto
    rw [hset, Finset.sum_insert hcj, hsame, update_self, Nat.add_comm]
  · rename_i hji
    have hset : (t.grant i c q).children j = t.children j := by
      ext k
      rw [mem_children_grant h hc]
      tauto
    rw [hset, hsame]

theorem granted_fresh (h : t.Wf) (hc : c ∉ t.live) : t.granted c = 0 := by
  apply Finset.sum_eq_zero
  intro j hj
  obtain ⟨hjl, _, hjp⟩ := mem_children.mp hj
  exact absurd (hjp ▸ h.parent_live j hjl) hc

theorem wf_grant (h : t.Wf) (hi : i ∈ t.live) (hc : c ∉ t.live) (hq : t.usage i + q ≤ t.quota i) :
    (t.grant i c q).Wf := by
  have hic : i ≠ c := by
    rintro rfl
    exact hc hi
  refine ⟨Finset.mem_insert_of_mem h.root_live, fun j hj => ?_, fun j hj => ?_, fun j hj => ?_⟩
  · show update t.parent c i j ∈ insert c t.live
    rcases eq_or_ne j c with rfl | hne
    · rw [update_self]
      exact Finset.mem_insert_of_mem hi
    · rw [update_of_ne hne]
      exact Finset.mem_insert_of_mem (h.parent_live j (Finset.mem_of_mem_insert_of_ne hj hne))
  · show update (update t.usage c 0) i (t.usage i + q) j ≤
      update t.quota c q j
    rcases eq_or_ne j i with rfl | hji
    · rwa [update_self, update_of_ne hic]
    · rw [update_of_ne hji]
      rcases eq_or_ne j c with rfl | hjc
      · rw [update_self]
        exact Nat.zero_le _
      · rw [update_of_ne hjc, update_of_ne hjc]
        exact h.usage_le j (Finset.mem_of_mem_insert_of_ne hj hjc)
  · rw [granted_grant h hc]
    show _ ≤ update (update t.usage c 0) i (t.usage i + q) j
    rcases eq_or_ne j i with rfl | hji
    · rw [if_pos rfl, update_self]
      exact Nat.add_le_add_right (h.granted_le j hi) q
    · rw [if_neg hji, update_of_ne hji]
      rcases eq_or_ne j c with rfl | hjc
      · rw [granted_fresh h hc]
        exact Nat.zero_le _
      · rw [update_of_ne hjc]
        exact h.granted_le j (Finset.mem_of_mem_insert_of_ne hj hjc)

theorem sum_own_grant (h : t.Wf) (hi : i ∈ t.live) (hc : c ∉ t.live) :
    ∑ j ∈ insert c t.live, (t.grant i c q).own j = ∑ j ∈ t.live, t.own j := by
  have hown : ∀ j ∈ t.live, (t.grant i c q).own j = t.own j := by
    intro j hj
    have hjc : j ≠ c := by
      rintro rfl
      exact hc hj
    show update (update t.usage c 0) i (t.usage i + q) j - _ = _
    rw [granted_grant h hc]
    rcases eq_or_ne j i with rfl | hji
    · rw [update_self, if_pos rfl, Nat.add_sub_add_right]
      rfl
    · rw [update_of_ne hji, update_of_ne hjc, if_neg hji]
      rfl
  have hnew : (t.grant i c q).own c = 0 := by
    have hci : c ≠ i := by
      rintro rfl
      exact hc hi
    show update (update t.usage c 0) i (t.usage i + q) c - _ = 0
    rw [update_of_ne hci, update_self, Nat.zero_sub]
  rw [Finset.sum_insert hc, hnew, Nat.zero_add]
  exact Finset.sum_congr rfl hown

end Grant

end Tree

end Budgets
