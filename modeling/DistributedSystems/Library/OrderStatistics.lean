import Mathlib.Data.Fintype.Card
import Mathlib.Data.List.FinRange
import Mathlib.Data.List.Sort

/-!
# Order statistics

The element at a position of a sorted copy, by counting: it is at least `x` exactly when as many
elements are at least `x` as there are positions from there to the end.
-/

namespace OrderStatistics

/-! ## 1. Sorted lists -/

section Sorted

variable {α : Type*} [LinearOrder α] {xs : List α} {i : Nat} {x y : α}

theorem length_sub_le_countP (hs : xs.Pairwise (· ≤ ·)) (hy : xs[i]? = some y) (hx : x ≤ y) :
    xs.length - i ≤ xs.countP (x ≤ ·) := by
  have hdrop : (xs.drop i).countP (x ≤ ·) = xs.length - i := by
    rw [List.countP_eq_length.mpr, List.length_drop]
    intro z hz
    obtain ⟨j, hj⟩ := List.getElem?_of_mem hz
    rw [List.getElem?_drop] at hj
    obtain ⟨h1, rfl⟩ := List.getElem?_eq_some_iff.mp hy
    obtain ⟨h2, rfl⟩ := List.getElem?_eq_some_iff.mp hj
    apply decide_eq_true
    rcases Nat.eq_zero_or_pos j with rfl | hpos
    · exact hx
    · exact hx.trans (List.pairwise_iff_getElem.mp hs _ _ h1 h2 (by omega))
  rw [← hdrop]
  exact (List.drop_sublist _ _).countP_le

theorem countP_lt_length_sub (hs : xs.Pairwise (· ≤ ·)) (hy : xs[i]? = some y) (hx : y < x) :
    xs.countP (x ≤ ·) < xs.length - i := by
  obtain ⟨hi, rfl⟩ := List.getElem?_eq_some_iff.mp hy
  have htake : (xs.take (i + 1)).countP (x ≤ ·) = 0 := by
    apply List.countP_eq_zero.mpr
    intro z hz
    obtain ⟨j, hj, rfl⟩ := List.mem_take_iff_getElem.mp hz
    have hji : j ≤ i := by omega
    have hle : xs[j] ≤ xs[i] := by
      rcases Nat.eq_or_lt_of_le hji with rfl | hlt
      · exact le_rfl
      · exact List.pairwise_iff_getElem.mp hs j i (by omega) hi hlt
    simpa using hle.trans_lt hx
  calc xs.countP (x ≤ ·) = (xs.take (i + 1) ++ xs.drop (i + 1)).countP (x ≤ ·) := by
        rw [List.take_append_drop]
    _ = (xs.drop (i + 1)).countP (x ≤ ·) := by rw [List.countP_append, htake, Nat.zero_add]
    _ ≤ (xs.drop (i + 1)).length := List.countP_le_length
    _ < xs.length - i := by rw [List.length_drop]; omega

theorem le_iff_countP (hs : xs.Pairwise (· ≤ ·)) (hy : xs[i]? = some y) :
    x ≤ y ↔ xs.length - i ≤ xs.countP (x ≤ ·) := by
  constructor
  · exact length_sub_le_countP hs hy
  · intro hcount
    by_contra hx
    have hlt := countP_lt_length_sub hs hy (not_le.mp hx)
    omega

end Sorted

/-! ## 2. The sorted copy of a vector -/

section Vector

variable {n : Nat}

/-- `sort.Ints` of a copy. -/
def sorted (f : Fin n → Nat) : List Nat := (List.ofFn f).insertionSort (· ≤ ·)

theorem length_sorted (f : Fin n → Nat) : (sorted f).length = n := by
  unfold sorted
  rw [List.length_insertionSort, List.length_ofFn]

variable {f : Fin n → Nat}

variable {i y : Nat}

theorem mem_sorted : y ∈ sorted f ↔ ∃ j, f j = y := by
  unfold sorted
  rw [List.mem_insertionSort, List.mem_ofFn]

theorem countP_sorted (f : Fin n → Nat) (x : Nat) :
    (sorted f).countP (x ≤ ·) = (Finset.univ.filter fun j => x ≤ f j).card := by
  unfold sorted
  rw [(List.perm_insertionSort (· ≤ ·) (List.ofFn f)).countP_eq, List.ofFn_eq_map, List.countP_map,
    List.countP_eq_length_filter, ← List.toFinset_card_of_nodup ((List.nodup_finRange n).filter _)]
  congr 1
  ext j
  simp

theorem pairwise_sorted (f : Fin n → Nat) : (sorted f).Pairwise (· ≤ ·) :=
  List.pairwise_insertionSort (· ≤ ·) _

theorem le_iff_card {x : Nat} (hy : (sorted f)[i]? = some y) :
    x ≤ y ↔ n - i ≤ (Finset.univ.filter fun j => x ≤ f j).card := by
  rw [le_iff_countP (pairwise_sorted f) hy, countP_sorted, length_sorted]

theorem exists_sorted (f : Fin n → Nat) (hi : i < n) : ∃ y, (sorted f)[i]? = some y :=
  ⟨_, List.getElem?_eq_getElem (by rw [length_sorted]; exact hi)⟩

theorem sorted_mono {j x : Nat} (hx : (sorted f)[i]? = some x) (hy : (sorted f)[j]? = some y)
    (hij : i ≤ j) : x ≤ y := by
  rw [le_iff_card hy]
  have hcard := (le_iff_card hx).mp le_rfl
  omega

end Vector

end OrderStatistics
