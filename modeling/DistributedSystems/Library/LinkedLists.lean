import Mathlib.Data.List.Basic
import Mathlib.Data.List.Nodup

/-!
# Doubly linked lists over an array of links

`Linked prev next l` says that two arrays of links hold the list `l`: every element points to its
neighbours.  The links of elements outside of `l` do not matter, so several lists can share the
arrays.  The operations are described by what they do to the links of the elements concerned.
-/

namespace LinkedLists

variable {ι : Type*} {prev next prev' next' : ι → Option ι} {l : List ι}

structure Linked (prev next : ι → Option ι) (l : List ι) : Prop where
  nodup : l.Nodup
  links : ∀ xs a ys, l = xs ++ a :: ys → prev a = xs.getLast? ∧ next a = ys.head?

namespace Linked

theorem nil : Linked prev next [] :=
  ⟨List.nodup_nil, fun xs _ _ h => absurd h.symm (by simp)⟩

theorem congr (h : Linked prev next l) (hsame : ∀ a ∈ l, prev' a = prev a ∧ next' a = next a) :
    Linked prev' next' l := by
  refine ⟨h.nodup, fun xs a ys hl => ?_⟩
  obtain ⟨hp, hn⟩ := hsame a (by rw [hl]; simp)
  rw [hp, hn]
  exact h.links xs a ys hl

theorem next_head (h : Linked prev next l) {a : ι} {ys : List ι} (hl : l = a :: ys) :
    next a = ys.head? := (h.links [] a ys hl).2

theorem getLast?_ne {xs ys : List ι} {a c : ι} (h : (xs ++ a :: c :: ys).Nodup) :
    (xs ++ a :: c :: ys).getLast? ≠ some a := by
  intro he
  have hmem : a ∈ c :: ys := by
    have hlast : (c :: ys).getLast? = some a := by
      rwa [List.getLast?_append_of_ne_nil _ (List.cons_ne_nil _ _), List.getLast?_cons_cons] at he
    exact List.mem_of_getLast? hlast
  have htail := (List.nodup_append.mp h).2.1
  exact (List.nodup_cons.mp htail).1 hmem

theorem snoc (h : Linked prev next l) {p : ι} (hp : p ∉ l) (hpp : prev' p = l.getLast?)
    (hpn : next' p = none) (hlast : ∀ a, l.getLast? = some a → next' a = some p)
    (hprev : ∀ a ∈ l, prev' a = prev a)
    (hnext : ∀ a ∈ l, l.getLast? ≠ some a → next' a = next a) :
    Linked prev' next' (l ++ [p]) := by
  refine ⟨?_, fun xs a ys hl => ?_⟩
  · rw [List.nodup_append]
    refine ⟨h.nodup, List.nodup_singleton p, fun a ha b hb hab => ?_⟩
    rw [List.mem_singleton] at hb
    exact hp (hb ▸ hab ▸ ha)
  · rcases ys.eq_nil_or_concat with rfl | ⟨ys, b, rfl⟩
    · obtain ⟨rfl, rfl⟩ := List.append_singleton_inj.mp hl
      exact ⟨hpp, hpn⟩
    · -- `a` is an element of the old list
      have hl' : l ++ [p] = (xs ++ a :: ys) ++ [b] := by rw [hl]; simp
      obtain ⟨hold, rfl⟩ := List.append_singleton_inj.mp hl'
      have hmem : a ∈ l := by rw [hold]; simp
      obtain ⟨hpa, hna⟩ := h.links xs a ys hold
      refine ⟨(hprev a hmem).trans hpa, ?_⟩
      cases ys with
      | nil =>
        rw [hlast a (by rw [hold]; simp)]
        rfl
      | cons c cs =>
        have hne : l.getLast? ≠ some a := by
          have hnd := h.nodup
          rw [hold] at hnd ⊢
          exact getLast?_ne hnd
        rw [hnext a hmem hne, hna]
        rfl

theorem remove {xs ys : List ι} {p : ι} (h : Linked prev next (xs ++ p :: ys))
    (hl : ∀ a, xs.getLast? = some a → next' a = ys.head?)
    (hr : ∀ b, ys.head? = some b → prev' b = xs.getLast?)
    (hnext : ∀ a ∈ xs ++ ys, xs.getLast? ≠ some a → next' a = next a)
    (hprev : ∀ b ∈ xs ++ ys, ys.head? ≠ some b → prev' b = prev b) :
    Linked prev' next' (xs ++ ys) := by
  have hnd := h.nodup
  have hsub : (xs ++ ys).Sublist (xs ++ p :: ys) :=
    List.Sublist.append_left (List.sublist_cons_self p ys) xs
  refine ⟨hnd.sublist hsub, fun us a vs he => ?_⟩
  have hmem : a ∈ xs ++ ys := by rw [he]; simp
  -- `a` is left or right of `p`
  have hside : (∃ us', us = xs ++ us' ∧ ys = us' ++ a :: vs) ∨
      ∃ vs', xs = us ++ a :: vs' ∧ vs = vs' ++ ys := by
    rcases List.append_eq_append_iff.mp he with ⟨us', hu, hy⟩ | ⟨bs, hx, hv⟩
    · exact Or.inl ⟨us', hu, hy⟩
    · cases bs with
      | nil =>
        rw [List.append_nil] at hx
        exact Or.inl ⟨[], by rw [hx, List.append_nil], hv.symm⟩
      | cons b bs =>
        obtain ⟨rfl, rfl⟩ := List.cons.inj hv
        exact Or.inr ⟨bs, hx, rfl⟩
  rcases hside with ⟨us', rfl, rfl⟩ | ⟨vs', rfl, rfl⟩
  · obtain ⟨hpa, hna⟩ := h.links (xs ++ p :: us') a vs (by simp)
    have hlast : xs.getLast? ≠ some a := by
      intro hx
      have hdis := (List.nodup_append.mp hnd).2.2 a (List.mem_of_getLast? hx) a
      exact hdis (by simp) rfl
    refine ⟨?_, (hnext a hmem hlast).trans hna⟩
    cases us' with
    | nil =>
      rw [List.append_nil]
      exact hr a rfl
    | cons c cs =>
      have hfirst : (c :: cs ++ a :: vs).head? ≠ some a := by
        intro hc
        have hca : c = a := Option.some.inj hc
        have htail := (List.nodup_cons.mp (List.nodup_append.mp hnd).2.1).2
        exact (List.nodup_cons.mp htail).1 (by rw [hca]; simp)
      rw [hprev a hmem hfirst, hpa, List.getLast?_append_of_ne_nil _ (List.cons_ne_nil _ _),
        List.getLast?_append_of_ne_nil _ (List.cons_ne_nil _ _), List.getLast?_cons_cons]
  · obtain ⟨hpa, hna⟩ := h.links us a (vs' ++ p :: ys) (by simp)
    have hfirst : ys.head? ≠ some a := by
      intro hy
      have hdis := (List.nodup_append.mp hnd).2.2 a (by simp) a
      exact hdis (List.mem_cons_of_mem _ (List.mem_of_mem_head? hy)) rfl
    refine ⟨(hprev a hmem hfirst).trans hpa, ?_⟩
    cases vs' with
    | nil => exact hl a (by simp)
    | cons c cs =>
      have hlast : (us ++ a :: c :: cs).getLast? ≠ some a :=
        getLast?_ne (List.nodup_append.mp hnd).1
      rw [hnext a hmem hlast, hna]
      rfl

end Linked

end LinkedLists
