import Mathlib.Data.List.Infix

/-!
# Logs of entries that carry a term

The reference object is a family `ll` that gives, for each term, the log its leader has built so
far.  A log *matches* the family when everything up to an entry is a prefix of the log of the leader
of that entry's term; log matching is then a fact about prefixes of one list.
-/

namespace ReplicatedLog

class Termed (E : Type*) where
  termOf : E → Nat

export Termed (termOf)

variable {E : Type*}

/-! ## 1. Prefixes -/

theorem take_prefix_trans {l l' : List E} (h : l <+: l') (k : Nat) : l.take k <+: l' :=
  (List.take_prefix k l).trans h

variable {k : Nat}

theorem take_eq_take_left {l l' : List E} (h : l <+: l') (hk : k ≤ l.length) :
    l'.take k = l.take k := by
  obtain ⟨t, rfl⟩ := h
  exact List.take_append_of_le_length hk

variable {e : E} {i : Nat}

theorem prefix_getElem? {l l' : List E} (h : l <+: l') (hi : l[i]? = some e) : l'[i]? = some e := by
  obtain ⟨t, rfl⟩ := h
  obtain ⟨hlt, _⟩ := List.getElem?_eq_some_iff.mp hi
  rw [List.getElem?_append_left hlt, hi]

theorem take_prefix_getElem? {l l' : List E} (h : l.take k <+: l') (hik : i < k)
    (hi : l[i]? = some e) : l'[i]? = some e := by
  apply prefix_getElem? h
  rw [List.getElem?_take_of_lt hik, hi]

theorem prefix_eq_of_length_eq {p q l : List E} (hp : p <+: l) (hq : q <+: l)
    (hlen : p.length = q.length) : p = q :=
  (List.prefix_of_prefix_length_le hp hq hlen.le).eq_of_length hlen

theorem take_prefix_le {l l' : List E} {j : Nat} (h : l.take k <+: l') (hjk : j ≤ k) :
    l.take j <+: l' := by
  have hj : l.take j = (l.take k).take j := by rw [List.take_take, min_eq_left hjk]
  rw [hj]
  exact take_prefix_trans h j

theorem prefix_take_of_ne {p l l' : List E} {e' : E} (hl : p <+: l) (hl' : p <+: l')
    (hi : l[i]? = some e) (hi' : l'[i]? = some e') (hne : e ≠ e') : p <+: l.take i := by
  apply List.prefix_of_prefix_length_le hl (List.take_prefix i l)
  have hlt := (List.getElem?_eq_some_iff.mp hi).1
  rw [List.length_take]
  by_contra hcon
  have hp : i < p.length := by omega
  have h1 := prefix_getElem? hl (List.getElem?_eq_getElem hp)
  have h2 := prefix_getElem? hl' (List.getElem?_eq_getElem hp)
  rw [hi] at h1
  rw [hi'] at h2
  exact hne ((Option.some.inj h1).trans (Option.some.inj h2).symm)

/-! ## 2. Matching -/

variable [Termed E]

/-- Everything up to an entry of `l` is a prefix of the log of the leader of the entry's term. -/
def Matches (ll : Nat → List E) (l : List E) : Prop :=
  ∀ (i : Nat) (e : E), l[i]? = some e → l.take (i + 1) <+: ll (termOf e)

variable {ll ll' : Nat → List E} {l l' : List E}

/-- **Log matching.**  Entries of equal term at one index head equal prefixes. -/
theorem Matches.agree (h : Matches ll l) (h' : Matches ll l') {e' : E} (hi : l[i]? = some e)
    (hi' : l'[i]? = some e') (ht : termOf e = termOf e') :
    l.take (i + 1) = l'.take (i + 1) := by
  have hp := h i e hi
  have hp' := h' i e' hi'
  rw [← ht] at hp'
  have hlt := (List.getElem?_eq_some_iff.mp hi).1
  have hlt' := (List.getElem?_eq_some_iff.mp hi').1
  apply prefix_eq_of_length_eq hp hp'
  rw [List.length_take, List.length_take]
  omega

theorem Matches.restrict (h : Matches ll l) (hp : l' <+: l) : Matches ll l' := by
  intro i e hi
  have hlt := (List.getElem?_eq_some_iff.mp hi).1
  have hm := h i e (prefix_getElem? hp hi)
  rwa [take_eq_take_left hp (by omega)] at hm

theorem Matches.mono (h : Matches ll l) (hll : ∀ T, ll T <+: ll' T) : Matches ll' l :=
  fun i e hi => (h i e hi).trans (hll _)

theorem Matches.getElem?_leader (h : Matches ll l) (hi : l[i]? = some e) :
    (ll (termOf e))[i]? = some e :=
  take_prefix_getElem? (h i e hi) (Nat.lt_succ_self i) hi

theorem matches_append_singleton (h : Matches ll l) (he : l ++ [e] <+: ll (termOf e)) :
    Matches ll (l ++ [e]) := by
  intro i x hi
  rcases Nat.lt_or_ge i l.length with hlt | hge
  · rw [List.getElem?_append_left hlt] at hi
    rw [List.take_append_of_le_length (by omega)]
    exact h i x hi
  · have hlt := (List.getElem?_eq_some_iff.mp hi).1
    rw [List.length_append, List.length_singleton] at hlt
    have hil : i = l.length := by omega
    subst hil
    have hx : x = e := by
      rw [List.getElem?_append_right le_rfl, Nat.sub_self] at hi
      exact (Option.some.inj hi).symm
    subst hx
    exact take_prefix_trans he _

/-! ## 3. Last entries and the up-to-date order -/

def lastTerm (l : List E) : Nat := (l.getLast?.map termOf).getD 0

/-- A log whose last entry has term `t` and index `i` is at least as up to date as `l`. -/
def UpToDate (t i : Nat) (l : List E) : Prop :=
  lastTerm l < t ∨ (lastTerm l = t ∧ l.length - 1 ≤ i)

instance (t i : Nat) (l : List E) : Decidable (UpToDate t i l) :=
  inferInstanceAs (Decidable (_ ∨ _))

theorem lastTerm_eq (h : l[l.length - 1]? = some e) : lastTerm l = termOf e := by
  unfold lastTerm
  rw [List.getLast?_eq_getElem?, h]
  rfl

def TermSorted (l : List E) : Prop := l.Pairwise (fun a b => termOf a ≤ termOf b)

theorem TermSorted.le {j : Nat} {a b : E} (h : TermSorted l) (hij : i ≤ j) (hi : l[i]? = some a)
    (hj : l[j]? = some b) : termOf a ≤ termOf b := by
  obtain ⟨hil, rfl⟩ := List.getElem?_eq_some_iff.mp hi
  obtain ⟨hjl, rfl⟩ := List.getElem?_eq_some_iff.mp hj
  rcases Nat.eq_or_lt_of_le hij with he | hlt
  · subst he; exact le_rfl
  · exact List.pairwise_iff_getElem.mp h i j hil hjl hlt

theorem TermSorted.restrict (h : TermSorted l) (hp : l' <+: l) : TermSorted l' :=
  List.Pairwise.sublist hp.sublist h

theorem TermSorted.append_singleton (h : TermSorted l) (he : ∀ x ∈ l, termOf x ≤ termOf e) :
    TermSorted (l ++ [e]) := by
  refine List.pairwise_append.mpr ⟨h, List.pairwise_singleton _ _, ?_⟩
  intro x hx y hy
  rw [List.mem_singleton.mp hy]
  exact he x hx

theorem Matches.termSorted (h : Matches ll l) (hs : ∀ T, TermSorted (ll T)) : TermSorted l := by
  rcases List.eq_nil_or_concat l with rfl | ⟨p, e, rfl⟩
  · exact List.Pairwise.nil
  · rw [List.concat_eq_append] at h ⊢
    have hp := h p.length e (by simp)
    rw [List.take_of_length_le (by simp)] at hp
    exact (hs _).restrict hp

end ReplicatedLog
