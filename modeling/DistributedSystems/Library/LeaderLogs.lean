import Mathlib.Logic.Function.Basic
import Mathlib.Logic.Relation
import DistributedSystems.Library.Logs

/-!
# Log replication with one leader for each term

A `Cluster` is the abstract state of a replicated log: the present term and log of every node, and
the history that proofs speak about (who led which term, the log each leader built, the votes that
were cast and the indices that were acknowledged).  `Step P` is the protocol over it; `P` says who
may become the leader of a term that has none.  Nothing here depends on how a leader is chosen.
-/

namespace ReplicatedLog

open Function

set_option linter.unusedSectionVars false

variable {Node E : Type*} [DecidableEq Node] [Termed E]

structure Vote (Node E : Type*) where
  cand : Node
  lastTerm : Nat
  lastIndex : Nat
  log : List E

structure Cluster (Node E : Type*) where
  term : Node → Nat
  log : Node → List E
  leaderOf : Nat → Option Node
  leaderLog : Nat → List E
  votes : Node → Nat → Option (Vote Node E)
  acked : Node → Nat → Nat → Prop

namespace Cluster

def init (root : E) : Cluster Node E where
  term _ := 0
  log _ := [root]
  leaderOf _ := none
  leaderLog T := if T = 0 then [root] else []
  votes _ _ := none
  acked _ _ _ := False

/-! ## 1. The protocol -/

def bump (A : Cluster Node E) (j : Node) (T : Nat) : Cluster Node E :=
  { A with term := update A.term j T }

def castVote (A : Cluster Node E) (j : Node) (v : Vote Node E) : Cluster Node E :=
  { A with votes := update A.votes j (update (A.votes j) (A.term j) (some v)) }

def lead (A : Cluster Node E) (c : Node) : Cluster Node E :=
  { A with
    leaderOf := update A.leaderOf (A.term c) (some c)
    leaderLog := update A.leaderLog (A.term c) (A.log c) }

def ack (A : Cluster Node E) (j : Node) (m : Nat) : Cluster Node E :=
  { A with acked := fun j' T' m' => A.acked j' T' m' ∨ (j' = j ∧ T' = A.term j ∧ m' = m) }

def setLog (A : Cluster Node E) (j : Node) (l : List E) : Cluster Node E :=
  { A with log := update A.log j l }

def append (A : Cluster Node E) (c : Node) (e : E) : Cluster Node E :=
  { (A.ack c (A.log c).length) with
    log := update A.log c (A.log c ++ [e])
    leaderLog := update A.leaderLog (A.term c) (A.leaderLog (A.term c) ++ [e]) }

/-- The log after a node was handed the first `k` entries of the log `src`: it keeps what it has
when these are in it already, and is overwritten otherwise. -/
def Grafted (l src : List E) (k : Nat) (l' : List E) : Prop :=
  (l' = l ∧ src.take k <+: l) ∨ (l' = src.take k ∧ ¬ src.take k <+: l)

/-- What a voter may rely on: the candidate is not behind, and while it still stands for that term
it reports its own last entry. -/
def Standing (A : Cluster Node E) (T : Nat) (v : Vote Node E) : Prop :=
  T ≤ A.term v.cand ∧
    (A.term v.cand = T → A.leaderOf T = none →
      ReplicatedLog.lastTerm (A.log v.cand) = v.lastTerm ∧ (A.log v.cand).length - 1 = v.lastIndex)

inductive Step (P : Cluster Node E → Node → Prop) : Node → Cluster Node E → Cluster Node E → Prop
  | bump {A : Cluster Node E} {j : Node} {T : Nat} (h : A.term j < T) : Step P j A (A.bump j T)
  | vote {A : Cluster Node E} {j : Node} {v : Vote Node E}
      (hfresh : A.votes j (A.term j) = none) (hlog : v.log = A.log j)
      (hup : UpToDate v.lastTerm v.lastIndex (A.log j)) (hstand : A.Standing (A.term j) v) :
      Step P j A (A.castVote j v)
  | lead {A : Cluster Node E} {c : Node} (hpos : 0 < A.term c)
      (hnone : A.leaderOf (A.term c) = none) (hP : P A c) : Step P c A (A.lead c)
  | append {A : Cluster Node E} {c : Node} {e : E} (hl : A.leaderOf (A.term c) = some c)
      (he : termOf e = A.term c) : Step P c A (A.append c e)
  | accept {A : Cluster Node E} {j c : Node} {k : Nat} {l : List E}
      (hl : A.leaderOf (A.term j) = some c) (hc : c ≠ j) (hk : 0 < k)
      (hlen : k ≤ (A.leaderLog (A.term j)).length)
      (hg : Grafted (A.log j) (A.leaderLog (A.term j)) k l) :
      Step P j A ((A.setLog j l).ack j (k - 1))
  | truncate {A : Cluster Node E} {j c : Node} {p : Nat} {e e' : E}
      (hl : A.leaderOf (A.term j) = some c) (hc : c ≠ j) (hj : (A.log j)[p]? = some e)
      (hll : (A.leaderLog (A.term j))[p]? = some e') (hne : termOf e ≠ termOf e') :
      Step P j A (A.setLog j ((A.log j).take p))

abbrev Steps (P : Cluster Node E → Node → Prop) (j : Node) :
    Cluster Node E → Cluster Node E → Prop :=
  Relation.ReflTransGen (Step P j)

abbrev Reach (P : Cluster Node E → Node → Prop) : Cluster Node E → Cluster Node E → Prop :=
  Relation.ReflTransGen fun A A' => ∃ j, Step P j A A'

variable {j : Node} {l : List E} {T : Nat} {k : Nat} {c : Node}

theorem reach_of_steps {P : Cluster Node E → Node → Prop} {A A' : Cluster Node E}
    (h : Steps P j A A') : Reach P A A' :=
  Relation.ReflTransGen.mono (fun _ _ hs => ⟨j, hs⟩) _ _ h

theorem Step.mono {P P' : Cluster Node E → Node → Prop} (hP : ∀ A c, P A c → P' A c)
    {A A' : Cluster Node E} (h : Step P j A A') : Step P' j A A' := by
  cases h with
  | bump h => exact .bump h
  | vote hfresh hlog hup hstand => exact .vote hfresh hlog hup hstand
  | lead hpos hnone h => exact .lead hpos hnone (hP _ _ h)
  | append hl he => exact .append hl he
  | accept hl hc hk hlen hg => exact .accept hl hc hk hlen hg
  | truncate hl hc hj hll hne => exact .truncate hl hc hj hll hne

theorem Grafted.keeps {src l' p : List E} (hg : Grafted l src k l') (hsrc : p <+: src)
    (hl : p <+: l) : p <+: l' := by
  rcases hg with ⟨rfl, _⟩ | ⟨rfl, hno⟩
  · exact hl
  · rcases List.prefix_or_prefix_of_prefix hsrc (List.take_prefix k src) with hle | hle
    · exact hle
    · exact absurd (hle.trans hl) hno

theorem Grafted.holds {src l' : List E} (hg : Grafted l src k l') : src.take k <+: l' := by
  rcases hg with ⟨rfl, hp⟩ | ⟨rfl, _⟩
  · exact hp
  · exact List.prefix_rfl

/-! ## 2. The invariant of the logs -/

structure LogInv (root : E) (A : Cluster Node E) : Prop where
  sorted : ∀ T, TermSorted (A.leaderLog T)
  bound : ∀ T, ∀ e ∈ A.leaderLog T, termOf e ≤ T
  leaderMatches : ∀ T, Matches A.leaderLog (A.leaderLog T)
  leaderRoot : ∀ T, (A.leaderOf T).isSome → [root] <+: A.leaderLog T
  vacant : ∀ T, 0 < T → A.leaderOf T = none → A.leaderLog T = []
  zero : A.leaderOf 0 = none ∧ A.leaderLog 0 = [root]
  logMatches : ∀ j, Matches A.leaderLog (A.log j)
  logBound : ∀ j, ∀ e ∈ A.log j, termOf e ≤ A.term j
  logRoot : ∀ j, [root] <+: A.log j
  own : ∀ T c, A.leaderOf T = some c → T ≤ A.term c ∧ (A.term c = T → A.log c = A.leaderLog T)

variable {root : E} {A A' : Cluster Node E} {P : Cluster Node E → Node → Prop} {i : Node}

theorem logInv_init (hroot : termOf root = 0) : LogInv root (init root : Cluster Node E) := by
  have hm : Matches (init root : Cluster Node E).leaderLog [root] := by
    intro i e hi
    have h0 : i = 0 := by
      have h := (List.getElem?_eq_some_iff.mp hi).1
      simpa using h
    subst h0
    have he : e = root := (Option.some.inj hi).symm
    subst he
    simp only [init, hroot, if_true, List.take_of_length_le, List.length_singleton, le_refl]
    exact List.prefix_rfl
  have hcases : ∀ T, (init root : Cluster Node E).leaderLog T = [root] ∧ T = 0 ∨
      (init root : Cluster Node E).leaderLog T = [] ∧ T ≠ 0 := by
    intro T
    by_cases hT : T = 0
    · exact Or.inl ⟨if_pos hT, hT⟩
    · exact Or.inr ⟨if_neg hT, hT⟩
  refine ⟨?_, ?_, ?_, ?_, ?_, ⟨rfl, rfl⟩, fun _ => hm, ?_, fun _ => List.prefix_rfl, ?_⟩
  · intro T
    rcases hcases T with ⟨h, _⟩ | ⟨h, _⟩ <;> rw [h]
    · exact List.pairwise_singleton _ _
    · exact List.Pairwise.nil
  · intro T e he
    rcases hcases T with ⟨h, hT⟩ | ⟨h, _⟩ <;> rw [h] at he
    · rw [List.mem_singleton.mp he, hroot]; exact Nat.zero_le T
    · exact absurd he List.not_mem_nil
  · intro T
    rcases hcases T with ⟨h, _⟩ | ⟨h, _⟩ <;> rw [h]
    · exact hm
    · intro i e hi; simp at hi
  · intro T hT; exact absurd hT (by simp [init])
  · intro T hT _; exact if_neg (by omega)
  · intro j e he
    rw [List.mem_singleton.mp he, hroot]; exact Nat.zero_le _
  · intro T c hT; exact absurd hT (by simp [init])

theorem LogInv.term_ne_of_vacant (h : LogInv root A) (hl : Matches A.leaderLog l) (hT : 0 < T)
    (hnone : A.leaderOf T = none) : ∀ e ∈ l, termOf e ≠ T := by
  intro e he ht
  obtain ⟨i, hi⟩ := List.getElem?_of_mem he
  have hlead := hl.getElem?_leader hi
  rw [ht, h.vacant T hT hnone] at hlead
  simp at hlead

theorem LogInv.bump (h : LogInv root A) (hT : A.term j < T) : LogInv root (A.bump j T) := by
  have hterm : ∀ i, A.term i ≤ (A.bump j T).term i := by
    intro i
    by_cases hi : i = j
    · subst hi; simp only [Cluster.bump, update_self]; omega
    · simp only [Cluster.bump, update_of_ne hi, le_refl]
  refine ⟨h.sorted, h.bound, h.leaderMatches, h.leaderRoot, h.vacant, h.zero, h.logMatches,
    fun i e he => (h.logBound i e he).trans (hterm i), h.logRoot, ?_⟩
  intro U c hc
  have ho := h.own U c hc
  refine ⟨ho.1.trans (hterm c), fun hU => ?_⟩
  by_cases hi : c = j
  · subst hi
    simp only [Cluster.bump, update_self] at hU
    omega
  · simp only [Cluster.bump, update_of_ne hi] at hU
    exact ho.2 hU

section Lead

variable {U : Nat}

theorem leaderLog_lead : (A.lead c).leaderLog (A.term c) = A.log c := update_self ..

theorem leaderLog_lead_of_ne (hU : U ≠ A.term c) : (A.lead c).leaderLog U = A.leaderLog U :=
  update_of_ne hU _ _

theorem leaderOf_lead_of_ne (hU : U ≠ A.term c) : (A.lead c).leaderOf U = A.leaderOf U :=
  update_of_ne hU _ _

end Lead

theorem LogInv.lead (h : LogInv root A) (hpos : 0 < A.term c) (hnone : A.leaderOf (A.term c) = none) :
    LogInv root (A.lead c) := by
  have hgrow : ∀ U, A.leaderLog U <+: (A.lead c).leaderLog U := by
    refine (forall_update_iff _ fun U l => A.leaderLog U <+: l).mpr ⟨?_, fun U _ => List.prefix_rfl⟩
    rw [h.vacant _ hpos hnone]
    exact List.nil_prefix
  refine ⟨?_, ?_, ?_, ?_, ?_, ?_, fun j => (h.logMatches j).mono hgrow, h.logBound, h.logRoot, ?_⟩
  · exact (forall_update_iff _ fun _ l => TermSorted l).mpr
      ⟨(h.logMatches c).termSorted h.sorted, fun U _ => h.sorted U⟩
  · exact (forall_update_iff _ fun U l => ∀ e ∈ l, termOf e ≤ U).mpr
      ⟨h.logBound c, fun U _ => h.bound U⟩
  · exact (forall_update_iff _ fun _ l => Matches (A.lead c).leaderLog l).mpr
      ⟨(h.logMatches c).mono hgrow, fun U _ => (h.leaderMatches U).mono hgrow⟩
  · intro U hs
    by_cases hU : U = A.term c
    · subst hU; rw [leaderLog_lead]; exact h.logRoot c
    · rw [leaderOf_lead_of_ne hU] at hs; rw [leaderLog_lead_of_ne hU]; exact h.leaderRoot U hs
  · intro U hUpos hUnone
    by_cases hU : U = A.term c
    · subst hU; simp [Cluster.lead] at hUnone
    · rw [leaderOf_lead_of_ne hU] at hUnone
      rw [leaderLog_lead_of_ne hU]
      exact h.vacant U hUpos hUnone
  · rw [leaderLog_lead_of_ne (by omega), leaderOf_lead_of_ne (by omega)]; exact h.zero
  · intro U d hd
    by_cases hU : U = A.term c
    · subst hU
      have hdc : d = c := by
        simp only [Cluster.lead, update_self, Option.some.injEq] at hd
        exact hd.symm
      subst hdc
      exact ⟨le_rfl, fun _ => (leaderLog_lead (A := A)).symm⟩
    · rw [leaderOf_lead_of_ne hU] at hd; rw [leaderLog_lead_of_ne hU]; exact h.own U d hd

theorem LogInv.setLog (h : LogInv root A) (hown : A.leaderOf (A.term j) ≠ some j)
    (hm : Matches A.leaderLog l) (hb : ∀ e ∈ l, termOf e ≤ A.term j) (hr : [root] <+: l) :
    LogInv root (A.setLog j l) := by
  refine ⟨h.sorted, h.bound, h.leaderMatches, h.leaderRoot, h.vacant, h.zero, ?_, ?_, ?_, ?_⟩
  · exact (forall_update_iff _ fun _ l => Matches A.leaderLog l).mpr ⟨hm, fun i _ => h.logMatches i⟩
  · exact (forall_update_iff _ fun i l => ∀ e ∈ l, termOf e ≤ A.term i).mpr
      ⟨hb, fun i _ => h.logBound i⟩
  · exact (forall_update_iff _ fun _ l => [root] <+: l).mpr ⟨hr, fun i _ => h.logRoot i⟩
  · intro U c hc
    refine ⟨(h.own U c hc).1, fun hU => ?_⟩
    have hU' : A.term c = U := hU
    have hne : c ≠ j := by
      rintro rfl
      rw [hU'] at hown
      exact hown hc
    simp only [Cluster.setLog, update_of_ne hne]
    exact (h.own U c hc).2 hU

theorem LogInv.ack (h : LogInv root A) (j : Node) (m : Nat) : LogInv root (A.ack j m) :=
  ⟨h.sorted, h.bound, h.leaderMatches, h.leaderRoot, h.vacant, h.zero, h.logMatches, h.logBound,
    h.logRoot, h.own⟩

theorem LogInv.castVote (h : LogInv root A) (j : Node) (v : Vote Node E) :
    LogInv root (A.castVote j v) :=
  ⟨h.sorted, h.bound, h.leaderMatches, h.leaderRoot, h.vacant, h.zero, h.logMatches, h.logBound,
    h.logRoot, h.own⟩

variable {e : E}

theorem leaderLog_append :
    (A.append c e).leaderLog (A.term c) = A.leaderLog (A.term c) ++ [e] := update_self ..

theorem LogInv.log_append (h : LogInv root A) (hl : A.leaderOf (A.term c) = some c) :
    (A.append c e).log c = A.leaderLog (A.term c) ++ [e] := by
  simp only [Cluster.append, update_self, (h.own _ c hl).2 rfl]

theorem LogInv.append (h : LogInv root A) (hl : A.leaderOf (A.term c) = some c)
    (he : termOf e = A.term c) :
    LogInv root (A.append c e) := by
  have hlog : A.log c = A.leaderLog (A.term c) := (h.own _ c hl).2 rfl
  have hold : ∀ U, U ≠ A.term c → (A.append c e).leaderLog U = A.leaderLog U :=
    fun U hU => update_of_ne hU _ _
  have hgrow : ∀ U, A.leaderLog U <+: (A.append c e).leaderLog U :=
    (forall_update_iff _ fun U l => A.leaderLog U <+: l).mpr
      ⟨List.prefix_append _ _, fun U _ => List.prefix_rfl⟩
  have hpos : 0 < A.term c := by
    rcases Nat.eq_zero_or_pos (A.term c) with h0 | h0
    · rw [h0, h.zero.1] at hl; exact absurd hl (by simp)
    · exact h0
  have hm : Matches (A.append c e).leaderLog (A.leaderLog (A.term c) ++ [e]) := by
    apply matches_append_singleton ((h.leaderMatches _).mono hgrow)
    rw [he, leaderLog_append]
  have hb : ∀ x ∈ A.leaderLog (A.term c) ++ [e], termOf x ≤ A.term c := by
    intro x hx
    rcases List.mem_append.mp hx with hx | hx
    · exact h.bound _ x hx
    · rw [List.mem_singleton.mp hx, he]
  have hr : [root] <+: A.leaderLog (A.term c) ++ [e] :=
    (h.leaderRoot _ (by rw [hl]; rfl)).trans (List.prefix_append _ _)
  refine ⟨?_, ?_, ?_, fun U hs => (h.leaderRoot U hs).trans (hgrow U), ?_, ?_, ?_, ?_, ?_, ?_⟩
  · refine (forall_update_iff _ fun _ l => TermSorted l).mpr ⟨?_, fun U _ => h.sorted U⟩
    exact (h.sorted _).append_singleton fun x hx => by rw [he]; exact h.bound _ x hx
  · exact (forall_update_iff _ fun U l => ∀ x ∈ l, termOf x ≤ U).mpr ⟨hb, fun U _ => h.bound U⟩
  · exact (forall_update_iff _ fun _ l => Matches (A.append c e).leaderLog l).mpr
      ⟨hm, fun U _ => (h.leaderMatches U).mono hgrow⟩
  · intro U hUpos hUnone
    rw [hold U (by rintro rfl; rw [show (A.append c e).leaderOf = A.leaderOf from rfl, hl] at hUnone
                   exact absurd hUnone (by simp))]
    exact h.vacant U hUpos hUnone
  · rw [hold 0 (by omega)]; exact h.zero
  · exact (forall_update_iff _ fun _ l => Matches (A.append c e).leaderLog l).mpr
      ⟨hlog ▸ hm, fun i _ => (h.logMatches i).mono hgrow⟩
  · exact (forall_update_iff _ fun i l => ∀ x ∈ l, termOf x ≤ A.term i).mpr
      ⟨hlog ▸ hb, fun i _ => h.logBound i⟩
  · exact (forall_update_iff _ fun _ l => [root] <+: l).mpr ⟨hlog ▸ hr, fun i _ => h.logRoot i⟩
  · intro U d hd
    refine ⟨(h.own U d hd).1, fun hU => ?_⟩
    have hU' : A.term d = U := hU
    by_cases hUc : U = A.term c
    · subst hUc
      have hdc : d = c := Option.some.inj (hd.symm.trans hl)
      subst hdc
      rw [h.log_append hl, leaderLog_append]
    · have hdc : d ≠ c := by rintro rfl; exact hUc hU'.symm
      rw [hold U hUc]
      simp only [Cluster.append, update_of_ne hdc]
      exact (h.own U d hd).2 hU

theorem LogInv.grafted (h : LogInv root A) (hl : A.leaderOf (A.term j) = some c) (hk : 0 < k)
    (hg : Grafted (A.log j) (A.leaderLog (A.term j)) k l) :
    Matches A.leaderLog l ∧ (∀ e ∈ l, termOf e ≤ A.term j) ∧ [root] <+: l := by
  rcases hg with ⟨rfl, _⟩ | ⟨rfl, _⟩
  · exact ⟨h.logMatches j, h.logBound j, h.logRoot j⟩
  · refine ⟨(h.leaderMatches _).restrict (List.take_prefix _ _),
      fun e he => h.bound _ e (List.mem_of_mem_take he), ?_⟩
    have hr := h.leaderRoot (A.term j) (by rw [hl]; rfl)
    exact List.prefix_of_prefix_length_le hr (List.take_prefix _ _) (by
      have hlen := hr.length_le
      rw [List.length_take]
      simp only [List.length_singleton] at hlen ⊢
      omega)

theorem LogInv.mismatch_pos (h : LogInv root A) {p : Nat} {e' : E}
    (hl : A.leaderOf (A.term j) = some c) (hj : (A.log j)[p]? = some e)
    (hll : (A.leaderLog (A.term j))[p]? = some e') (hne : termOf e ≠ termOf e') : 0 < p := by
  rcases Nat.eq_zero_or_pos p with rfl | hp
  · have h1 := prefix_getElem? (h.logRoot j) (i := 0) rfl
    have h2 := prefix_getElem? (h.leaderRoot (A.term j) (by rw [hl]; rfl)) (i := 0) rfl
    rw [hj] at h1
    rw [hll] at h2
    exact absurd (by rw [Option.some.inj h1, Option.some.inj h2]) hne
  · exact hp

theorem LogInv.step (h : LogInv root A) (hs : Step P i A A') : LogInv root A' := by
  cases hs with
  | bump hT => exact h.bump hT
  | vote _ _ _ _ => exact h.castVote _ _
  | lead hpos hnone _ => exact h.lead hpos hnone
  | append hl he => exact h.append hl he
  | @accept _ _ c k l hl hc hk hlen hg =>
    obtain ⟨hm, hb, hr⟩ := h.grafted hl hk hg
    refine (h.setLog ?_ hm hb hr).ack _ _
    rw [hl]
    exact fun he => hc (Option.some.inj he)
  | @truncate _ _ c p e e' hl hc hj hll hne =>
    have hp := h.mismatch_pos hl hj hll hne
    refine h.setLog ?_ ((h.logMatches i).restrict (List.take_prefix _ _))
      (fun x hx => h.logBound i x (List.mem_of_mem_take hx)) ?_
    · rw [hl]
      exact fun he => hc (Option.some.inj he)
    · have hlt := (List.getElem?_eq_some_iff.mp hj).1
      exact List.prefix_of_prefix_length_le (h.logRoot i) (List.take_prefix _ _) (by
        rw [List.length_take, List.length_singleton]; omega)

/-! ## 3. History only grows -/

structure Extends (A A' : Cluster Node E) : Prop where
  term : ∀ j, A.term j ≤ A'.term j
  leaderOf : ∀ T c, A.leaderOf T = some c → A'.leaderOf T = some c
  leaderLog : ∀ T, ∃ t, A'.leaderLog T = A.leaderLog T ++ t ∧
    ((A.leaderOf T).isSome → ∀ e ∈ t, ReplicatedLog.termOf e = T)
  votes : ∀ j T v, A.votes j T = some v → A'.votes j T = some v
  acked : ∀ j T m, A.acked j T m → A'.acked j T m

theorem Extends.refl (A : Cluster Node E) : Extends A A :=
  ⟨fun _ => le_rfl, fun _ _ h => h, fun _ => ⟨[], by simp, by simp⟩, fun _ _ _ h => h,
    fun _ _ _ h => h⟩

theorem Extends.trans {B C : Cluster Node E} (h : Extends A B) (h' : Extends B C) :
    Extends A C := by
  refine ⟨fun j => (h.term j).trans (h'.term j), fun T c hc => h'.leaderOf T c (h.leaderOf T c hc),
    ?_, fun j T v hv => h'.votes j T v (h.votes j T v hv),
    fun j T m hm => h'.acked j T m (h.acked j T m hm)⟩
  intro T
  obtain ⟨t, ht, htt⟩ := h.leaderLog T
  obtain ⟨u, hu, huu⟩ := h'.leaderLog T
  refine ⟨t ++ u, by rw [hu, ht, List.append_assoc], fun hs e he => ?_⟩
  obtain ⟨c, hc⟩ := Option.isSome_iff_exists.mp hs
  rcases List.mem_append.mp he with he | he
  · exact htt hs e he
  · exact huu (by rw [h.leaderOf T c hc]; rfl) e he

theorem Extends.leaderLog_le (h : Extends A A') (T : Nat) : A.leaderLog T <+: A'.leaderLog T := by
  obtain ⟨t, ht, _⟩ := h.leaderLog T
  exact ⟨t, ht.symm⟩

theorem Extends.take_leaderLog (h : Extends A A') (hk : k ≤ (A.leaderLog T).length) :
    (A'.leaderLog T).take k = (A.leaderLog T).take k :=
  take_eq_take_left (h.leaderLog_le T) hk

theorem Standing.lasts {v : Vote Node E} (h : A.Standing T v)
    (hterm : A.term v.cand ≤ A'.term v.cand) (hsame : A'.term v.cand = T → A'.leaderOf T = none →
      A.leaderOf T = none ∧ A'.log v.cand = A.log v.cand) : A'.Standing T v := by
  refine ⟨h.1.trans hterm, fun ht hn => ?_⟩
  obtain ⟨hn', hlog⟩ := hsame ht hn
  rw [hlog]
  exact h.2 (Nat.le_antisymm (by omega) h.1) hn'

/-- What the steps of the node `i` do: history grows, standing candidates go on standing, and the
other nodes stay as they are. -/
structure Local (i : Node) (A A' : Cluster Node E) : Prop extends Extends A A' where
  standing : ∀ T v, A.Standing T v → A'.Standing T v
  others : ∀ j, j ≠ i → A'.term j = A.term j ∧ A'.log j = A.log j ∧ A'.votes j = A.votes j
  leaders : ∀ T c, c ≠ i → A'.leaderOf T = some c → A.leaderOf T = some c

theorem Local.refl (i : Node) (A : Cluster Node E) : Local i A A :=
  ⟨Extends.refl A, fun _ _ h => h, fun _ _ => ⟨rfl, rfl, rfl⟩, fun _ _ _ h => h⟩

theorem Local.trans {B C : Cluster Node E} (h : Local i A B) (h' : Local i B C) : Local i A C := by
  refine ⟨h.toExtends.trans h'.toExtends, fun T v hv => h'.standing T v (h.standing T v hv),
    fun j hj => ?_, fun T c hc hT => h.leaders T c hc (h'.leaders T c hc hT)⟩
  obtain ⟨h1, h2, h3⟩ := h.others j hj
  obtain ⟨h1', h2', h3'⟩ := h'.others j hj
  exact ⟨h1'.trans h1, h2'.trans h2, h3'.trans h3⟩

theorem local_bump (hT : A.term i < T) : Local i A (A.bump i T) := by
  have hterm : ∀ j, A.term j ≤ (A.bump i T).term j := by
    intro j
    by_cases hj : j = i
    · subst hj; simp only [Cluster.bump, update_self]; omega
    · simp only [Cluster.bump, update_of_ne hj, le_refl]
  refine ⟨{ Extends.refl A with term := hterm }, fun U v hv => ?_, fun j hj => ?_,
    fun _ _ _ h => h⟩
  · exact hv.lasts (hterm _) fun _ hn => ⟨hn, rfl⟩
  · exact ⟨by simp only [Cluster.bump, update_of_ne hj], rfl, rfl⟩

theorem local_castVote {v : Vote Node E} (hfresh : A.votes i (A.term i) = none) :
    Local i A (A.castVote i v) := by
  refine ⟨{ Extends.refl A with votes := fun j T w hw => ?_ }, fun _ _ hv => hv, fun j hj => ?_,
    fun _ _ _ h => h⟩
  · by_cases hj : j = i
    · subst hj
      have hT : T ≠ A.term j := by rintro rfl; rw [hfresh] at hw; exact absurd hw (by simp)
      simp only [Cluster.castVote, update_self, update_of_ne hT, hw]
    · simp only [Cluster.castVote, update_of_ne hj, hw]
  · exact ⟨rfl, rfl, by simp only [Cluster.castVote, update_of_ne hj]⟩

theorem local_lead (hinv : LogInv root A) (hpos : 0 < A.term i)
    (hnone : A.leaderOf (A.term i) = none) : Local i A (A.lead i) := by
  have hgrow : ∀ T c, A.leaderOf T = some c → (A.lead i).leaderOf T = some c := by
    intro T c hc
    have hT : T ≠ A.term i := by rintro rfl; rw [hnone] at hc; exact absurd hc (by simp)
    simp only [Cluster.lead, update_of_ne hT, hc]
  refine ⟨{ Extends.refl A with leaderOf := hgrow, leaderLog := fun T => ?_ }, fun T v hv => ?_,
    fun _ _ => ⟨rfl, rfl, rfl⟩, fun T c hc hT => ?_⟩
  · by_cases hT : T = A.term i
    · subst hT
      refine ⟨A.log i, ?_, by simp [hnone]⟩
      rw [hinv.vacant _ hpos hnone]
      simp only [Cluster.lead, update_self, List.nil_append]
    · exact ⟨[], by simp only [Cluster.lead, update_of_ne hT, List.append_nil], by simp⟩
  · refine hv.lasts le_rfl fun _ hn => ⟨?_, rfl⟩
    by_contra hs
    obtain ⟨c, hc⟩ := Option.ne_none_iff_exists'.mp hs
    rw [hgrow T c hc] at hn
    exact absurd hn (by simp)
  · by_cases hTi : T = A.term i
    · subst hTi
      simp only [Cluster.lead, update_self, Option.some.injEq] at hT
      exact absurd hT.symm hc
    · simpa only [Cluster.lead, update_of_ne hTi] using hT

theorem local_append (hl : A.leaderOf (A.term i) = some i) (he : termOf e = A.term i) :
    Local i A (A.append i e) := by
  refine ⟨{ Extends.refl A with leaderLog := fun T => ?_, acked := fun _ _ _ hm => Or.inl hm },
    fun T v hv => ?_, fun j hj => ⟨rfl, ?_, rfl⟩, fun _ _ _ h => h⟩
  · by_cases hT : T = A.term i
    · subst hT
      exact ⟨[e], by simp only [Cluster.append, update_self], fun _ x hx => by
        rw [List.mem_singleton.mp hx, he]⟩
    · exact ⟨[], by simp only [Cluster.append, update_of_ne hT, List.append_nil], by simp⟩
  · refine hv.lasts le_rfl fun ht hn => ⟨hn, ?_⟩
    have hne : v.cand ≠ i := by
      intro hv'
      have ht' : A.term v.cand = T := ht
      rw [← ht', hv'] at hn
      exact absurd (hn.symm.trans hl) (by simp)
    simp only [Cluster.append, update_of_ne hne]
  · simp only [Cluster.append, update_of_ne hj]

theorem local_setLog (hl : A.leaderOf (A.term i) = some c) : Local i A (A.setLog i l) := by
  refine ⟨⟨fun _ => le_rfl, fun _ _ h => h, fun _ => ⟨[], by simp [Cluster.setLog], by simp⟩,
    fun _ _ _ h => h, fun _ _ _ h => h⟩, fun T v hv => ?_, fun j hj => ⟨rfl, ?_, rfl⟩,
    fun _ _ _ h => h⟩
  · refine hv.lasts le_rfl fun ht hn => ⟨hn, ?_⟩
    have hne : v.cand ≠ i := by
      intro hv'
      have ht' : A.term v.cand = T := ht
      rw [← ht', hv'] at hn
      exact absurd (hn.symm.trans hl) (by simp)
    simp only [Cluster.setLog, update_of_ne hne]
  · simp only [Cluster.setLog, update_of_ne hj]

theorem local_ack (j i : Node) (m : Nat) : Local i A (A.ack j m) :=
  ⟨⟨fun _ => le_rfl, fun _ _ h => h, fun _ => ⟨[], by simp [Cluster.ack], by simp⟩,
    fun _ _ _ h => h, fun _ _ _ h => Or.inl h⟩, fun _ _ hv => hv, fun _ _ => ⟨rfl, rfl, rfl⟩,
    fun _ _ _ h => h⟩

theorem Step.isLocal (hinv : LogInv root A) (hs : Step P i A A') : Local i A A' := by
  cases hs with
  | bump hT => exact local_bump hT
  | vote hfresh _ _ _ => exact local_castVote hfresh
  | lead hpos hnone _ => exact local_lead hinv hpos hnone
  | append hl he => exact local_append hl he
  | accept hl _ _ _ _ => exact (local_setLog hl).trans (local_ack i i _)
  | truncate hl _ _ _ _ => exact local_setLog hl

theorem LogInv.steps (h : LogInv root A) (hs : Steps P i A A') : LogInv root A' ∧ Local i A A' := by
  induction hs with
  | refl => exact ⟨h, Local.refl i A⟩
  | tail _ hlast ih => exact ⟨ih.1.step hlast, ih.2.trans (hlast.isLocal ih.1)⟩

theorem LogInv.extends_of_reach (h : LogInv root A) (hs : Reach P A A') :
    LogInv root A' ∧ Extends A A' := by
  induction hs with
  | refl => exact ⟨h, Extends.refl A⟩
  | tail _ hlast ih =>
    obtain ⟨j, hlast⟩ := hlast
    exact ⟨ih.1.step hlast, ih.2.trans (hlast.isLocal ih.1).toExtends⟩

end Cluster

end ReplicatedLog
