import Mathlib.Data.Finset.Basic
import DistributedSystems.Library.LeaderLogs

/-!
# Leader completeness for quorum elections

Leaders are elected by a quorum of votes, and an index is committed once a commit quorum has
acknowledged it.  The two kinds of quorum need not be the same; all that is used is that they meet.
The invariant says of an acknowledged prefix that a node still holds it unless some later leader
lacks it, and of a later leader that it holds the prefix unless an earlier one lost it or its own
electorate never acknowledged it.
-/

namespace ReplicatedLog

open Function

set_option linter.unusedSectionVars false

structure Quorums (Node : Type*) where
  elect : Finset Node → Prop
  commit : Finset Node → Prop
  elect_meets : ∀ Q Q', elect Q → elect Q' → ∃ j ∈ Q, j ∈ Q'
  commit_meets : ∀ Q Q', elect Q → commit Q' → ∃ j ∈ Q, j ∈ Q'

variable {Node E : Type*} [DecidableEq Node] [Termed E]

namespace Cluster

def ElectedIn (q : Quorums Node) (A : Cluster Node E) (T : Nat) (c : Node) : Prop :=
  ∃ Q, q.elect Q ∧ ∀ j ∈ Q, ∃ v, A.votes j T = some v ∧ v.cand = c

def Elected (q : Quorums Node) (A : Cluster Node E) (c : Node) : Prop := A.ElectedIn q (A.term c) c

/-- Some leader of a term in `(T, U]` lacks the first `i + 1` entries of the log of term `T`. -/
def LostBy (A : Cluster Node E) (T i U : Nat) : Prop :=
  ∃ T', T < T' ∧ T' ≤ U ∧ (A.leaderOf T').isSome ∧ ¬ (A.leaderLog T).take (i + 1) <+: A.leaderLog T'

/-- Index `i` was acknowledged in term `T`, whose entry it is, by a commit quorum. -/
def Committed (q : Quorums Node) (A : Cluster Node E) (T i : Nat) : Prop :=
  (∃ Q, q.commit Q ∧ ∀ j ∈ Q, ∃ m, i ≤ m ∧ A.acked j T m) ∧
    ∃ e, (A.leaderLog T)[i]? = some e ∧ termOf e = T

structure SafeInv (q : Quorums Node) (root : E) (A : Cluster Node E) : Prop
    extends LogInv root A where
  voteTerm : ∀ j T v, A.votes j T = some v → T ≤ A.term j
  voteStanding : ∀ j T v, A.votes j T = some v → A.Standing T v
  voteUp : ∀ j T v, A.votes j T = some v → UpToDate v.lastTerm v.lastIndex v.log
  voteMatches : ∀ j T v, A.votes j T = some v → Matches A.leaderLog v.log
  elected : ∀ T c, A.leaderOf T = some c → A.ElectedIn q T c
  ackTerm : ∀ j T m, A.acked j T m → T ≤ A.term j ∧ m < (A.leaderLog T).length
  ackKept : ∀ j T m i, A.acked j T m → i ≤ m →
    (A.leaderLog T).take (i + 1) <+: A.log j ∨ A.LostBy T i (A.term j)
  ackVoted : ∀ j T m i T' v, A.acked j T m → i ≤ m → T < T' → A.votes j T' = some v →
    (A.leaderLog T).take (i + 1) <+: v.log ∨ A.LostBy T i T'
  complete : ∀ T T' i e, (A.leaderOf T').isSome → T < T' → (A.leaderLog T)[i]? = some e →
    termOf e = T →
    (A.leaderLog T).take (i + 1) <+: A.leaderLog T' ∨ A.LostBy T i (T' - 1) ∨
      ∃ Q, q.elect Q ∧ ∀ j ∈ Q, T' ≤ A.term j ∧ ∀ m, i ≤ m → ¬ A.acked j T m

variable {q : Quorums Node} {root : E} {A A' : Cluster Node E}

theorem safeInv_init (hroot : termOf root = 0) : SafeInv q root (init root : Cluster Node E) where
  toLogInv := logInv_init hroot
  voteTerm _ _ _ h := absurd h (by simp [init])
  voteStanding _ _ _ h := absurd h (by simp [init])
  voteUp _ _ _ h := absurd h (by simp [init])
  voteMatches _ _ _ h := absurd h (by simp [init])
  elected _ _ h := absurd h (by simp [init])
  ackTerm _ _ _ h := h.elim
  ackKept _ _ _ _ h := h.elim
  ackVoted _ _ _ _ _ _ h := h.elim
  complete _ _ _ _ h := absurd h (by simp [init])

/-! ## 1. What lasts -/

theorem LostBy.widen {T i U U' : Nat} (h : A.LostBy T i U) (hU : U ≤ U') : A.LostBy T i U' := by
  obtain ⟨T', h1, h2, h3⟩ := h
  exact ⟨T', h1, h2.trans hU, h3⟩

theorem LostBy.lasts (hinv : LogInv root A) (hext : Extends A A') {T i U : Nat}
    (hi : i < (A.leaderLog T).length) (h : A.LostBy T i U) : A'.LostBy T i U := by
  obtain ⟨T', hT, hU, hs, hno⟩ := h
  obtain ⟨c, hc⟩ := Option.isSome_iff_exists.mp hs
  refine ⟨T', hT, hU, by rw [hext.leaderOf T' c hc]; rfl, ?_⟩
  rw [hext.take_leaderLog (by omega)]
  obtain ⟨t, ht, htt⟩ := hext.leaderLog T'
  rw [ht]
  intro hp
  rcases List.prefix_or_prefix_of_prefix hp (List.prefix_append (A.leaderLog T') t) with hle | hle
  · exact hno hle
  · -- the prefix reaches into the new entries, which are of term `T'`
    obtain ⟨u, hu⟩ := hle
    rw [← hu] at hp hno
    have hut : u <+: t := (List.prefix_append_right_inj _).mp hp
    cases u with
    | nil => exact hno (by simp)
    | cons x u =>
      have hx : termOf x = T' := htt hs x (hut.subset List.mem_cons_self)
      have hxT : x ∈ (A.leaderLog T).take (i + 1) := by rw [← hu]; simp
      have hb := hinv.bound T x (List.mem_of_mem_take hxT)
      omega

variable {T i : Nat} {e : E} {c : Node} {j : Node} {l : List E}

theorem Committed.lasts (hext : Extends A A') (h : A.Committed q T i) : A'.Committed q T i := by
  obtain ⟨⟨Q, hQ, hack⟩, e, he, ht⟩ := h
  refine ⟨⟨Q, hQ, fun j hj => ?_⟩, e, prefix_getElem? (hext.leaderLog_le T) he, ht⟩
  obtain ⟨m, hm, ha⟩ := hack j hj
  exact ⟨m, hm, hext.acked j T m ha⟩

theorem ElectedIn.lasts (hext : Extends A A') (h : A.ElectedIn q T c) : A'.ElectedIn q T c := by
  obtain ⟨Q, hQ, hv⟩ := h
  refine ⟨Q, hQ, fun j hj => ?_⟩
  obtain ⟨v, hv, hc⟩ := hv j hj
  exact ⟨v, hext.votes j T v hv, hc⟩

theorem ElectedIn.unique {d : Node} (hc : A.ElectedIn q T c) (hd : A.ElectedIn q T d) : c = d := by
  obtain ⟨Q, hQ, hv⟩ := hc
  obtain ⟨Q', hQ', hv'⟩ := hd
  obtain ⟨j, hj, hj'⟩ := q.elect_meets Q Q' hQ hQ'
  obtain ⟨v, hjv, rfl⟩ := hv j hj
  obtain ⟨v', hjv', rfl⟩ := hv' j hj'
  rw [hjv] at hjv'
  rw [Option.some.inj hjv']

variable {T' : Nat} {l' : List E}

/-- The clauses about old votes, old acknowledgements and old leaders survive a step; what is left
to a rule is the nodes whose log it changes and the records it adds. -/
theorem SafeInv.ackVoted_lasts (h : SafeInv q root A) (hext : Extends A A') {m : Nat}
    {v : Vote Node E} (ha : A.acked j T m) (him : i ≤ m) (hT : T < T') (hv : A.votes j T' = some v) :
    (A'.leaderLog T).take (i + 1) <+: v.log ∨ A'.LostBy T i T' := by
  have hlen := (h.ackTerm j T m ha).2
  rw [hext.take_leaderLog (by omega)]
  exact (h.ackVoted j T m i T' v ha him hT hv).imp_right (LostBy.lasts h.toLogInv hext (by omega))

theorem SafeInv.complete_lasts (h : SafeInv q root A) (hext : Extends A A')
    (hnew : ∀ j T m, A'.acked j T m → A.acked j T m ∨ T = A.term j) (hs : (A.leaderOf T').isSome)
    (hT : T < T') (he : (A.leaderLog T)[i]? = some e) (ht : termOf e = T) :
    (A'.leaderLog T).take (i + 1) <+: A'.leaderLog T' ∨ A'.LostBy T i (T' - 1) ∨
      ∃ Q, q.elect Q ∧ ∀ j ∈ Q, T' ≤ A'.term j ∧ ∀ m, i ≤ m → ¬ A'.acked j T m := by
  have hlen := (List.getElem?_eq_some_iff.mp he).1
  rw [hext.take_leaderLog (by omega)]
  rcases h.complete T T' i e hs hT he ht with hp | hl | ⟨Q, hQ, hno⟩
  · exact Or.inl (hp.trans (hext.leaderLog_le T'))
  · exact Or.inr (Or.inl (hl.lasts h.toLogInv hext hlen))
  · refine Or.inr (Or.inr ⟨Q, hQ, fun j hj => ⟨(hno j hj).1.trans (hext.term j), ?_⟩⟩)
    intro m hm ha
    -- a node of the electorate is past term `T`, so it acknowledges nothing there any more
    rcases hnew j T m ha with ha | hTj
    · exact (hno j hj).2 m hm ha
    · have := (hno j hj).1
      omega

/-! ## 2. The steps -/

theorem SafeInv.bump (h : SafeInv q root A) (hT : A.term j < T) : SafeInv q root (A.bump j T) := by
  have hext : Extends A (A.bump j T) := (local_bump hT).toExtends
  refine ⟨h.toLogInv.bump hT, ?_, ?_, h.voteUp, h.voteMatches, h.elected, ?_, ?_, h.ackVoted, ?_⟩
  · exact fun i U v hv => (h.voteTerm i U v hv).trans (hext.term i)
  · exact fun i U v hv => (h.voteStanding i U v hv).lasts (hext.term _) fun _ hn => ⟨hn, rfl⟩
  · exact fun i U m ha => ⟨(h.ackTerm i U m ha).1.trans (hext.term i), (h.ackTerm i U m ha).2⟩
  · exact fun i U m k ha hk => (h.ackKept i U m k ha hk).imp_right (fun hl => hl.widen (hext.term i))
  · exact fun U U' i e hs hU he ht => h.complete_lasts hext (fun _ _ _ ha => Or.inl ha) hs hU he ht

theorem SafeInv.castVote (h : SafeInv q root A) {v : Vote Node E}
    (hfresh : A.votes j (A.term j) = none) (hlog : v.log = A.log j)
    (hup : UpToDate v.lastTerm v.lastIndex (A.log j)) (hstand : A.Standing (A.term j) v) :
    SafeInv q root (A.castVote j v) := by
  have hext : Extends A (A.castVote j v) :=
    (local_castVote hfresh).toExtends
  have hcases : ∀ i T w, (A.castVote j v).votes i T = some w →
      A.votes i T = some w ∨ (i = j ∧ T = A.term j ∧ w = v) := by
    intro i T w hw
    by_cases hi : i = j
    · subst hi
      by_cases hT : T = A.term i
      · subst hT
        simp only [Cluster.castVote, update_self, Option.some.injEq] at hw
        exact Or.inr ⟨rfl, rfl, hw.symm⟩
      · simp only [Cluster.castVote, update_self, update_of_ne hT] at hw
        exact Or.inl hw
    · simp only [Cluster.castVote, update_of_ne hi] at hw
      exact Or.inl hw
  refine ⟨h.toLogInv.castVote j v, ?_, ?_, ?_, ?_, ?_, h.ackTerm, h.ackKept, ?_, h.complete⟩
  · intro i T w hw
    rcases hcases i T w hw with hw | ⟨rfl, rfl, -⟩
    · exact h.voteTerm i T w hw
    · exact le_rfl
  · intro i T w hw
    rcases hcases i T w hw with hw | ⟨-, rfl, rfl⟩
    · exact h.voteStanding i T w hw
    · exact hstand
  · intro i T w hw
    rcases hcases i T w hw with hw | ⟨-, -, rfl⟩
    · exact h.voteUp i T w hw
    · rw [hlog]; exact hup
  · intro i T w hw
    rcases hcases i T w hw with hw | ⟨-, -, rfl⟩
    · exact h.voteMatches i T w hw
    · rw [hlog]; exact h.logMatches j
  · exact fun T c hc => (h.elected T c hc).lasts hext
  · intro i T m k T' w ha hk hT hw
    rcases hcases i T' w hw with hw | ⟨rfl, rfl, rfl⟩
    · exact h.ackVoted i T m k T' w ha hk hT hw
    · rw [hlog]; exact h.ackKept i T m k ha hk

theorem SafeInv.electorate (h : SafeInv q root A) (hc : A.ElectedIn q T c) :
    ∃ Q, q.elect Q ∧ ∀ j ∈ Q, T ≤ A.term j := by
  obtain ⟨Q, hQ, hv⟩ := hc
  refine ⟨Q, hQ, fun j hj => ?_⟩
  obtain ⟨v, hv, _⟩ := hv j hj
  exact h.voteTerm j T v hv

/-- **The up-to-date argument.**  A log that was found at least as up to date as one that holds the
prefix ending in an entry of term `T` holds that prefix, if the later leaders do. -/
theorem LogInv.prefix_of_upToDate (h : LogInv root A) {lv : List E} (hl : Matches A.leaderLog l)
    (hpos : 0 < l.length) (hlv : Matches A.leaderLog lv) (he : (A.leaderLog T)[i]? = some e)
    (ht : termOf e = T) (hp : (A.leaderLog T).take (i + 1) <+: lv)
    (hup : UpToDate (lastTerm l) (l.length - 1) lv)
    (hlater : ∀ x ∈ l, T < termOf x → (A.leaderLog T).take (i + 1) <+: A.leaderLog (termOf x)) :
    (A.leaderLog T).take (i + 1) <+: l := by
  have hei : lv[i]? = some e := take_prefix_getElem? hp (Nat.lt_succ_self i) he
  have hilv := (List.getElem?_eq_some_iff.mp hei).1
  obtain ⟨x, hx⟩ : ∃ x, lv[lv.length - 1]? = some x :=
    ⟨_, List.getElem?_eq_getElem (by omega)⟩
  have hxT : T ≤ termOf x := by
    rw [← ht]; exact (hlv.termSorted h.sorted).le (by omega) hei hx
  have hlast := lastTerm_eq hx
  obtain ⟨y, hy⟩ : ∃ y, l[l.length - 1]? = some y := ⟨_, List.getElem?_eq_getElem (by omega)⟩
  have hlasty := lastTerm_eq hy
  have hyl : l <+: A.leaderLog (termOf y) := by
    have hm := hl _ y hy
    rwa [List.take_of_length_le (by omega)] at hm
  unfold UpToDate at hup
  rw [hlast, hlasty] at hup
  rcases hup with hlt | ⟨heq, hlen⟩
  · -- the last entry is of a later term: its leader holds the prefix, and `l` reaches past it
    have hy' := hlater y (List.mem_of_getElem? hy) (by omega)
    have hey := take_prefix_getElem? hy' (Nat.lt_succ_self i) he
    have hyy := prefix_getElem? hyl hy
    have hil : i < l.length := by
      by_contra hcon
      have hle := (h.sorted (termOf y)).le (by omega) hyy hey
      omega
    apply List.prefix_of_prefix_length_le hy' hyl
    rw [List.length_take]
    omega
  · -- both logs end in one term, so the shorter is a prefix of the longer
    have hxl : lv <+: A.leaderLog (termOf y) := by
      have hm := hlv _ x hx
      rwa [List.take_of_length_le (by omega), heq] at hm
    exact hp.trans (List.prefix_of_prefix_length_le hxl hyl (by omega))

theorem SafeInv.complete_lead (h : SafeInv q root A) (hpos : 0 < A.term c)
    (hnone : A.leaderOf (A.term c) = none) (hel : A.Elected q c) (hT : T < A.term c)
    (he : (A.leaderLog T)[i]? = some e) (ht : termOf e = T) :
    (A.leaderLog T).take (i + 1) <+: A.log c ∨ A.LostBy T i (A.term c - 1) ∨
      ∃ Q, q.elect Q ∧ ∀ j ∈ Q, A.term c ≤ A.term j ∧ ∀ m, i ≤ m → ¬ A.acked j T m := by
  by_cases hlost : A.LostBy T i (A.term c - 1)
  · exact Or.inr (Or.inl hlost)
  obtain ⟨Q, hQ, hv⟩ := hel
  by_cases hack : ∃ j ∈ Q, ∃ m, i ≤ m ∧ A.acked j T m
  · -- a voter acknowledged the prefix, still held it when it voted, and found the candidate fit
    obtain ⟨j, hj, m, him, ha⟩ := hack
    obtain ⟨v, hjv, rfl⟩ := hv j hj
    have hnolater : ∀ U, T < U → U ≤ A.term v.cand → (A.leaderOf U).isSome →
        (A.leaderLog T).take (i + 1) <+: A.leaderLog U := by
      intro U hTU hU hs
      by_contra hno
      have hUne : U ≠ A.term v.cand := by rintro rfl; rw [hnone] at hs; exact absurd hs (by simp)
      exact hlost ⟨U, hTU, by omega, hs, hno⟩
    have hheld : (A.leaderLog T).take (i + 1) <+: v.log := by
      rcases h.ackVoted j T m i _ v ha him hT hjv with hp | ⟨U, hTU, hU, hs, hno⟩
      · exact hp
      · exact absurd (hnolater U hTU hU hs) hno
    have hlast := (h.voteStanding j _ v hjv).2 rfl hnone
    have hup := h.voteUp j _ v hjv
    rw [← hlast.1, ← hlast.2] at hup
    refine Or.inl (h.toLogInv.prefix_of_upToDate (h.logMatches v.cand) ?_ (h.voteMatches j _ v hjv)
      he ht hheld hup ?_)
    · have hr := (h.logRoot v.cand).length_le
      rwa [List.length_singleton] at hr
    · intro x hx hxT
      have hxs : (A.leaderOf (termOf x)).isSome := by
        by_contra hn
        exact h.toLogInv.term_ne_of_vacant (h.logMatches v.cand) (by omega)
          (Option.not_isSome_iff_eq_none.mp hn) x hx rfl
      exact hnolater _ hxT (h.logBound v.cand x hx) hxs
  · obtain ⟨Q', hQ', hterm⟩ := h.electorate (T := A.term c) (c := c) ⟨Q, hQ, hv⟩
    refine Or.inr (Or.inr ⟨Q, hQ, fun j hj => ⟨?_, fun m hm ha => hack ⟨j, hj, m, hm, ha⟩⟩⟩)
    obtain ⟨v, hjv, _⟩ := hv j hj
    exact h.voteTerm j _ v hjv

theorem SafeInv.lead (h : SafeInv q root A) (hpos : 0 < A.term c)
    (hnone : A.leaderOf (A.term c) = none) (hel : A.Elected q c) : SafeInv q root (A.lead c) := by
  have hext : Extends A (A.lead c) :=
    (local_lead h.toLogInv hpos hnone).toExtends
  refine ⟨h.toLogInv.lead hpos hnone, h.voteTerm, ?_, h.voteUp, ?_, ?_, ?_, ?_, ?_, ?_⟩
  · intro j T v hv
    refine (h.voteStanding j T v hv).lasts le_rfl fun _ hn => ⟨?_, rfl⟩
    by_cases hT : T = A.term c
    · subst hT; exact hnone
    · rwa [leaderOf_lead_of_ne hT] at hn
  · exact fun j T v hv => (h.voteMatches j T v hv).mono hext.leaderLog_le
  · intro T d hd
    by_cases hT : T = A.term c
    · subst hT
      simp only [Cluster.lead, update_self, Option.some.injEq] at hd
      subst hd
      exact hel
    · rw [leaderOf_lead_of_ne hT] at hd; exact h.elected T d hd
  · intro j T m ha
    exact ⟨(h.ackTerm j T m ha).1, (h.ackTerm j T m ha).2.trans_le (hext.leaderLog_le T).length_le⟩
  · intro j T m i ha him
    have hlen := (h.ackTerm j T m ha).2
    rw [hext.take_leaderLog (by omega)]
    exact (h.ackKept j T m i ha him).imp_right (LostBy.lasts h.toLogInv hext (by omega))
  · exact fun j T m i T' v ha him hT hv => h.ackVoted_lasts hext ha him hT hv
  · intro T T' i e hs hT he ht
    -- the log a leader starts with has no entry of its own term
    have hTc : T ≠ A.term c := by
      rintro rfl
      rw [leaderLog_lead] at he
      exact h.toLogInv.term_ne_of_vacant (h.logMatches c) hpos hnone e (List.mem_of_getElem? he) ht
    rw [leaderLog_lead_of_ne hTc] at he
    by_cases hT' : T' = A.term c
    · subst hT'
      have hlen := (List.getElem?_eq_some_iff.mp he).1
      rw [leaderLog_lead_of_ne hTc, leaderLog_lead]
      exact (h.complete_lead hpos hnone hel hT he ht).imp_right
        (Or.imp_left (LostBy.lasts h.toLogInv hext hlen))
    · rw [leaderOf_lead_of_ne hT'] at hs
      exact h.complete_lasts hext (fun _ _ _ ha => Or.inl ha) hs hT he ht

theorem SafeInv.append (h : SafeInv q root A) (hl : A.leaderOf (A.term c) = some c)
    (he : termOf e = A.term c) :
    SafeInv q root (A.append c e) := by
  have hext : Extends A (A.append c e) :=
    (local_append hl he).toExtends
  have hlog : A.log c = A.leaderLog (A.term c) := (h.own _ c hl).2 rfl
  have hlogge : ∀ j, A.log j <+: (A.append c e).log j := by
    intro j
    by_cases hj : j = c
    · subst hj; rw [h.log_append hl, hlog]; exact List.prefix_append _ _
    · simp only [Cluster.append, update_of_ne hj]; exact List.prefix_rfl
  refine ⟨h.toLogInv.append hl he, h.voteTerm, ?_, h.voteUp, ?_, ?_, ?_, ?_, ?_, ?_⟩
  · intro j T v hv
    refine (h.voteStanding j T v hv).lasts le_rfl fun ht hn => ⟨hn, ?_⟩
    have hne : v.cand ≠ c := by
      rintro rfl
      have ht' : A.term v.cand = T := ht
      rw [ht'] at hl
      exact absurd (hn.symm.trans hl) (by simp)
    simp only [Cluster.append, update_of_ne hne]
  · exact fun j T v hv => (h.voteMatches j T v hv).mono hext.leaderLog_le
  · exact fun T d hd => (h.elected T d hd).lasts hext
  · rintro j T m (ha | ⟨rfl, rfl, rfl⟩)
    · exact ⟨(h.ackTerm j T m ha).1, (h.ackTerm j T m ha).2.trans_le (hext.leaderLog_le T).length_le⟩
    · refine ⟨le_rfl, ?_⟩
      rw [leaderLog_append, hlog, List.length_append, List.length_singleton]
      omega
  · rintro j T m i (ha | ⟨rfl, rfl, rfl⟩) him
    · have hlen := (h.ackTerm j T m ha).2
      rw [hext.take_leaderLog (by omega)]
      exact (h.ackKept j T m i ha him).imp (fun hp => hp.trans (hlogge j))
        (LostBy.lasts h.toLogInv hext (by omega))
    · rw [leaderLog_append, h.log_append hl]
      exact Or.inl (List.take_prefix _ _)
  · rintro j T m i T' v (ha | ⟨rfl, rfl, rfl⟩) him hT hv
    · exact h.ackVoted_lasts hext ha him hT hv
    · have := h.voteTerm j T' v hv
      omega
  · intro T T' i x hs hT hx ht
    have hnewack : ∀ j U m, (A.append c e).acked j U m → A.acked j U m ∨ U = A.term j := by
      rintro j U m (ha | ⟨rfl, hU, _⟩)
      · exact Or.inl ha
      · exact Or.inr hU
    rcases Nat.lt_or_ge i (A.leaderLog T).length with hi | hi
    · have hx' : (A.leaderLog T)[i]? = some x := by
        have hg := prefix_getElem? (hext.leaderLog_le T) (List.getElem?_eq_getElem hi)
        rw [hx] at hg
        rw [List.getElem?_eq_getElem hi, Option.some.inj hg]
      exact h.complete_lasts hext hnewack hs hT hx' ht
    · -- the entry is the new one: the electorate of a later leader cannot have acknowledged it
      obtain ⟨d, hd⟩ := Option.isSome_iff_exists.mp hs
      obtain ⟨Q, hQ, hterm⟩ := h.electorate (h.elected T' d hd)
      refine Or.inr (Or.inr ⟨Q, hQ, fun j hj => ⟨hterm j hj, fun m hm ha => ?_⟩⟩)
      rcases hnewack j T m ha with ha | hTj
      · have := (h.ackTerm j T m ha).2
        omega
      · have := hterm j hj
        omega

theorem SafeInv.setLog (h : SafeInv q root A) (hl : A.leaderOf (A.term j) = some c) (hc : c ≠ j)
    (hinv : LogInv root (A.setLog j l))
    (hkeep : ∀ p, p <+: A.leaderLog (A.term j) → p <+: A.log j → p <+: l) :
    SafeInv q root (A.setLog j l) := by
  refine ⟨hinv, h.voteTerm, ?_, h.voteUp, h.voteMatches, h.elected, h.ackTerm, ?_, h.ackVoted,
    h.complete⟩
  · intro i T v hv
    refine (h.voteStanding i T v hv).lasts le_rfl fun ht hn => ⟨hn, ?_⟩
    have hne : v.cand ≠ j := by
      rintro rfl
      have ht' : A.term v.cand = T := ht
      rw [ht'] at hl
      exact absurd (hn.symm.trans hl) (by simp)
    simp only [Cluster.setLog, update_of_ne hne]
  · intro i T m k ha hk
    by_cases hij : i = j
    · subst hij
      rcases h.ackKept i T m k ha hk with hp | hlost
      · by_cases hlead : (A.leaderLog T).take (k + 1) <+: A.leaderLog (A.term i)
        · refine Or.inl ?_
          simp only [Cluster.setLog, update_self]
          exact hkeep _ hlead hp
        · have hT := (h.ackTerm i T m ha).1
          have hTne : T ≠ A.term i := by
            rintro rfl; exact hlead (List.take_prefix _ _)
          exact Or.inr ⟨A.term i, by omega, le_rfl, by
            rw [show (A.setLog i l).leaderOf = A.leaderOf from rfl, hl]; rfl, hlead⟩
      · exact Or.inr hlost
    · simp only [Cluster.setLog, update_of_ne hij]
      exact h.ackKept i T m k ha hk

theorem SafeInv.ack (h : SafeInv q root A) {m : Nat} (hlen : m < (A.leaderLog (A.term j)).length)
    (hheld : (A.leaderLog (A.term j)).take (m + 1) <+: A.log j) : SafeInv q root (A.ack j m) := by
  refine ⟨h.toLogInv.ack j m, h.voteTerm, h.voteStanding, h.voteUp, h.voteMatches, h.elected, ?_, ?_,
    ?_, ?_⟩
  · rintro i T k (ha | ⟨rfl, rfl, rfl⟩)
    · exact h.ackTerm i T k ha
    · exact ⟨le_rfl, hlen⟩
  · rintro i T k n (ha | ⟨rfl, rfl, rfl⟩) hn
    · exact h.ackKept i T k n ha hn
    · exact Or.inl (take_prefix_le hheld (by omega))
  · rintro i T k n T' v (ha | ⟨rfl, rfl, rfl⟩) hn hT hv
    · exact h.ackVoted i T k n T' v ha hn hT hv
    · have := h.voteTerm i T' v hv
      omega
  · intro T T' i e hs hT he ht
    refine h.complete_lasts (local_ack j j m).toExtends ?_ hs hT he ht
    rintro i U k (ha | ⟨rfl, hU, _⟩)
    · exact Or.inl ha
    · exact Or.inr hU

theorem SafeInv.step {i : Node} (h : SafeInv q root A) (hs : Step (Elected q) i A A') :
    SafeInv q root A' := by
  have hlog := h.toLogInv.step hs
  cases hs with
  | bump hT => exact h.bump hT
  | vote hfresh hvl hup hstand => exact h.castVote hfresh hvl hup hstand
  | lead hpos hnone hel => exact h.lead hpos hnone hel
  | append hl he => exact h.append hl he
  | @accept _ _ c k l hl hc hk hlen hg =>
    have hset : SafeInv q root (A.setLog i l) := by
      refine h.setLog hl hc ?_ fun p hpl hpj => hg.keeps hpl hpj
      obtain ⟨hm, hb, hr⟩ := h.toLogInv.grafted hl hk hg
      exact h.toLogInv.setLog (by rw [hl]; exact fun he => hc (Option.some.inj he)) hm hb hr
    refine hset.ack ?_ ?_
    · change k - 1 < (A.leaderLog (A.term i)).length
      omega
    · simp only [Cluster.setLog, update_self]
      rw [Nat.sub_add_cancel hk]
      exact hg.holds
  | truncate hl hc hj hll hne =>
    exact h.setLog hl hc hlog fun p hpl hpj =>
      prefix_take_of_ne hpj hpl hj hll fun he => hne (by rw [he])

theorem SafeInv.steps {i : Node} (h : SafeInv q root A) (hs : Steps (Elected q) i A A') :
    SafeInv q root A' := by
  induction hs with
  | refl => exact h
  | tail _ hlast ih => exact ih.step hlast

/-! ## 3. Leader completeness -/

/-- **Leader completeness.**  Every later leader holds what was committed, by induction on its term:
the electorate meets the commit quorum, and no leader in between lost the prefix. -/
theorem SafeInv.leader_complete (h : SafeInv q root A) (hc : A.Committed q T i) :
    ∀ T', T < T' → (A.leaderOf T').isSome → (A.leaderLog T).take (i + 1) <+: A.leaderLog T' := by
  obtain ⟨⟨Q, hQ, hack⟩, e, he, ht⟩ := hc
  intro T'
  induction T' using Nat.strong_induction_on with
  | h T' ih =>
    intro hT hs
    rcases h.complete T T' i e hs hT he ht with hp | ⟨U, hTU, hU, hUs, hno⟩ | ⟨Q', hQ', hno⟩
    · exact hp
    · exact absurd (ih U (by omega) hTU hUs) hno
    · obtain ⟨j, hj', hj⟩ := q.commit_meets Q' Q hQ' hQ
      obtain ⟨m, hm, ha⟩ := hack j hj
      exact absurd ha ((hno j hj').2 m hm)

theorem SafeInv.committed_led (h : SafeInv q root A) (hc : A.Committed q T i) (hT : 0 < T) :
    (A.leaderOf T).isSome := by
  obtain ⟨_, e, he, _⟩ := hc
  by_contra hn
  rw [h.vacant T hT (Option.not_isSome_iff_eq_none.mp hn)] at he
  simp at he

theorem SafeInv.committed_agree (h : SafeInv q root A) {i' k : Nat} (hc : A.Committed q T i)
    (hc' : A.Committed q T' i') (hk : k ≤ i) (hk' : k ≤ i') :
    (A.leaderLog T).take (k + 1) = (A.leaderLog T').take (k + 1) := by
  have hle : ∀ {U U' u u' : Nat}, A.Committed q U u → A.Committed q U' u' → k ≤ u → U ≤ U' →
      (A.leaderLog U).take (k + 1) = (A.leaderLog U').take (k + 1) := by
    intro U U' u u' hu hu' hku hUU'
    rcases Nat.eq_or_lt_of_le hUU' with rfl | hlt
    · rfl
    · have hp := h.leader_complete hu U' hlt (h.committed_led hu' (by omega))
      obtain ⟨_, e, he, _⟩ := hu
      have hlen := (List.getElem?_eq_some_iff.mp he).1
      have heq := take_eq_take_left (take_prefix_le hp (by omega : k + 1 ≤ u + 1)) (k := k + 1)
        (by rw [List.length_take]; omega)
      rw [heq, List.take_take, min_self]
  rcases Nat.le_total T T' with hT | hT
  · exact hle hc hc' hk hT
  · exact (hle hc' hc hk' hT).symm

/-! ## 4. What a node may apply -/

/-- The entry `e` at index `i` lies in a committed prefix. -/
def Chosen (q : Quorums Node) (A : Cluster Node E) (i : Nat) (e : E) : Prop :=
  ∃ U k, A.Committed q U k ∧ i ≤ k ∧ (A.leaderLog U)[i]? = some e

theorem Chosen.lasts (hext : Extends A A') (h : A.Chosen q i e) : A'.Chosen q i e := by
  obtain ⟨U, k, hc, hk, he⟩ := h
  exact ⟨U, k, hc.lasts hext, hk, prefix_getElem? (hext.leaderLog_le U) he⟩

theorem SafeInv.chosen_unique (h : SafeInv q root A) {e' : E} (hc : A.Chosen q i e)
    (hc' : A.Chosen q i e') : e = e' := by
  obtain ⟨U, k, hU, hk, he⟩ := hc
  obtain ⟨U', k', hU', hk', he'⟩ := hc'
  have heq := congrArg (fun l => l[i]?) (h.committed_agree hU hU' hk hk')
  simp only [List.getElem?_take_of_lt (Nat.lt_succ_self i)] at heq
  rw [he, he'] at heq
  exact Option.some.inj heq

/-- The entries `1..c` of the log `l` are committed, by terms up to `T`. -/
def Settled (q : Quorums Node) (A : Cluster Node E) (T : Nat) (l : List E) (c : Nat) : Prop :=
  c = 0 ∨ ∃ U k, A.Committed q U k ∧ c ≤ k ∧ U ≤ T ∧ (A.leaderLog U).take (c + 1) <+: l

theorem Committed.lt_length (h : A.Committed q T i) : i < (A.leaderLog T).length := by
  obtain ⟨_, e, he, _⟩ := h
  exact (List.getElem?_eq_some_iff.mp he).1

theorem Settled.lasts (hext : Extends A A') {c : Nat} (hT : T ≤ T') (hl : l <+: l')
    (h : A.Settled q T l c) : A'.Settled q T' l' c := by
  rcases h with h | ⟨U, k, hc, hk, hU, hp⟩
  · exact Or.inl h
  · have hlen := hc.lt_length
    refine Or.inr ⟨U, k, hc.lasts hext, hk, hU.trans hT, ?_⟩
    rw [hext.take_leaderLog (by omega)]
    exact hp.trans hl

theorem Settled.lt_length {c : Nat} (h : A.Settled q T l c) (hl : 0 < l.length) : c < l.length := by
  rcases h with h | ⟨U, k, hc, hk, _, hp⟩
  · omega
  · have hlen := hc.lt_length
    have hle := hp.length_le
    rw [List.length_take] at hle
    omega

theorem Settled.restrict {c k : Nat} (h : A.Settled q T l c) (hk : c < k) (hl : l.take k <+: l') :
    A.Settled q T l' c := by
  rcases h with h | ⟨U, m, hc, hm, hU, hp⟩
  · exact Or.inl h
  · refine Or.inr ⟨U, m, hc, hm, hU, List.IsPrefix.trans ?_ hl⟩
    have hlen := hc.lt_length
    apply List.prefix_of_prefix_length_le hp (List.take_prefix k l)
    have hle := hp.length_le
    rw [List.length_take] at hle ⊢
    rw [List.length_take]
    omega

theorem SafeInv.settled_leader (h : SafeInv q root A) {c : Nat} (hs : A.Settled q T l c)
    (hl : (A.leaderOf T).isSome) (hkeep : ∀ p, p <+: A.leaderLog T → p <+: l → p <+: l') :
    A.Settled q T l' c := by
  rcases hs with hs | ⟨U, k, hc, hk, hU, hp⟩
  · exact Or.inl hs
  · refine Or.inr ⟨U, k, hc, hk, hU, hkeep _ ?_ hp⟩
    rcases Nat.eq_or_lt_of_le hU with rfl | hlt
    · exact List.take_prefix _ _
    · exact take_prefix_le (h.leader_complete hc T hlt hl) (by omega)

theorem Settled.chosen {c : Nat} (h : A.Settled q T l c) (hi : 0 < i) (hic : i ≤ c)
    (he : l[i]? = some e) : A.Chosen q i e := by
  rcases h with h | ⟨U, k, hc, hk, _, hp⟩
  · omega
  · have hlen := hc.lt_length
    have hget : (A.leaderLog U)[i]? = some (A.leaderLog U)[i] :=
      List.getElem?_eq_getElem (by omega)
    have hl := take_prefix_getElem? hp (by omega) hget
    rw [he] at hl
    exact ⟨U, k, hc, by omega, hget.trans hl.symm⟩

end Cluster

end ReplicatedLog
