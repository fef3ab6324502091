import DistributedSystems.Raft.Persistence

/-!
# Elections

A leader has been voted for, in its term, by a majority of the peers; a peer votes once in a term, so
a term has one leader.  Three slips of the code break the first half, and are named here.  The logs
play no part.
-/

namespace Raft

open Function Transition

variable {n : Nat} {Cmd : Type}

/-! ## 1. Majorities -/

theorem exists_mem_of_card_lt {Q Q' : Finset (Fin n)} (h : n < Q.card + Q'.card) :
    ∃ j ∈ Q, j ∈ Q' := by
  have hunion : (Q ∪ Q').card ≤ n := by
    have hle := Finset.card_le_univ (Q ∪ Q')
    rwa [Fintype.card_fin] at hle
  have hsum := Finset.card_union_add_card_inter Q Q'
  have hpos : 0 < (Q ∩ Q').card := by omega
  obtain ⟨j, hj⟩ := Finset.card_pos.mp hpos
  exact ⟨j, (Finset.mem_inter.mp hj).1, (Finset.mem_inter.mp hj).2⟩

/-! ## 1. Lists -/

theorem filterMap_set_sublist {α β : Type} {f : α → Option β} {b : α} :
    ∀ {l : List α} {t : Nat} {a : α}, l[t]? = some a → (f b = f a ∨ f b = none) →
      List.Sublist ((l.set t b).filterMap f) (l.filterMap f) := by
  intro l
  induction l with
  | nil =>
    intro t a h _
    simp at h
  | cons x l ih =>
    intro t a h hb
    cases t with
    | zero =>
      simp only [List.getElem?_cons_zero, Option.some.injEq] at h
      subst h
      rw [List.set_cons_zero, List.filterMap_cons, List.filterMap_cons]
      rcases hb with hb | hb
      · rw [hb]
      · rw [hb]
        cases f x with
        | none => exact List.Sublist.refl _
        | some y => exact List.sublist_cons_self y _
    | succ t =>
      rw [List.getElem?_cons_succ] at h
      rw [List.set_cons_succ, List.filterMap_cons, List.filterMap_cons]
      cases f x with
      | none => exact ih h hb
      | some y => exact (ih h hb).cons_cons y

theorem eq_of_filterMap_nodup {α β : Type} {f : α → Option β} {b : β} :
    ∀ {l : List α}, (l.filterMap f).Nodup → ∀ x ∈ l, ∀ y ∈ l, f x = some b → f y = some b →
      x = y := by
  intro l
  induction l with
  | nil =>
    intro _ x hx
    exact absurd hx List.not_mem_nil
  | cons a l ih =>
    intro hnd x hx y hy hfx hfy
    rw [List.filterMap_cons] at hnd
    have hmem : ∀ z ∈ l, f z = some b → b ∈ l.filterMap f :=
      fun z hz hf => List.mem_filterMap.mpr ⟨z, hz, hf⟩
    have htail : (l.filterMap f).Nodup := by
      cases hfa : f a with
      | none => rwa [hfa] at hnd
      | some c =>
        rw [hfa] at hnd
        exact (List.nodup_cons.mp hnd).2
    have hhead : f a = some b → ∀ z ∈ l, f z ≠ some b := by
      intro hfa z hz hfz
      rw [hfa] at hnd
      exact (List.nodup_cons.mp hnd).1 (hmem z hz hfz)
    rcases List.mem_cons.mp hx with rfl | hx'
    · rcases List.mem_cons.mp hy with rfl | hy'
      · rfl
      · exact absurd hfy (hhead hfx y hy')
    · rcases List.mem_cons.mp hy with rfl | hy'
      · exact absurd hfx (hhead hfy x hx')
      · exact ih htail x hx' y hy' hfx hfy

namespace Sys

variable {past : List (Sys n Cmd × Action n Cmd)} {s s' : Sys n Cmd} {a : Action n Cmd}
  {th : Thread n Cmd} {i j : Fin n} {t e T : Nat} {el : Election n} {rf' : Server n Cmd}

/-- A majority of the peers voted for `i` in term `T`. -/
def Won (past : List (Sys n Cmd × Action n Cmd)) (i : Fin n) (T : Nat) : Prop :=
  ∃ Q : Finset (Fin n), Server.majority n ≤ Q.card ∧ ∀ j ∈ Q, Cast past j T i

theorem Won.next (h : Won past i T) (x : Sys n Cmd × Action n Cmd) : Won (x :: past) i T := by
  obtain ⟨Q, hQ, hj⟩ := h
  exact ⟨Q, hQ, fun j hjQ => (hj j hjQ).next x⟩

theorem Won.unique (hr : Run past s) (hq : ∀ x ∈ past, x.1.losesQuorum x.2 = false)
    (hi : Won past i T) (hj : Won past j T) : i = j := by
  obtain ⟨Q, hQ, hQi⟩ := hi
  obtain ⟨Q', hQ', hQj⟩ := hj
  have hcard : n < Q.card + Q'.card := by
    unfold Server.majority at hQ hQ'
    omega
  obtain ⟨v, hv, hv'⟩ := exists_mem_of_card_lt hcard
  exact Cast.unique hr hq (hQi v hv) (hQj v hv')

/-- The action opens a new term for a peer that has just become the leader of the present one. -/
def launchesAsLeader (s : Sys n Cmd) : Action n Cmd → Bool
  | .launch i _ => (s.rafts i).identity = .leader
  | _ => false

/-- The action completes a majority in another term than the election was launched in. -/
def countsLate (s : Sys n Cmd) : Action n Cmd → Bool
  | .run t =>
    match s.threads[t]? with
    | some ⟨owner, _, _, .voteArrived e _ reply⟩ =>
      match s.elections[e]? with
      | some el =>
        decide (reply.term ≤ (s.rafts owner).currentTerm ∧ reply.voteGranted = true ∧
          Server.majority n ≤ el.nvotes + 1 ∧ el.term ≠ (s.rafts owner).currentTerm)
      | none => false
    | _ => false
  | _ => false

/-- No leader is deposed without a new term, no leader launches an election, and a majority is
completed only in the term of its election. -/
def orderly (s : Sys n Cmd) (a : Action n Cmd) : Bool :=
  !s.losesQuorum a && !s.launchesAsLeader a && !s.countsLate a

/-! ## 2. The tallies -/

/-- The goroutine asks on behalf of an election that was launched in a term up to `T`, which its
owner has entered. -/
def Stands (s : Sys n Cmd) (e : Nat) (th : Thread n Cmd) (T : Nat) : Prop :=
  th.peer ≠ th.owner ∧ T ≤ (s.rafts th.owner).currentTerm ∧
    ∃ el, s.elections[e]? = some el ∧ el.owner = th.owner ∧ 0 < el.term ∧ el.term ≤ T

def BallotOK (past : List (Sys n Cmd × Action n Cmd)) (s : Sys n Cmd) (th : Thread n Cmd) : Prop :=
  match th.job with
  | .voteReady e => ∃ T, s.Stands e th T
  | .voteSent e args => s.Stands e th args.term ∧ args.candidateId = th.owner
  | .voteReplied e args reply =>
    s.Stands e th args.term ∧ (reply.voteGranted = true → Cast past th.peer args.term th.owner)
  | .voteArrived e args reply =>
    s.Stands e th args.term ∧ (reply.voteGranted = true → Cast past th.peer args.term th.owner)
  | .voteCounted e => ∃ T, s.Stands e th T
  | _ => True

/-- The votes an election has counted are those of its owner and of peers whose goroutine is through,
given in a term between then and now. -/
def ElectionOK (past : List (Sys n Cmd × Action n Cmd)) (s : Sys n Cmd) (e : Nat)
    (el : Election n) : Prop :=
  ∃ S : Finset (Fin n), el.nvotes ≤ S.card ∧ ∀ j ∈ S,
    (∃ T, el.term ≤ T ∧ T ≤ (s.rafts el.owner).currentTerm ∧ Cast past j T el.owner) ∧
    (j = el.owner ∨ ∃ th ∈ s.threads, th.job = .voteCounted e ∧ th.peer = j)

structure Tallies (past : List (Sys n Cmd × Action n Cmd)) (s : Sys n Cmd) : Prop where
  threads : ∀ th ∈ s.threads, BallotOK past s th
  ballots : (s.threads.filterMap Thread.ballot).Nodup
  elections : ∀ e el, s.elections[e]? = some el → ElectionOK past s e el

theorem BallotOK.stands (h : BallotOK past s th) {b : Nat × Fin n} (hb : th.ballot = some b) :
    ∃ T, s.Stands b.1 th T := by
  unfold BallotOK at h
  unfold Thread.ballot at hb
  split at hb
  case h_6 => cases hb
  all_goals
    rename_i hj
    rw [hj] at h
    cases hb
  · exact h
  · exact ⟨_, h.1⟩
  · exact ⟨_, h.1⟩
  · exact ⟨_, h.1⟩
  · exact h

/-! ## 3. What a step keeps of them -/

/-- Elections keep their owner and their term. -/
def Kept (els els' : List (Election n)) : Prop :=
  ∀ (e : Nat) (el : Election n), els[e]? = some el →
    ∃ el' : Election n, els'[e]? = some el' ∧ el'.owner = el.owner ∧ el'.term = el.term

/-- `s'` is a later state, as far as terms and elections go. -/
structure Later (s s' : Sys n Cmd) : Prop where
  terms : ∀ i, (s.rafts i).currentTerm ≤ (s'.rafts i).currentTerm
  kept : Kept s.elections s'.elections

theorem Stands.later (hl : Later s s') (h : s.Stands e th T) : s'.Stands e th T := by
  obtain ⟨hp, hT, el, he, ho, h0, ht⟩ := h
  obtain ⟨el', he', ho', ht'⟩ := hl.kept e el he
  exact ⟨hp, hT.trans (hl.terms _), el', he', ho'.trans ho, by omega, by omega⟩

theorem BallotOK.later (hl : Later s s') (h : BallotOK past s th) :
    BallotOK ((s, a) :: past) s' th := by
  unfold BallotOK at h ⊢
  split at h
  · obtain ⟨T, hT⟩ := h
    exact ⟨T, hT.later hl⟩
  · exact ⟨h.1.later hl, h.2⟩
  · exact ⟨h.1.later hl, fun hg => (h.2 hg).next _⟩
  · exact ⟨h.1.later hl, fun hg => (h.2 hg).next _⟩
  · obtain ⟨T, hT⟩ := h
    exact ⟨T, hT.later hl⟩
  · trivial

theorem ElectionOK.later (hterms : ∀ i, (s.rafts i).currentTerm ≤ (s'.rafts i).currentTerm)
    (hcounted : ∀ th ∈ s.threads, th.job = .voteCounted e →
      ∃ th' ∈ s'.threads, th'.job = .voteCounted e ∧ th'.peer = th.peer)
    (h : ElectionOK past s e el) : ElectionOK ((s, a) :: past) s' e el := by
  obtain ⟨S, hS, hj⟩ := h
  refine ⟨S, hS, fun j hjS => ?_⟩
  obtain ⟨⟨T, h1, h2, h3⟩, hc⟩ := hj j hjS
  refine ⟨⟨T, h1, h2.trans (hterms _), h3.next _⟩, hc.imp_right ?_⟩
  rintro ⟨th, hth, hjob, rfl⟩
  exact hcounted th hth hjob

theorem act_terms (hr : Run past s) (h : s.act a = some s') (i : Fin n) :
    (s.rafts i).currentTerm ≤ (s'.rafts i).currentTerm :=
  (act_moves h i).currentTerm_le (run_persisted hr i).2

/-- One step of one goroutine. -/
theorem Goes.ballotOK (hr : Run past s) (h : Tallies past s) (hact : s.act a = some s')
    (hl : Later s s') (hg : s.Goes a th) : BallotOK ((s, a) :: past) s' th := by
  have hold : ∀ x ∈ s.threads, BallotOK past s x := h.threads
  cases hg with
  | @stays th hth alive => exact (hold th hth).later hl
  | ends => trivial
  | @stands i j rnd ha hne =>
    subst ha
    simp only [act] at hact
    split at hact
    · cases hact
    · cases hact
      refine ⟨(s.rafts i).currentTerm + 1, hne, ?_, ⟨i, _, 1, false⟩, List.getElem?_concat_length,
        rfl, Nat.succ_pos _, le_rfl⟩
      show _ ≤ (update s.rafts i _ i).currentTerm
      rw [update_self]
      exact le_rfl
  | @asks th e hth hj =>
    have hok := hold th hth
    unfold BallotOK at hok
    rw [hj] at hok
    obtain ⟨T, hne, hT, el, he, ho, h0, ht⟩ := hok
    have hterm : (s.rafts th.owner).voteArgs.term = (s.rafts th.owner).currentTerm := by
      unfold Server.voteArgs
      split <;> rfl
    refine ⟨Stands.later hl ⟨hne, hterm.le, el, he, ho, h0, by omega⟩, ?_⟩
    unfold Server.voteArgs
    split <;> exact (run_persisted hr th.owner).1
  | @answers t rnd e th args r ha ht hj hv =>
    subst ha
    have hok := hold th (List.mem_of_getElem? ht)
    unfold BallotOK at hok
    rw [hj] at hok
    refine ⟨hok.1.later hl, fun hg => ⟨_, List.mem_cons_self, ?_⟩⟩
    obtain ⟨owner, peer, alive, job⟩ := th
    obtain ⟨rf, reply⟩ := r
    simp only at hj hg
    subst hj
    have hterm : rf.currentTerm = args.term := by
      cases Server.requestVote_outcome hv with
      | stale _ => cases hg
      | refused _ => cases hg
      | granted hle _ _ => exact Server.enterTerm_currentTerm hle
    simp only [votesCast, ht, hv, hg, if_true]
    rw [hterm, hok.2]
    exact List.mem_singleton_self _
  | @arrives th e args reply hth hj =>
    have hok := (hold th hth).later (a := a) hl
    unfold BallotOK at hok
    rw [hj] at hok
    exact hok
  | @counts th e args reply hth hj =>
    have hok := (hold th hth).later (a := a) hl
    unfold BallotOK at hok
    rw [hj] at hok
    exact ⟨_, hok.1⟩
  | leads => trivial
  | replicates => trivial
  | again => trivial
  | sends => trivial
  | encodes => trivial
  | sent => trivial
  | replies => trivial
  | beats => trivial
  | heartbeats => trivial
  | beaten => trivial

/-- The elections and the ballots in circulation are as before, some ballots may be gone. -/
structure Quiet (s s' : Sys n Cmd) : Prop where
  elections : s'.elections = s.elections
  ballots : List.Sublist (s'.threads.filterMap Thread.ballot) (s.threads.filterMap Thread.ballot)
  counted : ∀ th ∈ s.threads, ∀ e, th.job = .voteCounted e →
    ∃ th' ∈ s'.threads, th'.job = .voteCounted e ∧ th'.peer = th.peer

theorem Quiet.same (hel : s'.elections = s.elections) (hths : s'.threads = s.threads) :
    Quiet s s' := by
  refine ⟨hel, ?_, fun th hth e hj => ⟨th, ?_, hj, rfl⟩⟩
  · rw [hths]
  · rw [hths]
    exact hth

theorem mem_set_of_counted {ths : List (Thread n Cmd)} {th' x : Thread n Cmd}
    (ht : ths[t]? = some th) (hnc : ∀ e, th.job ≠ .voteCounted e) (hx : x ∈ ths)
    (hjob : x.job = .voteCounted e) : x ∈ ths.set t th' := by
  obtain ⟨k, hk⟩ := List.getElem?_of_mem hx
  have hkt : t ≠ k := by
    rintro rfl
    rw [ht] at hk
    rw [Option.some.inj hk] at hnc
    exact hnc e hjob
  apply List.mem_of_getElem? (i := k)
  rw [List.getElem?_set_ne hkt, hk]

theorem Quiet.set {x : Thread n Cmd} (ht : s.threads[t]? = some th)
    (hb : x.ballot = th.ballot ∨ x.ballot = none) (hnc : ∀ e, th.job ≠ .voteCounted e)
    (hel : s'.elections = s.elections) (hths : s'.threads = s.threads.set t x) : Quiet s s' := by
  refine ⟨hel, ?_, fun y hy e hj => ⟨y, ?_, hj, rfl⟩⟩
  · rw [hths]
    exact filterMap_set_sublist ht hb
  · rw [hths]
    exact mem_set_of_counted ht hnc hy hj

theorem Quiet.spawn (h : Quiet s s') {ths : List (Thread n Cmd)}
    (hidle : ∀ x ∈ ths, x.ballot = none) : Quiet s (s'.spawn ths) := by
  refine ⟨h.elections, ?_, fun th hth e hj => ?_⟩
  · show List.Sublist ((s'.threads ++ ths).filterMap _) _
    rw [List.filterMap_append, List.filterMap_eq_nil_iff.mpr hidle, List.append_nil]
    exact h.ballots
  · obtain ⟨y, hy, hyj⟩ := h.counted th hth e hj
    exact ⟨y, List.mem_append_left _ hy, hyj⟩

theorem forPeers_idle {job : Job n Cmd} (hjob : ∀ j, (⟨i, j, true, job⟩ : Thread n Cmd).ballot = none) :
    ∀ x ∈ forPeers i job, x.ballot = none := by
  intro x hx
  obtain ⟨j, _, rfl⟩ := mem_forPeers hx
  exact hjob j

theorem runThread_quiet (ht : s.threads[t]? = some th) (h : s.runThread t th = some s') :
    Quiet s s' ∨ ∃ e args reply, th.job = .voteArrived e args reply ∧
      s.countVote t e th reply = some s' := by
  unfold runThread at h
  split at h
  · rename_i e hj
    cases h
    refine Or.inl (.set ht (Or.inl ?_) (by rw [hj]; exact fun _ h => by cases h) rfl rfl)
    rw [Thread.ballot, Thread.ballot, hj]
  · rename_i e args reply hj
    obtain ⟨el, _, rfl⟩ := Option.map_eq_some_iff.mp h
    refine Or.inl (.set ht ?_ (by rw [hj]; exact fun _ h => by cases h) rfl rfl)
    cases el.stopped with
    | true => exact Or.inr rfl
    | false =>
      refine Or.inl ?_
      rw [Thread.ballot, Thread.ballot, hj]
      rfl
  · rename_i e args reply hj
    exact Or.inr ⟨e, args, reply, hj, h⟩
  · rename_i hj
    have hnc : ∀ e, th.job ≠ .voteCounted e := by rw [hj]; exact fun _ h => by cases h
    unfold replicateTop at h
    dsimp only at h
    split at h
    · cases h
      exact Or.inl (.set ht (Or.inr rfl) hnc rfl rfl)
    · obtain ⟨args?, _, rfl⟩ := Option.map_eq_some_iff.mp h
      cases args? <;> exact Or.inl (.set ht (Or.inr rfl) hnc rfl rfl)
  · rename_i hj
    have hnc : ∀ e, th.job ≠ .voteCounted e := by rw [hj]; exact fun _ h => by cases h
    cases h
    unfold encode
    split <;> exact Or.inl (.set ht (Or.inr rfl) hnc rfl rfl)
  · rename_i hj
    obtain ⟨r, _, rfl⟩ := Option.map_eq_some_iff.mp h
    refine Or.inl (.set ht (Or.inr ?_) (by rw [hj]; exact fun _ h => by cases h) rfl rfl)
    cases r.2.2 <;> rfl
  · rename_i hj
    cases h
    unfold heartbeatLoop
    split
    · exact Or.inl (.set ht (Or.inr rfl) (by rw [hj]; exact fun _ h => by cases h) rfl rfl)
    · refine Or.inl (Quiet.spawn ?_ (forPeers_idle fun _ => rfl))
      exact .same rfl rfl
  · rename_i hj
    have hnc : ∀ e, th.job ≠ .voteCounted e := by rw [hj]; exact fun _ h => by cases h
    unfold heartbeatReady at h
    split at h
    · cases h
      exact Or.inl (.set ht (Or.inr rfl) hnc rfl rfl)
    · obtain ⟨args, _, rfl⟩ := Option.map_eq_some_iff.mp h
      exact Or.inl (.set ht (Or.inr rfl) hnc rfl rfl)
  · rename_i hj
    have hnc : ∀ e, th.job ≠ .voteCounted e := by rw [hj]; exact fun _ h => by cases h
    cases h
    unfold heartbeatReply
    dsimp only
    split
    · exact Or.inl (.set ht (Or.inr rfl) hnc rfl rfl)
    · split <;> exact Or.inl (.set ht (Or.inr rfl) hnc rfl rfl)
  · cases h

theorem deliver_quiet (ht : s.threads[t]? = some th) {rnd : Nat}
    (h : s.deliver t th rnd = some s') : Quiet s s' := by
  unfold deliver at h
  dsimp only at h
  split at h
  · cases h
  · split at h
    · rename_i hj
      obtain ⟨r, _, rfl⟩ := Option.map_eq_some_iff.mp h
      refine .set ht (Or.inl ?_) (by rw [hj]; exact fun _ h => by cases h) rfl rfl
      rw [Thread.ballot, Thread.ballot, hj]
    · rename_i hj
      obtain ⟨r, _, rfl⟩ := Option.map_eq_some_iff.mp h
      exact .set ht (Or.inr rfl) (by rw [hj]; exact fun _ h => by cases h) rfl rfl
    · rename_i hj
      obtain ⟨r, _, rfl⟩ := Option.map_eq_some_iff.mp h
      exact .set ht (Or.inr rfl) (by rw [hj]; exact fun _ h => by cases h) rfl rfl
    · cases h

theorem fail_quiet (ht : s.threads[t]? = some th) (h : s.fail t th = some s') : Quiet s s' := by
  have hset : (∀ e, th.job ≠ .voteCounted e) → Quiet s (s.setThread t { th with alive := false }) :=
    fun hnc => .set (x := { th with alive := false }) ht (Or.inl rfl) hnc rfl rfl
  have hagain : (∀ e, th.job ≠ .voteCounted e) → Quiet s ((s.setThread t
      { th with alive := false }).spawn [⟨th.owner, th.peer, true, .replicateTop⟩]) :=
    fun hnc => (hset hnc).spawn fun x hx => by rw [List.mem_singleton.mp hx]; rfl
  unfold fail at h
  split at h
  case h_7 => cases h
  all_goals
    rename_i hj
    have hnc : ∀ e, th.job ≠ .voteCounted e := by rw [hj]; exact fun _ h => by cases h
    cases h
    first | exact hset hnc | exact hagain hnc

/-- Only `launch_election` and the counting of a vote touch the elections. -/
theorem act_quiet (h : s.act a = some s') :
    Quiet s s' ∨ (∃ i rnd, a = .launch i rnd ∧ s' = s.launch i rnd) ∨
      ∃ t th e args reply, a = .run t ∧ s.threads[t]? = some th ∧
        th.job = .voteArrived e args reply ∧ s.countVote t e th reply = some s' := by
  cases a with
  | elapse d =>
    cases h
    exact Or.inl (.same rfl rfl)
  | tick i rnd =>
    simp only [act] at h
    split at h
    · cases h
    · cases h
      exact Or.inl (.same rfl rfl)
  | launch i rnd =>
    simp only [act] at h
    split at h
    · cases h
    · cases h
      exact Or.inr (Or.inl ⟨i, rnd, rfl, rfl⟩)
  | deliver t rnd =>
    simp only [act] at h
    split at h
    · cases h
    · rename_i ht
      exact Or.inl (deliver_quiet ht h)
  | run t =>
    simp only [act] at h
    split at h
    · cases h
    · rename_i ht
      split at h
      · rcases runThread_quiet ht h with hq | ⟨e, args, reply, hj, hc⟩
        · exact Or.inl hq
        · exact Or.inr (Or.inr ⟨t, _, e, args, reply, rfl, ht, hj, hc⟩)
      · cases h
  | fail t =>
    simp only [act] at h
    split at h
    · cases h
    · rename_i ht
      split at h
      · exact Or.inl (fail_quiet ht h)
      · cases h
  | start i command =>
    simp only [act] at h
    split at h
    · cases h
    · cases h
      unfold start
      split
      · exact Or.inl (.same rfl rfl)
      · refine Or.inl (Quiet.spawn ?_ (forPeers_idle fun _ => rfl))
        exact .same rfl rfl
  | crash i =>
    simp only [act] at h
    split at h
    · cases h
    · cases h
      have hstop : ∀ x : Thread n Cmd, (if x.owner = i then { x with alive := false } else x).ballot =
          x.ballot ∧ (if x.owner = i then { x with alive := false } else x).job = x.job ∧
          (if x.owner = i then { x with alive := false } else x).peer = x.peer := by
        intro x
        split <;> exact ⟨rfl, rfl, rfl⟩
      refine Or.inl ⟨rfl, ?_, fun th hth e hj =>
        ⟨_, List.mem_map_of_mem hth, (hstop th).2.1.trans hj, (hstop th).2.2⟩⟩
      show List.Sublist ((s.threads.map _).filterMap _) _
      rw [List.filterMap_map, show Thread.ballot ∘ (fun x : Thread n Cmd =>
        if x.owner = i then { x with alive := false } else x) = Thread.ballot from
        funext fun x => (hstop x).1]
  | restart i rnd =>
    simp only [act] at h
    split at h
    · cases h
      exact Or.inl (.same rfl rfl)
    · cases h

/-! ## 4. Whole runs -/

theorem kept_set {els : List (Election n)} {el' : Election n} (he : els[e]? = some el)
    (ho : el'.owner = el.owner) (ht : el'.term = el.term) : Kept els (els.set e el') := by
  intro k x hx
  have hlt := (List.getElem?_eq_some_iff.mp he).1
  by_cases hk : e = k
  · subst hk
    rw [he] at hx
    obtain rfl := Option.some.inj hx
    exact ⟨el', List.getElem?_set_self hlt, ho, ht⟩
  · exact ⟨x, by rw [List.getElem?_set_ne hk, hx], rfl, rfl⟩

/-- The votes of an election once the goroutine's reply counts, too. -/
theorem Tallies.count (h : Tallies past s) (ht : s.threads[t]? = some th)
    {args : RequestVoteArgs n} {reply : RequestVoteReply}
    (hj : th.job = .voteArrived e args reply) (he : s.elections[e]? = some el)
    (hg : reply.voteGranted = true) :
    ∃ S : Finset (Fin n), el.nvotes + 1 ≤ S.card ∧ ∀ j ∈ S,
      (∃ T, el.term ≤ T ∧ T ≤ (s.rafts el.owner).currentTerm ∧ Cast past j T el.owner) ∧
      (j = el.owner ∨ ∃ x ∈ s.threads.set t { th with job := .voteCounted e },
        x.job = .voteCounted e ∧ x.peer = j) := by
  have hmem := List.mem_of_getElem? ht
  have hok := h.threads th hmem
  unfold BallotOK at hok
  rw [hj] at hok
  obtain ⟨⟨hne, hT, el', he', ho, _, hterm⟩, hcast⟩ := hok
  rw [he] at he'
  obtain rfl := Option.some.inj he'
  obtain ⟨S, hS, hall⟩ := h.elections e el he
  -- the peer was not counted before: its ballot would be there twice
  have hnot : th.peer ∉ S := by
    intro hin
    rcases (hall _ hin).2 with hown | ⟨x, hx, hxj, hxp⟩
    · exact hne (hown.trans ho)
    · have hbx : x.ballot = some (e, th.peer) := by rw [Thread.ballot, hxj, hxp]
      have hbt : th.ballot = some (e, th.peer) := by rw [Thread.ballot, hj]
      have hxt := eq_of_filterMap_nodup h.ballots x hx th hmem hbx hbt
      rw [hxt, hj] at hxj
      cases hxj
  refine ⟨insert th.peer S, by rw [Finset.card_insert_of_notMem hnot]; omega, fun j hjS => ?_⟩
  rcases Finset.mem_insert.mp hjS with rfl | hjS
  · refine ⟨⟨args.term, hterm, ?_, ?_⟩, Or.inr ⟨{ th with job := .voteCounted e }, ?_, rfl, rfl⟩⟩
    · rw [ho]
      exact hT
    · rw [ho]
      exact hcast hg
    · exact List.mem_set (List.getElem?_eq_some_iff.mp ht).1 _
  · obtain ⟨hb, hc⟩ := hall j hjS
    refine ⟨hb, hc.imp_right ?_⟩
    rintro ⟨x, hx, hxj, hxp⟩
    exact ⟨x, mem_set_of_counted ht (by rw [hj]; exact fun _ h => by cases h) hx hxj, hxj, hxp⟩

theorem Tallies.countVote (h : Tallies past s) (hl : ∀ i, (s.rafts i).currentTerm ≤
    (s'.rafts i).currentTerm) (ht : s.threads[t]? = some th) {args : RequestVoteArgs n}
    {reply : RequestVoteReply} (hj : th.job = .voteArrived e args reply)
    (hs : s.countVote t e th reply = some s') :
    Kept s.elections s'.elections ∧ (s'.threads.filterMap Thread.ballot).Nodup ∧
      ∀ e' el', s'.elections[e']? = some el' → ElectionOK ((s, a) :: past) s' e' el' := by
  have hnc : ∀ e, th.job ≠ .voteCounted e := by rw [hj]; exact fun _ h => by cases h
  -- another election, or this one when its count is as before
  have hold : ∀ (x : Thread n Cmd) (ths : List (Thread n Cmd)),
      s'.threads = s.threads.set t x ++ ths → ∀ e' el', s.elections[e']? = some el' →
      ElectionOK ((s, a) :: past) s' e' el' := by
    intro x ths hths e' el' he'
    refine (h.elections e' el' he').later hl fun y hy hyj => ⟨y, ?_, hyj, rfl⟩
    rw [hths]
    exact List.mem_append_left _ (mem_set_of_counted ht hnc hy hyj)
  have hnodup : ∀ x : Thread n Cmd, (x.ballot = th.ballot ∨ x.ballot = none) →
      ((s.threads.set t x).filterMap Thread.ballot).Nodup :=
    fun x hx => h.ballots.sublist (filterMap_set_sublist ht hx)
  -- the election that was counted
  have hset : ∀ (el : Election n) (nvotes : Nat) (x : Thread n Cmd) (ths : List (Thread n Cmd))
      (b : Bool), s.elections[e]? = some el →
      s'.elections = s.elections.set e { el with nvotes := nvotes, stopped := b } →
      s'.threads = s.threads.set t x ++ ths →
      ElectionOK ((s, a) :: past) s' e { el with nvotes := nvotes, stopped := b } →
      Kept s.elections s'.elections ∧
      ∀ k y, s'.elections[k]? = some y → ElectionOK ((s, a) :: past) s' k y := by
    intro el nvotes x ths b he hels hths hok
    rw [hels]
    refine ⟨kept_set he rfl rfl, fun k y hy => ?_⟩
    by_cases hk : e = k
    · subst hk
      rw [List.getElem?_set_self (List.getElem?_eq_some_iff.mp he).1] at hy
      obtain rfl := Option.some.inj hy
      exact hok
    · rw [List.getElem?_set_ne hk] at hy
      exact hold x ths hths k y hy
  have hcounted : ∀ (el : Election n) (stopped : Bool) (ths : List (Thread n Cmd)),
      s.elections[e]? = some el → reply.voteGranted = true →
      s'.threads = s.threads.set t { th with job := .voteCounted e } ++ ths →
      ElectionOK ((s, a) :: past) s' e { el with nvotes := el.nvotes + 1, stopped := stopped } := by
    intro el stopped ths he hg hths
    obtain ⟨S, hS, hall⟩ := h.count ht hj he hg
    refine ⟨S, hS, fun j hjS => ?_⟩
    obtain ⟨⟨T, h1, h2, h3⟩, hc⟩ := hall j hjS
    refine ⟨⟨T, h1, h2.trans (hl _), h3.next _⟩, hc.imp_right ?_⟩
    rintro ⟨x, hx, hxj⟩
    rw [hths]
    exact ⟨x, List.mem_append_left _ hx, hxj⟩
  have hballot : ({ th with job := .voteCounted e } : Thread n Cmd).ballot = th.ballot := by
    rw [Thread.ballot, Thread.ballot, hj]
  unfold Sys.countVote at hs
  split at hs
  · cases hs
  · rename_i el he
    dsimp only at hs
    split at hs
    · cases hs
      obtain ⟨h1, h2⟩ := hset el el.nvotes _ [] true he rfl (List.append_nil _).symm
        (hold _ [] (List.append_nil _).symm e el he)
      exact ⟨h1, hnodup _ (Or.inr rfl), h2⟩
    · split at hs
      · rename_i hg
        split at hs
        · cases hs
          obtain ⟨h1, h2⟩ := hset el (el.nvotes + 1) _ _ true he rfl rfl
            (hcounted el true _ he hg rfl)
          refine ⟨h1, ?_, h2⟩
          show ((_ ++ [_]).filterMap _).Nodup
          rw [List.filterMap_append]
          exact (List.append_nil _).symm ▸ hnodup _ (Or.inl hballot)
        · cases hs
          obtain ⟨h1, h2⟩ := hset el (el.nvotes + 1) _ [] el.stopped he rfl
            (List.append_nil _).symm (hcounted el el.stopped [] he hg (List.append_nil _).symm)
          exact ⟨h1, hnodup _ (Or.inl hballot), h2⟩
      · cases hs
        exact ⟨fun e el he => ⟨el, he, rfl, rfl⟩, hnodup _ (Or.inr rfl),
          hold _ [] (List.append_nil _).symm⟩

theorem Tallies.launch (h : Tallies past s) (rnd : Nat)
    (hl : ∀ j, (s.rafts j).currentTerm ≤ ((s.launch i rnd).rafts j).currentTerm) :
    Kept s.elections (s.launch i rnd).elections ∧
      ((s.launch i rnd).threads.filterMap Thread.ballot).Nodup ∧
      ∀ e el, (s.launch i rnd).elections[e]? = some el →
        ElectionOK ((s, .launch i rnd) :: past) (s.launch i rnd) e el := by
  refine ⟨fun e el he => ⟨el, ?_, rfl, rfl⟩, ?_, fun e el he => ?_⟩
  · show (s.elections ++ _)[e]? = _
    rw [List.getElem?_append_left (List.getElem?_eq_some_iff.mp he).1, he]
  · -- the new ballots belong to an election that no goroutine has seen
    have hballots : (forPeers i (.voteReady s.elections.length) : List (Thread n Cmd)).filterMap
        Thread.ballot = ((List.finRange n).filter fun j => j ≠ i).map
          fun j => (s.elections.length, j) := by
      unfold forPeers
      rw [List.filterMap_map]
      exact congrFun (List.filterMap_eq_map (f := fun j : Fin n => (s.elections.length, j))) _
    show ((s.threads ++ _).filterMap _).Nodup
    rw [List.filterMap_append, hballots]
    refine List.nodup_append.mpr ⟨h.ballots, ?_, fun a ha b hb hab => ?_⟩
    · exact ((List.nodup_finRange n).filter _).map fun j k hjk => (Prod.mk.inj hjk).2
    · obtain ⟨j, _, rfl⟩ := List.mem_map.mp hb
      obtain ⟨x, hx, hxb⟩ := List.mem_filterMap.mp ha
      obtain ⟨T, _, _, el, he, _⟩ := (h.threads x hx).stands hxb
      have hlt := (List.getElem?_eq_some_iff.mp he).1
      rw [hab] at hlt
      exact Nat.lt_irrefl _ hlt
  · rcases Nat.lt_or_ge e s.elections.length with hlt | hge
    · replace he : (s.elections ++ _)[e]? = some el := he
      rw [List.getElem?_append_left hlt] at he
      exact (h.elections e el he).later hl fun x hx hxj => ⟨x, List.mem_append_left _ hx, hxj, rfl⟩
    · replace he : (s.elections ++ _)[e]? = some el := he
      rw [List.getElem?_append_right hge] at he
      have h0 : e - s.elections.length = 0 := by
        have hlt := (List.getElem?_eq_some_iff.mp he).1
        rw [List.length_singleton] at hlt
        omega
      rw [h0] at he
      obtain rfl := Option.some.inj he
      refine ⟨{i}, le_rfl, fun j hj => ?_⟩
      rw [Finset.mem_singleton.mp hj]
      refine ⟨⟨(s.rafts i).currentTerm + 1, le_rfl, ?_, _, List.mem_cons_self,
        List.mem_singleton_self _⟩, Or.inl rfl⟩
      show _ ≤ (update s.rafts i _ i).currentTerm
      rw [update_self]
      exact le_rfl

theorem Tallies.settle (h : Tallies past s) : Tallies past s.settle := by
  refine ⟨fun x hx => ?_, ?_, fun e el he => ?_⟩
  · obtain ⟨th, hth, rfl⟩ := List.mem_map.mp hx
    rcases shown_cases s th with hs | ⟨args, read, _, hs⟩
    · rw [hs]
      exact h.threads th hth
    · rw [hs]
      trivial
  · have hsame : Thread.ballot ∘ s.shown = Thread.ballot := by
      funext x
      rcases shown_cases s x with hs | ⟨args, read, hj, hs⟩
      · rw [Function.comp_apply, hs]
      · rw [Function.comp_apply, hs, Thread.ballot, Thread.ballot, hj]
    show ((s.threads.map s.shown).filterMap _).Nodup
    rw [List.filterMap_map, hsame]
    exact h.ballots
  · obtain ⟨S, hS, hall⟩ := h.elections e el he
    refine ⟨S, hS, fun j hj => ⟨(hall j hj).1, (hall j hj).2.imp_right ?_⟩⟩
    rintro ⟨x, hx, hxj, hxp⟩
    refine ⟨s.shown x, List.mem_map_of_mem hx, ?_, hxp⟩
    rcases shown_cases s x with hs | ⟨args, read, hj', _⟩
    · rw [hs]
      exact hxj
    · rw [hj'] at hxj
      cases hxj

theorem Tallies.step (hr : Run past s) (h : Tallies past s) (hs : s.step a = some s') :
    Tallies ((s, a) :: past) s' := by
  obtain ⟨s₁, hact, rfl⟩ := Option.map_eq_some_iff.mp hs
  have hterms := act_terms hr hact
  have hrest : Kept s.elections s₁.elections ∧ (s₁.threads.filterMap Thread.ballot).Nodup ∧
      ∀ e el, s₁.elections[e]? = some el → ElectionOK ((s, a) :: past) s₁ e el := by
    rcases act_quiet hact with hq | ⟨i, rnd, rfl, rfl⟩ | ⟨t, th, e, args, reply, rfl, ht, hj, hc⟩
    · rw [hq.elections]
      exact ⟨fun e el he => ⟨el, he, rfl, rfl⟩, h.ballots.sublist hq.ballots,
        fun e el he => (h.elections e el he).later hterms fun x hx hxj => hq.counted x hx e hxj⟩
    · exact h.launch rnd hterms
    · exact h.countVote hterms ht hj hc
  obtain ⟨hkept, hballots, helections⟩ := hrest
  have hnext : Tallies ((s, a) :: past) s₁ :=
    ⟨fun x hx => (act_goes hact x hx).ballotOK hr h hact ⟨hterms, hkept⟩, hballots, helections⟩
  exact hnext.settle

theorem run_tallies (hr : Run past s) : Tallies past s := by
  induction hr with
  | start hinit =>
    obtain ⟨rnds, grow, rfl⟩ := hinit
    exact ⟨fun th hth => absurd hth List.not_mem_nil, List.nodup_nil, fun e el he => nomatch he⟩
  | next hr hs ih => exact ih.step hr hs

/-! ## 5. Election safety -/

/-- A majority that is complete in the term of its election has won that term. -/
theorem Tallies.won (h : Tallies past s) (ht : s.threads[t]? = some th) {args : RequestVoteArgs n}
    {reply : RequestVoteReply} (hj : th.job = .voteArrived e args reply)
    (he : s.elections[e]? = some el) (hle : reply.term ≤ (s.rafts th.owner).currentTerm)
    (hg : reply.voteGranted = true) (hmaj : Server.majority n ≤ el.nvotes + 1)
    (hlate : s.countsLate (.run t) = false) : Won past th.owner (s.rafts th.owner).currentTerm := by
  have hnow : el.term = (s.rafts th.owner).currentTerm := by
    by_contra hne
    obtain ⟨owner, peer, alive, job⟩ := th
    simp only at hj
    subst hj
    simp only [countsLate, ht, he, decide_eq_false_iff_not] at hlate
    exact hlate ⟨hle, hg, hmaj, hne⟩
  obtain ⟨T, _, _, el', he', ho, _⟩ := (h.threads th (List.mem_of_getElem? ht)).stands
    (b := (e, th.peer)) (by rw [Thread.ballot, hj])
  rw [he] at he'
  obtain rfl := Option.some.inj he'
  obtain ⟨S, hS, hall⟩ := h.count ht hj he hg
  refine ⟨S, hmaj.trans hS, fun j hjS => ?_⟩
  obtain ⟨T, h1, h2, h3⟩ := (hall j hjS).1
  rw [ho] at h2 h3
  rwa [show T = (s.rafts th.owner).currentTerm by omega] at h3

theorem Moves.won (hr : Run past s) (hm : s.Moves a i rf') (horder : s.orderly a = true)
    (h : (s.rafts i).identity = .leader → Won past i (s.rafts i).currentTerm)
    (hl : rf'.identity = .leader) : Won past i rf'.currentTerm := by
  have hkept : (s.rafts i).LeadKept rf' → Won past i rf'.currentTerm := by
    intro hk
    obtain ⟨h1, h2⟩ := hk hl
    rw [h2]
    exact h h1
  simp only [orderly, Bool.and_eq_true, Bool.not_eq_true'] at horder
  cases hm with
  | stays => exact h hl
  | ticks _ => exact hkept (Server.leadKept_tick _ _ _)
  | launches ha =>
    -- a leader that launches an election is not orderly
    subst ha
    exact absurd hl (of_decide_eq_false horder.1.2)
  | votes hv => exact hkept (Server.requestVote_outcome hv).leadKept
  | appends _ _ _ hap => exact hkept (Server.appendEntries_outcome hap).leadKept
  | converts _ => cases hl
  | leads ha ht ho hj he hle hg hmaj =>
    subst ha ho
    exact (run_tallies hr).won ht hj he hle hg hmaj horder.2
  | credits _ _ _ _ hc => exact hkept (Server.replicateReply_outcome hc).leadKept
  | contacts => exact h hl
  | starts _ => exact hkept (Server.leadKept_start _ _)
  | crashes => exact h hl
  | restarts =>
    rw [Server.make_identity] at hl
    cases hl

theorem run_won (hr : Run past s) (horder : ∀ x ∈ past, x.1.orderly x.2 = true) {x : Sys n Cmd}
    (hx : Visited past s x) (hl : (x.rafts i).identity = .leader) :
    Won past i (x.rafts i).currentTerm := by
  induction hr generalizing x with
  | start hinit =>
    obtain ⟨rnds, grow, rfl⟩ := hinit
    rcases hx with rfl | ⟨a, ha⟩
    · cases hl
    · exact absurd ha List.not_mem_nil
  | @next past s s' a hr hs ih =>
    have hpast : ∀ {y : Sys n Cmd}, Visited past s y → (y.rafts i).identity = .leader →
        Won past i (y.rafts i).currentTerm :=
      ih fun z hz => horder z (List.mem_cons_of_mem _ hz)
    rcases visited_next.mp hx with rfl | hx
    · exact ((step_moves hs i).won hr (horder _ List.mem_cons_self)
        (hpast (visited_now _ _)) hl).next _
    · exact (hpast hx hl).next _

def OneLeader (past : List (Sys n Cmd × Action n Cmd)) (s : Sys n Cmd) : Prop :=
  ∀ x y, Visited past s x → Visited past s y → ∀ i j, (x.rafts i).identity = .leader →
    (y.rafts j).identity = .leader → (x.rafts i).currentTerm = (y.rafts j).currentTerm → i = j

theorem orderly_oneLeader (hr : Run past s) (horder : ∀ x ∈ past, x.1.orderly x.2 = true) :
    OneLeader past s := by
  intro x y hx hy i j hi hj ht
  have hq : ∀ z ∈ past, z.1.losesQuorum z.2 = false := by
    intro z hz
    have ho := horder z hz
    simp only [orderly, Bool.and_eq_true, Bool.not_eq_true'] at ho
    exact ho.1.1
  have hwi := run_won hr horder hx hi
  rw [ht] at hwi
  exact Won.unique hr hq hwi (run_won hr horder hy hj)

/-- **Election safety.**  In an orderly run two peers never lead one term, not even at two different
moments. -/
theorem election_safety {past : List (Sys n Cmd × Action n Cmd)} {s : Sys n Cmd}
    (hr : Run past s) (horder : ∀ x ∈ past, x.1.orderly x.2 = true) : OneLeader past s :=
  orderly_oneLeader hr horder

/-- After its election peer 0 takes a command, brings it to peer 1, commits it, and lets peer 1 know
with a heartbeat. -/
def firstCommand : List (Action 3 Nat) :=
  firstElection ++ [.start 0 7, .run 3, .run 3, .deliver 3 0, .run 3, .run 2, .run 5, .deliver 5 0]

theorem election_safety_firstCommand :
    ((trace (fun _ => 0) firstCommand).2.rafts 0).identity = .leader ∧
      OneLeader (trace (fun _ => 0) firstCommand).1 (trace (fun _ => 0) firstCommand).2 :=
  ⟨by decide +kernel, election_safety (trace_run _ firstCommand) (by decide +kernel)⟩

/-- Peer 1 votes for peer 0 in term 1, but the reply arrives when peer 0 stands in term 2 already, and
makes it the leader of term 2.  Peer 1 is free to elect peer 2 in that term. -/
def lateVote : List (Action 3 Nat) :=
  [.elapse 301, .tick 0 0, .launch 0 0, .run 0, .deliver 0 0,
    .elapse 301, .tick 0 0, .launch 0 0, .run 0, .run 0,
    .tick 2 0, .launch 2 0, .elapse 301, .tick 2 0, .launch 2 0, .run 8, .deliver 8 0, .run 8, .run 8]

theorem two_leaders_of_one_term :
    ∃ past, ∃ s : Sys 3 Nat, Run past s ∧ (s.rafts 0).identity = .leader ∧
      (s.rafts 2).identity = .leader ∧ (s.rafts 0).currentTerm = (s.rafts 2).currentTerm :=
  ⟨_, _, trace_run (fun _ => 0) lateVote, by decide +kernel⟩

end Sys

end Raft
