import DistributedSystems.Raft.ServerSpec
import DistributedSystems.Raft.Steps

/-!
# The votes of a run

In every run a peer's saved state is its present one.  As long as no leader is deposed for want of a
quorum, a peer votes for one candidate in a term.
-/

namespace Raft

open Function

variable {n : Nat} {Cmd : Type}

namespace Sys

variable {a : Action n Cmd} {s s' : Sys n Cmd} {i : Fin n} {rf' : Server n Cmd}

/-! ## 1. The saved state -/

theorem Moves.me (h : s.Moves a i rf') (hme : (s.rafts i).me = i) : rf'.me = i := by
  cases h with
  | stays => exact hme
  | ticks _ => exact (Server.tick_me _ _ _).trans hme
  | launches _ => exact hme
  | votes h => exact (Server.requestVote_outcome h).me.trans hme
  | appends _ _ _ h => exact (Server.appendEntries_outcome h).me.trans hme
  | converts _ => exact hme
  | leads _ _ _ _ _ _ _ _ => exact hme
  | credits _ _ _ _ h => exact (Server.replicateReply_outcome h).me.trans hme
  | contacts => exact hme
  | starts _ => exact (Server.start_me _ _).trans hme
  | crashes => exact hme
  | restarts => exact Server.make_me _ _ _ _

theorem Moves.persisted (h : s.Moves a i rf') (hp : (s.rafts i).Persisted) : rf'.Persisted := by
  cases h with
  | stays => exact hp
  | ticks _ => exact hp.tick _ _
  | launches _ => exact Or.inl rfl
  | votes h => exact (Server.requestVote_outcome h).persisted hp
  | appends _ _ _ h => exact (Server.appendEntries_outcome h).persisted hp
  | converts _ => exact Or.inl rfl
  | leads _ _ _ _ _ _ _ _ => exact hp
  | credits _ _ _ _ h => exact (Server.replicateReply_outcome h).persisted hp
  | contacts => exact hp
  | starts _ => exact hp.start _
  | crashes => exact hp
  | restarts => exact (hp.make i _ _).2.2.2

theorem run_persisted {past : List (Sys n Cmd × Action n Cmd)} (hr : Run past s) (i : Fin n) :
    (s.rafts i).me = i ∧ (s.rafts i).Persisted := by
  refine Transition.Run.invariant
    (I := fun s => ∀ i, (s.rafts i).me = i ∧ (s.rafts i).Persisted) ?_ ?_ hr i
  · intro s hs i
    obtain ⟨rnds, grow, rfl⟩ := hs
    exact ⟨rfl, Server.persisted_make i 0 (rnds i)⟩
  · intro s a s' hs h i
    exact ⟨(step_moves h i).me (hs i).1, (step_moves h i).persisted (hs i).2⟩

/-! ## 2. Votes -/

/-- The action makes a leader step down because it could not reach a majority for a timeout. -/
def losesQuorum (s : Sys n Cmd) : Action n Cmd → Bool
  | .tick i _ => (s.rafts i).quorumLost s.clock
  | _ => false

def votesCast (s : Sys n Cmd) : Action n Cmd → List (Fin n × Nat × Fin n)
  | .launch i rnd => [(i, ((s.rafts i).launchElection s.clock rnd).currentTerm, i)]
  | .deliver t rnd =>
    match s.threads[t]? with
    | some ⟨_, peer, _, .voteSent _ args⟩ =>
      match (s.rafts peer).requestVote s.clock rnd args with
      | some (rf, reply) =>
        if reply.voteGranted then [(peer, rf.currentTerm, args.candidateId)] else []
      | none => []
    | _ => []
  | _ => []

theorem Moves.voteKept (h : s.Moves a i rf') (hp : (s.rafts i).Persisted)
    (hq : s.losesQuorum a = false) :
    (s.rafts i).VoteKept rf' := by
  cases h with
  | stays => exact .refl _
  | @ticks rnd ha =>
    subst ha
    exact Server.voteKept_tick hq rnd
  | launches _ => exact Or.inl (Nat.lt_succ_self _)
  | votes h => exact (Server.requestVote_outcome h).voteKept
  | appends _ _ _ h => exact (Server.appendEntries_outcome h).voteKept
  | converts h => exact Or.inl h
  | leads _ _ _ _ _ _ _ _ => exact .refl _
  | credits _ _ _ _ h => exact (Server.replicateReply_outcome h).voteKept
  | contacts => exact .refl _
  | starts _ => exact Server.voteKept_start _ _
  | crashes => exact .refl _
  | restarts =>
    obtain ⟨ht, hv, _⟩ := hp.make i s.clock _
    exact Or.inr ⟨ht, fun c hc => hv.trans hc⟩

/-- The peer is past term `T`, or it is in it and remembers that it voted for `c`. -/
def Recorded (s : Sys n Cmd) (v : Fin n) (T : Nat) (c : Fin n) : Prop :=
  T < (s.rafts v).currentTerm ∨ ((s.rafts v).currentTerm = T ∧ (s.rafts v).votedFor = some c)

theorem votesCast_recorded (hs : s.step a = some s') (hme : ∀ i, (s.rafts i).me = i) {v c : Fin n}
    {T : Nat} (hv : (v, T, c) ∈ s.votesCast a) :
    (s'.rafts v).currentTerm = T ∧ (s'.rafts v).votedFor = some c := by
  obtain ⟨s₁, h, rfl⟩ := Option.map_eq_some_iff.mp hs
  unfold votesCast at hv
  split at hv
  · -- a candidate votes for itself
    rename_i i rnd
    obtain ⟨rfl, rfl, rfl⟩ : v = i ∧ T = _ ∧ c = i := by simpa using List.mem_singleton.mp hv
    simp only [act] at h
    split at h
    · contradiction
    · cases h
      change (update s.rafts c _ c).currentTerm = _ ∧ (update s.rafts c _ c).votedFor = _
      rw [update_self]
      exact ⟨rfl, congrArg some (hme c)⟩
  · -- a peer grants a request
    rename_i t rnd
    split at hv
    · rename_i owner peer alive e args ht
      simp only [act, ht, deliver] at h
      split at h
      · contradiction
      · obtain ⟨⟨rf, reply⟩, hr, rfl⟩ := Option.map_eq_some_iff.mp h
        rw [hr] at hv
        dsimp only at hv
        split at hv
        · rename_i hg
          obtain ⟨rfl, rfl, rfl⟩ : v = peer ∧ T = _ ∧ c = _ := by
            simpa using List.mem_singleton.mp hv
          change (update s.rafts v rf v).currentTerm = _ ∧ (update s.rafts v rf v).votedFor = _
          rw [update_self]
          exact ⟨rfl, (Server.requestVote_outcome hr).votedFor hg⟩
        · exact absurd hv List.not_mem_nil
    · exact absurd hv List.not_mem_nil
  · exact absurd hv List.not_mem_nil

theorem Recorded.step (h : s.step a = some s') (hp : ∀ i, (s.rafts i).Persisted)
    (hq : s.losesQuorum a = false) {v c : Fin n} {T : Nat} (hv : s.Recorded v T c) :
    s'.Recorded v T c := by
  unfold Recorded at hv ⊢
  rcases (step_moves h v).voteKept (hp v) hq with hlt | ⟨ht, hkept⟩
  · omega
  · rw [ht]
    exact hv.imp_right fun ⟨h1, h2⟩ => ⟨h1, hkept c h2⟩

/-- The vote was given at some step of the run. -/
def Cast (past : List (Sys n Cmd × Action n Cmd)) (v : Fin n) (T : Nat) (c : Fin n) : Prop :=
  ∃ x ∈ past, (v, T, c) ∈ x.1.votesCast x.2

variable {past : List (Sys n Cmd × Action n Cmd)} {v c d : Fin n} {T : Nat}

theorem Cast.next (h : Cast past v T c) (x : Sys n Cmd × Action n Cmd) : Cast (x :: past) v T c := by
  obtain ⟨y, hy, hv⟩ := h
  exact ⟨y, List.mem_cons_of_mem _ hy, hv⟩

theorem run_recorded (hr : Run past s) (hq : ∀ x ∈ past, x.1.losesQuorum x.2 = false)
    (hc : Cast past v T c) : s.Recorded v T c := by
  induction hr with
  | start _ =>
    obtain ⟨x, hx, _⟩ := hc
    exact absurd hx List.not_mem_nil
  | @next past s s' a hr h ih =>
    obtain ⟨x, hx, hv⟩ := hc
    rcases List.mem_cons.mp hx with rfl | hx
    · exact Or.inr (votesCast_recorded h (fun i => (run_persisted hr i).1) hv)
    · have hold := ih (fun y hy => hq y (List.mem_cons_of_mem _ hy)) ⟨x, hx, hv⟩
      exact hold.step h (fun i => (run_persisted hr i).2) (hq _ List.mem_cons_self)

theorem Cast.unique (hr : Run past s) (hq : ∀ x ∈ past, x.1.losesQuorum x.2 = false)
    (hc : Cast past v T c) (hd : Cast past v T d) : c = d := by
  induction hr with
  | start _ =>
    obtain ⟨x, hx, _⟩ := hc
    exact absurd hx List.not_mem_nil
  | @next past s s' a hr h ih =>
    -- a vote of the last step meets every vote on record in the state after it
    have hlast : ∀ {e f : Fin n}, (v, T, e) ∈ s.votesCast a → Cast ((s, a) :: past) v T f →
        e = f := by
      intro e f he hf
      obtain ⟨hT, hve⟩ := votesCast_recorded h (fun i => (run_persisted hr i).1) he
      rcases run_recorded (hr.next h) hq hf with hlt | ⟨_, hvf⟩
      · omega
      · exact Option.some.inj (hve.symm.trans hvf)
    obtain ⟨x, hx, hxc⟩ := id hc
    obtain ⟨y, hy, hyd⟩ := id hd
    rcases List.mem_cons.mp hx with rfl | hx'
    · exact hlast hxc hd
    · rcases List.mem_cons.mp hy with rfl | hy'
      · exact (hlast hyd hc).symm
      · exact ih (fun y hy => hq y (List.mem_cons_of_mem _ hy)) ⟨x, hx', hxc⟩ ⟨y, hy', hyd⟩

/-- **One vote per term.**  In a run in which no leader is deposed for want of a quorum, the votes a
peer gives in one term, to others or to itself, all go to one candidate. -/
theorem one_vote_per_term {past : List (Sys n Cmd × Action n Cmd)} {s : Sys n Cmd}
    (hr : Run past s) (hq : ∀ x ∈ past, x.1.losesQuorum x.2 = false)
    {x y : Sys n Cmd × Action n Cmd} (hx : x ∈ past) (hy : y ∈ past) {v c d : Fin n} {T : Nat}
    (hc : (v, T, c) ∈ x.1.votesCast x.2) (hd : (v, T, d) ∈ y.1.votesCast y.2) : c = d :=
  Cast.unique hr hq ⟨x, hx, hc⟩ ⟨y, hy, hd⟩

def firstElection : List (Action 3 Nat) :=
  [.elapse 301, .tick 0 0, .launch 0 0, .run 0, .deliver 0 0, .run 0, .run 0]

theorem one_vote_per_term_firstElection :
    ∃ x ∈ (trace (fun _ => 0) firstElection).1, (1, 1, 0) ∈ x.1.votesCast x.2 ∧
      ∀ y ∈ (trace (fun _ => 0) firstElection).1, ∀ d, (1, 1, d) ∈ y.1.votesCast y.2 → 0 = d := by
  have hx : ∃ x ∈ (trace (fun _ => 0) firstElection).1, (1, 1, 0) ∈ x.1.votesCast x.2 := by
    decide +kernel
  obtain ⟨x, hx, hc⟩ := hx
  exact ⟨x, hx, hc, fun y hy d hd =>
    one_vote_per_term (trace_run _ firstElection) (by decide +kernel) hx hy hc hd⟩

/-- The new leader is deposed before its first heartbeat round, forgets its vote for itself, and
votes for peer 2, which stands in the same term. -/
def secondVote : List (Action 3 Nat) :=
  firstElection ++ [.tick 2 0, .launch 2 0, .tick 0 0, .run 3, .deliver 3 0]

theorem two_votes_in_one_term :
    ∃ past, ∃ s : Sys 3 Nat, Run past s ∧ (∃ x ∈ past, (0, 1, 0) ∈ x.1.votesCast x.2) ∧
      ∃ y ∈ past, (0, 1, 2) ∈ y.1.votesCast y.2 :=
  ⟨_, _, trace_run (fun _ => 0) secondVote, by decide +kernel⟩

end Sys

end Raft
