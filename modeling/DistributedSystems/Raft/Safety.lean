import DistributedSystems.Raft.Simulation

/-!
# Safety of the cluster

Whole runs: log matching, the soundness of `matchIndex` and state machine safety, each with a run in
which the code loses it, and leader completeness.
-/

namespace Raft

open ReplicatedLog Transition

variable {n : Nat} {Cmd : Type}

namespace Sys

/-! ## 1. Runs and their history -/

/-- The abstract cluster `A` stands for the run: it corresponds to the present state and remembers
who led, what was logged and, if that is tracked, who voted at every moment before. -/
structure Recounts (tracked : Prop) (past : List (Sys n Cmd × Action n Cmd))
    (s : Sys n Cmd) (A : Cluster (Fin n) (LogEntry Cmd)) : Prop where
  rel : Rel tracked A s
  votes : tracked → Recalls past A
  logs : ∀ x, Visited past s x → ∀ i, Matches A.leaderLog (x.rafts i).logEntries
  led : ∀ T c, A.leaderOf T = some c →
    ∃ x, Visited past s x ∧ (x.rafts c).identity = .leader ∧ (x.rafts c).currentTerm = T

theorem rel_init (tracked : Prop) (rnds : Fin n → Nat) (grow : Nat → Nat → Nat) :
    Rel tracked (Cluster.init Server.sentinel) (init rnds grow : Sys n Cmd) where
  inv := Cluster.logInv_init rfl
  safe _ := Cluster.safeInv_init rfl
  servers _ := ⟨rfl, rfl, fun h => (nomatch h), fun _ _ h => (nomatch h), fun _ _ => rfl,
    fun _ h => (nomatch h), fun _ => Or.inl rfl⟩
  threads _ h := absurd h List.not_mem_nil
  applied _ _ h := absurd h List.not_mem_nil

variable {s : Sys n Cmd} {past : List (Sys n Cmd × Action n Cmd)}

theorem rel_logMatches {tracked : Prop} {A : Cluster (Fin n) (LogEntry Cmd)}
    (h : Rel tracked A s) (i : Fin n) : Matches A.leaderLog (s.rafts i).logEntries := by
  rw [← (h.servers i).log]
  exact h.inv.logMatches i

theorem run_recounts (tracked : Prop) (hr : Run past s)
    (hlate : ∀ x ∈ past, x.1.encodesLate x.2 = false) (hone : OneLeader past s)
    (horder : tracked → ∀ x ∈ past, x.1.orderly x.2 = true)
    (hstale : tracked → ∀ x ∈ past, x.1.creditsStale x.2 = false) :
    ∃ A, Recounts tracked past s A := by
  induction hr with
  | start h =>
    obtain ⟨rnds, grow, rfl⟩ := h
    refine ⟨_, rel_init tracked rnds grow, fun _ v T c hc => ?_, fun x hx i => ?_,
      fun T c hc => (nomatch hc)⟩
    · obtain ⟨x, hx, _⟩ := hc
      exact absurd hx List.not_mem_nil
    · rcases hx with rfl | ⟨a, ha⟩
      · exact rel_logMatches (rel_init tracked rnds grow) i
      · exact absurd ha List.not_mem_nil
  | @next past s s' a hr h ih =>
    have hback : ∀ x, Visited past s x → Visited ((s, a) :: past) s' x :=
      fun x hx => visited_next.mpr (Or.inr hx)
    obtain ⟨A, hA⟩ := ih (fun x hx => hlate x (List.mem_cons_of_mem _ hx))
      (fun x y hx hy => hone x y (hback x hx) (hback y hy))
      (fun htr x hx => horder htr x (List.mem_cons_of_mem _ hx))
      (fun htr x hx => hstale htr x (List.mem_cons_of_mem _ hx))
    obtain ⟨s₁, hact, rfl⟩ := Option.map_eq_some_iff.mp h
    -- who leads now and whom the history remembers in that term are one
    have hsole : Sole A s₁ := by
      intro c d hc hd
      obtain ⟨x, hx, hxl, hxt⟩ := hA.led _ d hd
      exact hone x s₁.settle (hback x hx) (visited_now _ _) d c hxl hc hxt
    obtain ⟨A', hreach, hrel, hnew⟩ := act_advances hr hA.rel hact hA.votes
      (fun htr => horder htr _ List.mem_cons_self) (hlate _ List.mem_cons_self)
      (fun htr => hstale htr _ List.mem_cons_self) hsole
    have hext := (hA.rel.inv.extends_of_reach hreach).2
    refine ⟨A', hrel.settle, fun htr v T c hc => ?_, fun x hx i => ?_, fun T c hc => ?_⟩
    · obtain ⟨x, hx, hv⟩ := hc
      rcases List.mem_cons.mp hx with rfl | hx
      · -- a vote of this step is the one that the peer remembers
        obtain ⟨hT, hc⟩ := votesCast_recorded h (fun i => (run_persisted hr i).1) hv
        have hvoted := (hrel.settle.servers v).voted htr c hc
        rwa [hT] at hvoted
      · obtain ⟨w, hw, hwc⟩ := hA.votes htr v T c ⟨x, hx, hv⟩
        exact ⟨w, hext.votes _ _ _ hw, hwc⟩
    · rcases visited_next.mp hx with rfl | hx
      · exact rel_logMatches hrel.settle i
      · exact (hA.logs x hx i).mono hext.leaderLog_le
    · rcases hnew T c hc with hc | ⟨h1, h2⟩
      · obtain ⟨x, hx, hxl⟩ := hA.led T c hc
        exact ⟨x, hback x hx, hxl⟩
      · exact ⟨_, visited_now _ _, h1, h2⟩

/-! ## 2. Logs -/

/-- **Log matching.**  In a run without two leaders of one term, in which requests are encoded in their
term only, logs that hold an entry of one term at one index agree up to it, whichever peers they
belong to and whenever they were held. -/
theorem log_matching {past : List (Sys n Cmd × Action n Cmd)} {s : Sys n Cmd} (hr : Run past s)
    (hone : OneLeader past s) (hlate : ∀ x ∈ past, x.1.encodesLate x.2 = false) {x y : Sys n Cmd}
    (hx : Visited past s x) (hy : Visited past s y) {i j : Fin n} {k : Nat} {e e' : LogEntry Cmd}
    (he : (x.rafts i).logEntries[k]? = some e) (he' : (y.rafts j).logEntries[k]? = some e')
    (ht : e.term = e'.term) {m : Nat} (hm : m ≤ k) :
    (x.rafts i).logEntries[m]? = (y.rafts j).logEntries[m]? := by
  obtain ⟨A, hA⟩ := run_recounts False hr hlate hone nofun nofun
  have hagree := (hA.logs x hx i).agree (hA.logs y hy j) he he' ht
  have h1 := congrArg (fun l => l[m]?) hagree
  simpa only [List.getElem?_take_of_lt (Nat.lt_succ_of_le hm)] using h1

theorem log_matching_firstCommand :
    ((trace (fun _ => 0) firstCommand).2.rafts 0).logEntries[1]? = some ⟨1, some 7⟩ ∧
      ((trace (fun _ => 0) firstCommand).2.rafts 0).logEntries[0]? =
        ((trace (fun _ => 0) firstCommand).2.rafts 1).logEntries[0]? := by
  have hr := trace_run (fun _ => 0) firstCommand
  have he : ((trace (fun _ => 0) firstCommand).2.rafts 0).logEntries[1]? = some ⟨1, some 7⟩ := by
    decide +kernel
  have he' : ((trace (fun _ => 0) firstCommand).2.rafts 1).logEntries[1]? = some ⟨1, some 7⟩ := by
    decide +kernel
  exact ⟨he, log_matching hr (orderly_oneLeader hr (by decide +kernel)) (by decide +kernel)
    (visited_now _ _) (visited_now _ _) he he' rfl (Nat.zero_le 1)⟩

/-- Peer 0 leads term 1 and brings two entries to peer 4; a second request with them is made, but not
encoded yet.  Peer 2 leads term 2 and replaces the first entry in the log of peer 0, in the array that
the request is a slice of.  Now it is encoded and reaches peer 4, which is still in term 1. -/
def overwrittenRequest : List (Action 5 Nat) :=
  [.elapse 301, .tick 0 0, .launch 0 0, .run 0, .run 1, .deliver 0 0, .deliver 1 0,
    .run 0, .run 1, .run 0, .run 1, .start 0 1, .start 0 2,
    .run 8, .run 8, .run 8, .deliver 8 0, .run 12,
    .elapse 301, .tick 2 0, .launch 2 0, .run 14, .run 15, .deliver 14 0, .deliver 15 0,
    .run 14, .run 15, .run 14, .run 15, .start 2 8, .run 18, .run 18, .deliver 18 0,
    .run 12, .run 12, .deliver 12 0]

/-- The log of peer 4 at two moments: the same term at index 2, another entry at index 1. -/
theorem overwritten_request_mismatch :
    ∃ past, ∃ s x : Sys 5 Nat, Run past s ∧ OneLeader past s ∧ Visited past s x ∧
      (x.rafts 4).logEntries = [Server.sentinel, ⟨1, some 1⟩, ⟨1, some 2⟩] ∧
      (s.rafts 4).logEntries = [Server.sentinel, ⟨2, some 8⟩, ⟨1, some 2⟩] := by
  have hr := trace_run (fun _ => 0) overwrittenRequest
  have hx : ∃ x ∈ (trace (fun _ => 0) overwrittenRequest).1,
      (x.1.rafts 4).logEntries = [Server.sentinel, ⟨1, some 1⟩, ⟨1, some 2⟩] := by decide +kernel
  obtain ⟨⟨x, a⟩, hmem, hlog⟩ := hx
  exact ⟨_, _, x, hr, orderly_oneLeader hr (by decide +kernel), Or.inr ⟨a, hmem⟩, hlog,
    by decide +kernel⟩

/-! ## 3. Replication -/

/-- **`matchIndex` is sound.**  In an orderly run in which requests are encoded and replies credited in
the term of the request only, a leader's `matchIndex` bounds what a peer that is not ahead shares with it. -/
theorem matchIndex_sound {past : List (Sys n Cmd × Action n Cmd)} {s : Sys n Cmd}
    (hr : Run past s) (horder : ∀ x ∈ past, x.1.orderly x.2 = true)
    (hstale : ∀ x ∈ past, x.1.creditsStale x.2 = false)
    (hlate : ∀ x ∈ past, x.1.encodesLate x.2 = false) {L j : Fin n}
    (hL : (s.rafts L).identity = .leader)
    (hj : (s.rafts j).currentTerm ≤ (s.rafts L).currentTerm) {k : Nat}
    (hk : k ≤ (s.rafts L).matchIndex j) :
    ∃ e e', (s.rafts j).logEntries[k]? = some e ∧ (s.rafts L).logEntries[k]? = some e' ∧
      e.term = e'.term := by
  obtain ⟨A, hA⟩ := run_recounts True hr hlate (orderly_oneLeader hr horder) (fun _ => horder)
    fun _ => hstale
  have hsafe := hA.rel.safe trivial
  have hserver := hA.rel.servers L
  have hlead := hserver.leads hL
  have hown : A.leaderLog (s.rafts L).currentTerm = (s.rafts L).logEntries := by
    rw [← hserver.log]
    exact ((hsafe.own _ L hlead).2 hserver.term).symm
  -- in both cases the peer holds the first `k + 1` entries of the leader's log
  have hshared : (s.rafts L).logEntries.take (k + 1) <+: (s.rafts j).logEntries ∧
      k < (s.rafts L).logEntries.length := by
    rcases hserver.matched trivial hlead j with h0 | hack
    · have hroot : ∀ i, [Server.sentinel] <+: (s.rafts i).logEntries := by
        intro i
        rw [← (hA.rel.servers i).log]
        exact hsafe.logRoot i
      have hk0 : k = 0 := by omega
      subst hk0
      have hlen := (hroot L).length_le
      rw [List.length_singleton] at hlen
      have htake : (s.rafts L).logEntries.take 1 = [Server.sentinel] := by
        rw [take_eq_take_left (hroot L) (by simp)]
        rfl
      exact ⟨htake ▸ hroot j, by omega⟩
    · obtain ⟨hT, hm⟩ := hsafe.ackTerm j _ _ hack
      rw [(hA.rel.servers j).term] at hT
      rw [hown] at hm
      refine ⟨?_, by omega⟩
      rcases hsafe.ackKept j _ _ k hack hk with hp | ⟨U, h1, h2, _⟩
      · rwa [hown, (hA.rel.servers j).log] at hp
      · rw [(hA.rel.servers j).term] at h2
        omega
  obtain ⟨hp, hlt⟩ := hshared
  have he : (s.rafts L).logEntries[k]? = some (s.rafts L).logEntries[k] :=
    List.getElem?_eq_getElem hlt
  exact ⟨_, _, take_prefix_getElem? hp (Nat.lt_succ_self k) he, he, rfl⟩

theorem matchIndex_sound_firstCommand :
    ((trace (fun _ => 0) firstCommand).2.rafts 0).matchIndex 1 = 1 ∧
      ∃ e e', ((trace (fun _ => 0) firstCommand).2.rafts 1).logEntries[1]? = some e ∧
        ((trace (fun _ => 0) firstCommand).2.rafts 0).logEntries[1]? = some e' ∧
        e.term = e'.term :=
  ⟨by decide +kernel, matchIndex_sound (trace_run _ firstCommand) (by decide +kernel)
    (by decide +kernel) (by decide +kernel) (by decide +kernel) (by decide +kernel)
    (by decide +kernel)⟩

/-- Peer 1 accepts an entry of term 1 from peer 0, and the reply is delayed.  Peer 2 leads term 2 and
overwrites the entry at peer 0, which then leads term 3; there the reply arrives. -/
def staleReply : List (Action 5 Nat) :=
  [.elapse 301, .tick 0 0, .launch 0 0, .run 0, .run 1, .deliver 0 0, .deliver 1 0,
    .run 0, .run 1, .run 0, .run 1, .start 0 7, .run 5, .run 5, .deliver 5 0,
    .elapse 301, .tick 2 0, .launch 2 0, .run 11, .run 12, .deliver 11 0, .deliver 12 0,
    .run 11, .run 12, .run 11, .run 12, .start 2 8, .run 14, .run 14, .deliver 14 0,
    .elapse 301, .tick 0 0, .launch 0 0, .run 20, .run 21, .deliver 20 0, .deliver 21 0,
    .run 20, .run 21, .run 20, .run 21, .run 5]

theorem matchIndex_unsound :
    ∃ past, ∃ s : Sys 5 Nat, Run past s ∧ (s.rafts 0).identity = .leader ∧
      (s.rafts 1).currentTerm ≤ (s.rafts 0).currentTerm ∧ (s.rafts 0).matchIndex 1 = 1 ∧
      ((s.rafts 1).logEntries[1]?).map LogEntry.term = some 1 ∧
      ((s.rafts 0).logEntries[1]?).map LogEntry.term = some 2 :=
  ⟨_, _, trace_run (fun _ => 0) staleReply, by decide +kernel⟩

/-- **State machine safety.**  In such a run the messages sent with one index, by whichever peers and
whenever, carry one command. -/
theorem state_machine_safety {past : List (Sys n Cmd × Action n Cmd)} {s : Sys n Cmd}
    (hr : Run past s) (horder : ∀ x ∈ past, x.1.orderly x.2 = true)
    (hstale : ∀ x ∈ past, x.1.creditsStale x.2 = false)
    (hlate : ∀ x ∈ past, x.1.encodesLate x.2 = false) {i j : Fin n} {m m' : ApplyMsg Cmd}
    (hm : (i, m) ∈ s.applied) (hm' : (j, m') ∈ s.applied)
    (hidx : m.commandIndex = m'.commandIndex) : m.command = m'.command := by
  obtain ⟨A, hA⟩ := run_recounts True hr hlate (orderly_oneLeader hr horder) (fun _ => horder)
    fun _ => hstale
  obtain ⟨e, he, hc⟩ := hA.rel.applied trivial _ hm
  obtain ⟨e', he', hc'⟩ := hA.rel.applied trivial _ hm'
  have hsame : e = e' := by
    refine (hA.rel.safe trivial).chosen_unique he ?_
    have h2 : A.Chosen (quorums n) m'.commandIndex e' := he'
    rwa [← hidx] at h2
  rw [hc, hc', hsame]

theorem state_machine_safety_firstCommand :
    (0, ⟨true, some 7, 1⟩) ∈ (trace (fun _ => 0) firstCommand).2.applied ∧
      (1, ⟨true, some 7, 1⟩) ∈ (trace (fun _ => 0) firstCommand).2.applied ∧
      (⟨true, some 7, 1⟩ : ApplyMsg Nat).command = (⟨true, some 7, 1⟩ : ApplyMsg Nat).command := by
  have h0 : (0, ⟨true, some 7, 1⟩) ∈ (trace (fun _ => 0) firstCommand).2.applied := by
    decide +kernel
  have h1 : (1, ⟨true, some 7, 1⟩) ∈ (trace (fun _ => 0) firstCommand).2.applied := by
    decide +kernel
  exact ⟨h0, h1, state_machine_safety (trace_run _ firstCommand) (by decide +kernel)
    (by decide +kernel) (by decide +kernel) h0 h1 rfl⟩

/-- The two leaders of one term each commit a command of their own at index 1, with the vote of peer 1,
which keeps the first: the other has the same term. -/
def twoCommands : List (Action 3 Nat) :=
  lateVote ++ [.start 0 7, .start 2 8, .run 10, .run 10, .deliver 10 0, .run 10, .run 13, .run 13,
    .deliver 13 0, .run 13]

theorem two_commands_at_one_index :
    ∃ past, ∃ s : Sys 3 Nat, Run past s ∧ (0, ⟨true, some 7, 1⟩) ∈ s.applied ∧
      (2, ⟨true, some 8, 1⟩) ∈ s.applied :=
  ⟨_, _, trace_run (fun _ => 0) twoCommands, by decide +kernel⟩

/-! ## 4. What a leader holds -/

/-- **Leader completeness.**  In an orderly run in which requests are encoded and replies credited in
the term of the request only, whatever any peer has applied is in the log of a leader that no peer is ahead of. -/
theorem leader_completeness {past : List (Sys n Cmd × Action n Cmd)} {s : Sys n Cmd}
    (hr : Run past s) (horder : ∀ x ∈ past, x.1.orderly x.2 = true)
    (hstale : ∀ x ∈ past, x.1.creditsStale x.2 = false)
    (hlate : ∀ x ∈ past, x.1.encodesLate x.2 = false) {i L : Fin n} {m : ApplyMsg Cmd}
    (hm : (i, m) ∈ s.applied) (hL : (s.rafts L).identity = .leader)
    (hnewest : ∀ j, (s.rafts j).currentTerm ≤ (s.rafts L).currentTerm) :
    ∃ e, (s.rafts L).logEntries[m.commandIndex]? = some e ∧ e.command = m.command := by
  obtain ⟨A, hA⟩ := run_recounts True hr hlate (orderly_oneLeader hr horder) (fun _ => horder)
    fun _ => hstale
  have hsafe := hA.rel.safe trivial
  have hserver := hA.rel.servers L
  have hlead := hserver.leads hL
  have hown : A.leaderLog (s.rafts L).currentTerm = (s.rafts L).logEntries := by
    rw [← hserver.log]
    exact ((hsafe.own _ L hlead).2 hserver.term).symm
  obtain ⟨e, ⟨U, k, hc, hk, he⟩, hcommand⟩ := hA.rel.applied trivial _ hm
  refine ⟨e, ?_, hcommand.symm⟩
  rw [← hown]
  -- the leader that committed the entry is not ahead
  have hU : U ≤ (s.rafts L).currentTerm := by
    rcases Nat.eq_zero_or_pos U with rfl | hpos
    · exact Nat.zero_le _
    · obtain ⟨c, hled⟩ := Option.isSome_iff_exists.mp (hsafe.committed_led hc hpos)
      have hterm := (hsafe.own _ c hled).1
      rw [(hA.rel.servers c).term] at hterm
      exact hterm.trans (hnewest c)
  rcases Nat.eq_or_lt_of_le hU with rfl | hlt
  · exact he
  · have hp := hsafe.leader_complete hc _ hlt (by rw [hlead]; rfl)
    exact take_prefix_getElem? hp (Nat.lt_succ_of_le hk) he

theorem leader_completeness_firstCommand :
    (1, ⟨true, some 7, 1⟩) ∈ (trace (fun _ => 0) firstCommand).2.applied ∧
      ∃ e, ((trace (fun _ => 0) firstCommand).2.rafts 0).logEntries[1]? = some e ∧
        e.command = some 7 := by
  have hm : (1, ⟨true, some 7, 1⟩) ∈ (trace (fun _ => 0) firstCommand).2.applied := by
    decide +kernel
  exact ⟨hm, leader_completeness (trace_run _ firstCommand) (by decide +kernel)
    (by decide +kernel) (by decide +kernel) hm (by decide +kernel) (by decide +kernel)⟩

end Sys

end Raft
