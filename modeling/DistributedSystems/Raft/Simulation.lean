import DistributedSystems.Raft.Relation

/-!
# Every step of the cluster is a step of the replicated log

Two more steps that break the correspondence are named here: a reply credited in another term than its
request was sent in, and a request encoded after its sender has left the term of it.
-/

namespace Raft

open ReplicatedLog Function

variable {n : Nat} {Cmd : Type} {tracked : Prop} {A A' : Cluster (Fin n) (LogEntry Cmd)}
  {i : Fin n} {rf rf' : Server n Cmd}

/-! ## 1. One peer -/

/-- The peer `i` comes to the state `rf'` by abstract steps that make no leader. -/
structure Follows (tracked : Prop) (A : Cluster (Fin n) (LogEntry Cmd)) (i : Fin n)
    (rf' : Server n Cmd) (A' : Cluster (Fin n) (LogEntry Cmd)) : Prop where
  steps : Cluster.Steps (MayLead tracked) i A A'
  leaderOf : A'.leaderOf = A.leaderOf
  server : ServerOK tracked A' i rf'

theorem ServerOK.congr (h : ServerOK tracked A i rf)
    (hterm : rf'.currentTerm = rf.currentTerm) (hlog : rf'.logEntries = rf.logEntries)
    (hid : rf'.identity = .leader → rf.identity = .leader) (hvote : tracked → rf'.votedFor = rf.votedFor)
    (hmatch : tracked → rf'.matchIndex = rf.matchIndex ∨ rf'.matchIndex = fun _ => 0)
    (hcommit : tracked → rf'.commitIndex = rf.commitIndex ∨ rf'.commitIndex = 0) :
    ServerOK tracked A i rf' := by
  refine ⟨h.term.trans hterm.symm, h.log.trans hlog.symm, fun hl => ?_, fun hel c hc => ?_,
    fun hel hn => ?_, fun hc hl j => ?_, fun hc => ?_⟩
  · rw [hterm]
    exact h.leads (hid hl)
  · rw [hterm]
    exact h.voted hel c ((hvote hel).symm.trans hc)
  · rw [hterm]
    exact h.unvoted hel ((hvote hel).symm.trans hn)
  · rw [hterm] at hl ⊢
    rcases hmatch hc with he | he
    · rw [he]
      exact h.matched hc hl j
    · rw [he]
      exact Or.inl rfl
  · rw [hterm, hlog]
    rcases hcommit hc with he | he
    · rw [he]
      exact h.settled hc
    · exact Or.inl he

theorem ServerOK.relog (h : ServerOK tracked A i rf)
    (hterm : rf'.currentTerm = rf.currentTerm) (hid : rf'.identity = rf.identity)
    (hvote : rf'.votedFor = rf.votedFor) (hmatch : rf'.matchIndex = rf.matchIndex)
    (hA : A'.term i = A.term i ∧ A'.leaderOf = A.leaderOf ∧ A'.votes i = A.votes i)
    (hack : ∀ j T m, A.acked j T m → A'.acked j T m) (hlog : A'.log i = rf'.logEntries)
    (hset : tracked → A'.Settled (quorums n) rf'.currentTerm rf'.logEntries rf'.commitIndex) :
    ServerOK tracked A' i rf' := by
  obtain ⟨hA1, hA2, hA3⟩ := hA
  refine ⟨(hA1.trans h.term).trans hterm.symm, hlog, fun hl => ?_, ?_, ?_, fun hc hl j => ?_, hset⟩
  · rw [hA2, hterm]
    exact h.leads (hid.symm.trans hl)
  · rw [hA3, hterm, hvote]
    exact h.voted
  · rw [hA3, hterm, hvote]
    exact h.unvoted
  · rw [hA2, hterm] at hl
    rw [hmatch, hterm]
    exact (h.matched hc hl j).imp_right (hack _ _ _)

theorem follows_convert (hinv : Cluster.LogInv Server.sentinel A)
    (hsafe : tracked → Cluster.SafeInv (quorums n) Server.sentinel A)
    (h : ServerOK tracked A i rf) {T : Nat} (hT : rf.currentTerm < T) :
    Follows tracked A i (rf.convertToFollower T) (A.bump i T) := by
  have hlt : A.term i < T := by rw [h.term]; exact hT
  refine ⟨.single (.bump hlt), rfl, ?_, h.log, fun hl => ?_, fun _ c hc => ?_, fun hel _ => ?_,
    fun _ hl j => ?_, fun hc => ?_⟩
  · exact update_self i T A.term
  · contradiction
  · contradiction
  · -- no vote was given in a term that lies ahead
    by_contra hv
    obtain ⟨v, hv⟩ := Option.ne_none_iff_exists'.mp hv
    have hle := (hsafe hel).voteTerm i T v hv
    omega
  · have hle := (hinv.own T i hl).1
    omega
  · exact (h.settled hc).lasts (Cluster.local_bump hlt).toExtends hT.le List.prefix_rfl

theorem follows_enterTerm (hinv : Cluster.LogInv Server.sentinel A)
    (hsafe : tracked → Cluster.SafeInv (quorums n) Server.sentinel A)
    (h : ServerOK tracked A i rf) (T : Nat) :
    ∃ A', Follows tracked A i (rf.enterTerm T) A' := by
  unfold Server.enterTerm
  split
  · rename_i hT
    exact ⟨_, follows_convert hinv hsafe h hT⟩
  · exact ⟨A, .refl, rfl, h⟩

variable {args : AppendEntriesArgs n Cmd} {reply : RequestVoteReply}

theorem follows_requestVote (hinv : Cluster.LogInv Server.sentinel A)
    (hsafe : tracked → Cluster.SafeInv (quorums n) Server.sentinel A)
    (h : ServerOK tracked A i rf) {now rnd : Nat} {args : RequestVoteArgs n}
    (ho : Server.VoteOutcome now rnd rf args rf' reply) (hstand : tracked →
      A.Standing args.term ⟨args.candidateId, args.lastLogTerm, args.lastLogIndex, []⟩) :
    ∃ A', Follows tracked A i rf' A' := by
  cases ho with
  | stale _ => exact ⟨A, .refl, rfl, h⟩
  | refused hle => exact follows_enterTerm hinv hsafe h args.term
  | granted hle hup hfree =>
    obtain ⟨A1, hf⟩ := follows_enterTerm hinv hsafe h args.term
    have hterm := Server.enterTerm_currentTerm hle
    by_cases hel : tracked
    · rcases hfree with hnone | hsome
      · -- the first vote of the peer in this term
        have hA1 : A1.term i = args.term := hf.server.term.trans hterm
        have hfresh : A1.votes i (A1.term i) = none := by
          rw [hf.server.term]
          exact hf.server.unvoted hel hnone
        have hlog1 : A1.log i = rf.logEntries := by
          rw [hf.server.log, Server.enterTerm_logEntries]
        let v : Vote (Fin n) (LogEntry Cmd) :=
          ⟨args.candidateId, args.lastLogTerm, args.lastLogIndex, A1.log i⟩
        have hst : A1.Standing (A1.term i) v := by
          rw [hA1]
          exact ((hinv.steps hf.steps).2).standing _ _ (hstand hel)
        have hstep : Cluster.Step (MayLead tracked) i A1 (A1.castVote i v) :=
          .vote hfresh rfl (by rw [hlog1]; exact hup) hst
        have hvote : (A1.castVote i v).votes i (rf.enterTerm args.term).currentTerm = some v := by
          rw [← hf.server.term]
          simp only [Cluster.castVote, update_self]
        have hext := (Cluster.local_castVote (v := v) hfresh).toExtends
        refine ⟨A1.castVote i v, hf.steps.tail hstep, hf.leaderOf, hf.server.term, hf.server.log,
          fun hl => ?_, fun _ c hc => ?_, fun _ hn => ?_, hf.server.matched,
          fun hc => (hf.server.settled hc).lasts hext le_rfl List.prefix_rfl⟩
        · contradiction
        · obtain rfl := Option.some.inj hc
          exact ⟨v, hvote, rfl⟩
        · contradiction
      · -- the peer votes for the same candidate again
        refine ⟨A1, hf.steps, hf.leaderOf, ?_⟩
        exact hf.server.congr rfl rfl (fun hl => by contradiction) (fun _ => hsome.symm)
          (fun _ => Or.inl rfl) fun _ => Or.inl rfl
    · refine ⟨A1, hf.steps, hf.leaderOf, ?_⟩
      exact hf.server.congr rfl rfl (fun hl => by contradiction) (fun hc => absurd hc hel)
        (fun _ => Or.inl rfl) fun _ => Or.inl rfl

theorem follows_appendEntries (hinv : Cluster.LogInv Server.sentinel A)
    (hsafe : tracked → Cluster.SafeInv (quorums n) Server.sentinel A)
    (h : ServerOK tracked A i rf) {owner : Fin n} (hne : i ≠ owner) {now rnd : Nat}
    {reply : AppendEntriesReply} {msgs : List (ApplyMsg Cmd)}
    (ho : Server.AppendOutcome now rnd rf args rf' reply msgs) (hcar : Carries tracked A True owner args) :
    ∃ A', Follows tracked A i rf' A' ∧
      (reply.success = true → A'.acked i args.term (args.prevLogIndex + args.entries.length)) ∧
      (tracked → ∀ m ∈ msgs, ∃ e, A'.Chosen (quorums n) m.commandIndex e ∧
        m.command = e.command) := by
  have hnil : ∀ B : Cluster (Fin n) (LogEntry Cmd), tracked → ∀ m ∈ ([] : List (ApplyMsg Cmd)),
      ∃ e, B.Chosen (quorums n) m.commandIndex e ∧ m.command = e.command :=
    fun _ _ m hm => absurd hm List.not_mem_nil
  cases ho with
  | stale _ =>
    exact ⟨A, ⟨.refl, rfl, h⟩, fun hs => absurd hs Bool.false_ne_true, hnil A⟩
  | short hle hlog =>
    obtain ⟨A1, hf⟩ := follows_enterTerm hinv hsafe h args.term
    refine ⟨A1, ⟨hf.steps, hf.leaderOf, ?_⟩, fun hs => absurd hs Bool.false_ne_true, hnil A1⟩
    exact hf.server.congr rfl rfl id (fun _ => rfl) (fun _ => Or.inl rfl) fun _ => Or.inl rfl
  | @conflict e first hle hlog hmis =>
    obtain ⟨A1, hf⟩ := follows_enterTerm hinv hsafe h args.term
    obtain ⟨hinv1, hloc⟩ := hinv.steps hf.steps
    have hcar1 : Carries tracked A1 True owner args := hcar.lasts hloc.toExtends id
    have hA1 : A1.term i = args.term := hf.server.term.trans (Server.enterTerm_currentTerm hle)
    have hlead : A1.leaderOf (A1.term i) = some owner := by rw [hA1]; exact hcar1.leader
    have hlog1 : A1.log i = rf.logEntries := by
      rw [hf.server.log, Server.enterTerm_logEntries]
    obtain ⟨e', he', ht'⟩ := hcar1.prev
    have hj : (A1.log i)[args.prevLogIndex]? = some e := by rw [hlog1]; exact hlog
    have hll : (A1.leaderLog (A1.term i))[args.prevLogIndex]? = some e' := by rw [hA1]; exact he'
    have hdiff : termOf e ≠ termOf e' := by
      change e.term ≠ e'.term
      rw [ht']
      exact hmis
    have hstep : Cluster.Step (MayLead tracked) i A1
        (A1.setLog i ((A1.log i).take args.prevLogIndex)) :=
      .truncate hlead hne.symm hj hll hdiff
    refine ⟨_, ⟨hf.steps.tail hstep, hf.leaderOf, ?_⟩, fun hs => absurd hs Bool.false_ne_true,
      hnil _⟩
    refine hf.server.relog rfl rfl rfl rfl ⟨rfl, rfl, rfl⟩ (fun _ _ _ ha => ha) ?_ fun hc => ?_
    · rw [hlog1]
      exact update_self i _ A1.log
    · -- the settled part is the leader's too, so it ends before the mismatch
      have hset := hf.server.settled hc
      rw [Server.enterTerm_currentTerm hle, Server.enterTerm_logEntries] at hset
      have hsafe1 := (hsafe hc).steps
        (Relation.ReflTransGen.mono (fun _ _ hs => hs.mono fun _ _ hP => hP hc) _ _ hf.steps)
      have hkeep : A1.Settled (quorums n) args.term (rf.logEntries.take args.prevLogIndex)
          (rf.enterTerm args.term).commitIndex :=
        hsafe1.settled_leader hset (by rw [hcar1.leader]; rfl)
          fun p hp hp' => prefix_take_of_ne hp' hp hlog he' fun he => hdiff (by rw [he])
      exact hkeep.lasts (Cluster.local_setLog hlead).toExtends
        (Server.enterTerm_currentTerm hle).ge List.prefix_rfl
  | @accepted e rf1 rf2 _ hle hlog heq hloop hcommit =>
    obtain ⟨A1, hf⟩ := follows_enterTerm hinv hsafe h args.term
    obtain ⟨hinv1, hloc⟩ := hinv.steps hf.steps
    have hcar1 : Carries tracked A1 True owner args := hcar.lasts hloc.toExtends id
    have hterm := Server.enterTerm_currentTerm hle
    have hA1 : A1.term i = args.term := hf.server.term.trans hterm
    have hlead : A1.leaderOf (A1.term i) = some owner := by rw [hA1]; exact hcar1.leader
    have hlog1 : A1.log i = rf.logEntries := by
      rw [hf.server.log, Server.enterTerm_logEntries]
    obtain ⟨e', he', ht'⟩ := hcar1.prev
    have hm : Matches A1.leaderLog rf.logEntries := hlog1 ▸ hinv1.logMatches i
    -- the peer agrees with the leader up to `prevLogIndex`, so the loop grafts the rest
    have hpre : (A1.leaderLog args.term).take (args.prevLogIndex + 1) <+: rf.logEntries := by
      rw [← hm.agree (hinv1.leaderMatches args.term) hlog he' (heq.trans ht'.symm)]
      exact List.take_prefix _ _
    have hg : Cluster.Grafted rf.logEntries (A1.leaderLog args.term)
        (args.prevLogIndex + 1 + args.entries.length) rf1.logEntries := by
      have hg := Server.appendLoop_grafted (hinv1.leaderMatches args.term) hcar1.reach hloop
        (hcar1.entries trivial) rfl
      rw [Server.heard_logEntries] at hg
      exact hg hm hpre
    have hstep : Cluster.Step (MayLead tracked) i A1
        ((A1.setLog i rf1.logEntries).ack i (args.prevLogIndex + 1 + args.entries.length - 1)) := by
      refine .accept hlead hne.symm (by omega) ?_ ?_
      · rw [hA1]
        exact hcar1.reach
      · rw [hA1, hlog1]
        exact hg
    obtain ⟨hr1, _⟩ := Server.appendLoop_spec hloop
    obtain ⟨hr2, hci, hmsgs⟩ := Server.followCommit_spec hcommit
    have hext : Cluster.Extends A1
        ((A1.setLog i rf1.logEntries).ack i (args.prevLogIndex + 1 + args.entries.length - 1)) :=
      (hstep.isLocal hinv1).toExtends
    have hsame : rf2.currentTerm = (rf.enterTerm args.term).currentTerm ∧
        rf2.identity = (rf.enterTerm args.term).identity ∧
        rf2.votedFor = (rf.enterTerm args.term).votedFor ∧
        rf2.matchIndex = (rf.enterTerm args.term).matchIndex ∧
        rf1.commitIndex = (rf.enterTerm args.term).commitIndex := by
      rw [hr2, hr1]
      exact ⟨rfl, rfl, rfl, rfl, rfl⟩
    obtain ⟨hs1, hs2, hs3, hs4, hs5⟩ := hsame
    have hlog2 : rf2.logEntries = rf1.logEntries := by rw [hr2]
    have hset : tracked → A1.Settled (quorums n) args.term rf1.logEntries rf2.commitIndex := by
      intro hc
      rcases hci with hci | hci
      · -- what was settled before is the leader's too and survives the graft
        have hset := hf.server.settled hc
        rw [hterm, Server.enterTerm_logEntries] at hset
        have hsafe1 := (hsafe hc).steps
          (Relation.ReflTransGen.mono (fun _ _ hs => hs.mono fun _ _ hP => hP hc) _ _ hf.steps)
        rw [hci, hs5]
        exact hsafe1.settled_leader hset (by rw [hcar1.leader]; rfl) fun p hp hp' => hg.keeps hp hp'
      · obtain ⟨hlc, hset⟩ := hcar1.commit hc
        have hlen := hg.holds.length_le
        rw [List.length_take, min_eq_left hcar1.reach] at hlen
        rw [hci, min_eq_left (by omega)]
        exact hset.restrict (by omega) hg.holds
    refine ⟨_, ⟨hf.steps.tail hstep, hf.leaderOf, ?_⟩, fun _ => Or.inr ⟨rfl, ?_, ?_⟩,
      fun hc m hmm => ?_⟩
    · refine hf.server.relog hs1 hs2 hs3 hs4 ⟨rfl, rfl, rfl⟩ hext.acked ?_ fun hc => ?_
      · change update A1.log i rf1.logEntries i = rf2.logEntries
        rw [update_self, hlog2]
      · rw [hs1, hlog2]
        exact (hset hc).lasts hext hterm.ge List.prefix_rfl
    · exact hA1.symm
    · omega
    · obtain ⟨h0, hle', x, hx, hcmd⟩ := hmsgs m hmm
      exact ⟨x, ((hset hc).chosen h0 hle' hx).lasts hext, hcmd⟩

theorem follows_start (h : ServerOK tracked A i rf) (hinv : Cluster.LogInv Server.sentinel A)
    (hme : rf.me = i) (hl : rf.identity = .leader) (command : Cmd) :
    ∃ A', Follows tracked A i (rf.start command).1 A' := by
  have hlead : A.leaderOf (A.term i) = some i := by rw [h.term]; exact h.leads hl
  let e : LogEntry Cmd := ⟨rf.currentTerm, some command⟩
  have he : termOf e = A.term i := h.term.symm
  have hstep : Cluster.Step (MayLead tracked) i A (A.append i e) := .append hlead he
  have hext := (hstep.isLocal hinv).toExtends
  refine ⟨A.append i e, .single hstep, rfl, ?_⟩
  unfold Server.start
  rw [if_neg (not_not.mpr hl)]
  refine ⟨h.term, ?_, h.leads, h.voted, h.unvoted, fun hc _ j => ?_, fun hc => ?_⟩
  · change update A.log i (A.log i ++ [e]) i = rf.logEntries ++ [e]
    rw [update_self, h.log]
  · change update rf.matchIndex rf.me _ j = 0 ∨
      (A.append i e).acked j rf.currentTerm (update rf.matchIndex rf.me _ j)
    by_cases hj : j = i
    · subst hj
      rw [hme, update_self]
      refine Or.inr (Or.inr ⟨rfl, h.term.symm, ?_⟩)
      rw [h.log, List.length_append, List.length_singleton, Nat.add_sub_cancel]
    · rw [hme, update_of_ne hj]
      exact (h.matched hc (h.leads hl) j).imp_right (hext.acked _ _ _)
  · exact (h.settled hc).lasts hext le_rfl (List.prefix_append _ _)

theorem credit_server (h : ServerOK tracked A i rf) (hinv : Cluster.LogInv Server.sentinel A)
    {peer : Fin n} {nextIndex : Fin n → Nat} {msgs : List (ApplyMsg Cmd)} (hupd : ({ rf with
      nextIndex := nextIndex
      matchIndex := update rf.matchIndex peer
        (args.prevLogIndex + args.entries.length) } : Server n Cmd).updateCommitIndex =
        some (rf', msgs)) (hcar : Carries tracked A True i args)
    (hack : A.acked peer args.term (args.prevLogIndex + args.entries.length))
    (hT : tracked → args.term = rf.currentTerm) :
    ServerOK tracked A i rf' ∧ (tracked → ∀ m ∈ msgs,
      ∃ e, A.Chosen (quorums n) m.commandIndex e ∧ m.command = e.command) := by
  obtain ⟨hr, hci, hmsgs⟩ := Server.updateCommitIndex_spec hupd
  have hmatched : tracked → ∀ j, update rf.matchIndex peer
      (args.prevLogIndex + args.entries.length) j = 0 ∨ A.acked j rf.currentTerm
        (update rf.matchIndex peer (args.prevLogIndex + args.entries.length) j) := by
    intro hc j
    by_cases hj : j = peer
    · subst hj
      rw [update_self, ← hT hc]
      exact Or.inr hack
    · rw [update_of_ne hj]
      exact h.matched hc (hT hc ▸ hcar.leader) j
  have hset : tracked → A.Settled (quorums n) rf.currentTerm rf.logEntries rf'.commitIndex := by
    intro hc
    rcases hci with hci | ⟨hcard, e, he, hte⟩
    · rw [hci]
      exact h.settled hc
    · rcases Nat.eq_zero_or_pos rf'.commitIndex with h0 | hpos
      · exact Or.inl h0
      · -- a quorum acknowledged an entry of the leader's own term
        have hown : A.leaderLog rf.currentTerm = rf.logEntries := by
          rw [← h.log]
          exact ((hinv.own rf.currentTerm i (hT hc ▸ hcar.leader)).2 h.term).symm
        refine Or.inr ⟨rf.currentTerm, rf'.commitIndex, ⟨⟨_, hcard, fun j hj => ?_⟩, e, ?_, hte⟩,
          le_rfl, le_rfl, ?_⟩
        · have hle : rf'.commitIndex ≤ update rf.matchIndex peer
              (args.prevLogIndex + args.entries.length) j := (Finset.mem_filter.mp hj).2
          rcases hmatched hc j with h0 | ha
          · rw [h0] at hle
            omega
          · exact ⟨_, hle, ha⟩
        · rw [hown]
          exact he
        · rw [hown]
          exact List.take_prefix _ _
  refine ⟨?_, fun hc m hm => ?_⟩
  · rw [hr]
    exact ⟨h.term, h.log, h.leads, h.voted, h.unvoted, fun hc _ => hmatched hc, hset⟩
  · obtain ⟨h0, hle, x, hx, hcmd⟩ := hmsgs m hm
    exact ⟨x, (hset hc).chosen h0 hle hx, hcmd⟩

theorem lead_server (rf' : Server n Cmd) (h : ServerOK tracked A i rf)
    (hinv : Cluster.LogInv Server.sentinel A) (hpos : 0 < rf.currentTerm)
    (hel : tracked → A.Elected (quorums n) i) (hsole : ∀ d, A.leaderOf rf.currentTerm = some d → d = i)
    (hterm : rf'.currentTerm = rf.currentTerm) (hlog : rf'.logEntries = rf.logEntries)
    (hvote : rf'.votedFor = rf.votedFor) (hmatch : tracked → rf'.matchIndex = fun _ => 0)
    (hcommit : rf'.commitIndex = rf.commitIndex) :
    ∃ A', Cluster.Steps (MayLead tracked) i A A' ∧ ServerOK tracked A' i rf' ∧
      ∀ T c, A'.leaderOf T = some c → A.leaderOf T = some c ∨ (c = i ∧ T = rf.currentTerm) := by
  have hlead : ∃ A', Cluster.Steps (MayLead tracked) i A A' ∧ A'.term = A.term ∧ A'.log = A.log ∧
      A'.votes = A.votes ∧ A'.leaderOf rf.currentTerm = some i ∧
      ∀ T c, A'.leaderOf T = some c → A.leaderOf T = some c ∨ (c = i ∧ T = rf.currentTerm) := by
    cases hd : A.leaderOf rf.currentTerm with
    | none =>
      rw [← h.term] at hd hpos ⊢
      have hstep : Cluster.Step (MayLead tracked) i A (A.lead i) := .lead hpos hd hel
      refine ⟨A.lead i, .single hstep, rfl, rfl, rfl, update_self _ _ _, fun T c hc => ?_⟩
      by_cases hT : T = A.term i
      · subst hT
        simp only [Cluster.lead, update_self, Option.some.injEq] at hc
        exact Or.inr ⟨hc.symm, rfl⟩
      · simp only [Cluster.lead, update_of_ne hT] at hc
        exact Or.inl hc
    | some d =>
      obtain rfl := hsole d hd
      exact ⟨A, .refl, rfl, rfl, rfl, hd, fun _ _ hc => Or.inl hc⟩
  obtain ⟨A', hs, h1, h2, h3, h4, h5⟩ := hlead
  have hext := (hinv.steps hs).2.toExtends
  refine ⟨A', hs, ⟨?_, ?_, fun _ => ?_, ?_, ?_, fun hc _ j => ?_, fun hc => ?_⟩, h5⟩
  · rw [h1, hterm]
    exact h.term
  · rw [h2, hlog]
    exact h.log
  · rw [hterm]
    exact h4
  · rw [h3, hterm, hvote]
    exact h.voted
  · rw [h3, hterm, hvote]
    exact h.unvoted
  · rw [hmatch hc]
    exact Or.inl rfl
  · rw [hterm, hlog, hcommit]
    exact (h.settled hc).lasts hext le_rfl List.prefix_rfl

theorem launch_server (h : ServerOK tracked A i rf)
    (hinv : Cluster.LogInv Server.sentinel A)
    (hsafe : tracked → Cluster.SafeInv (quorums n) Server.sentinel A) (hme : rf.me = i)
    (hguard : tracked → rf.identity ≠ .leader)
    (hsole : rf.identity = .leader → ∀ d, A.leaderOf (rf.currentTerm + 1) = some d → d = i)
    (now rnd : Nat) :
    ∃ A', Cluster.Steps (MayLead tracked) i A A' ∧
      ServerOK tracked A' i (rf.launchElection now rnd) ∧
      ∀ T c, A'.leaderOf T = some c → A.leaderOf T = some c ∨
        (c = i ∧ T = rf.currentTerm + 1 ∧ rf.identity = .leader) := by
  have hb := follows_convert hinv hsafe h (Nat.lt_succ_self rf.currentTerm)
  obtain ⟨hinv1, _⟩ := hinv.steps hb.steps
  by_cases hel : tracked
  · -- the candidate votes for itself
    let B := A.bump i (rf.currentTerm + 1)
    have hB : B.term i = rf.currentTerm + 1 := hb.server.term
    have hfresh : B.votes i (B.term i) = none := by
      rw [hB]
      exact hb.server.unvoted hel rfl
    let v : Vote (Fin n) (LogEntry Cmd) :=
      ⟨i, lastTerm (B.log i), (B.log i).length - 1, B.log i⟩
    have hstep : Cluster.Step (MayLead tracked) i B (B.castVote i v) :=
      .vote hfresh rfl (Or.inr ⟨rfl, le_rfl⟩) ⟨le_rfl, fun _ _ => ⟨rfl, rfl⟩⟩
    have hvote : (B.castVote i v).votes i (rf.currentTerm + 1) = some v := by
      rw [← hB]
      simp only [Cluster.castVote, update_self]
    have hext := (hstep.isLocal hinv1).toExtends
    refine ⟨B.castVote i v, hb.steps.tail hstep, ?_, fun T c hc => Or.inl hc⟩
    refine ⟨hB, hb.server.log, fun hl => absurd hl (hguard hel), fun _ c hc => ?_, fun _ hn => ?_,
      hb.server.matched, fun hc => (hb.server.settled hc).lasts hext le_rfl List.prefix_rfl⟩
    · obtain rfl := Option.some.inj hc
      exact ⟨v, hvote, hme.symm⟩
    · contradiction
  · by_cases hl : rf.identity = .leader
    · -- a leader that calls itself a candidate stays a leader, now of the next term
      obtain ⟨A', hs, hok, hlead⟩ := lead_server
        { rf.convertToFollower (rf.currentTerm + 1) with identity := rf.identity }
        hb.server hinv1 (Nat.succ_pos _) (fun hc => absurd hc hel)
        (fun d hd => hsole hl d hd) rfl rfl rfl (fun hc => absurd hc hel) rfl
      refine ⟨A', hb.steps.trans hs, ?_, fun T c hc => ?_⟩
      · exact hok.congr rfl rfl id (fun hc => absurd hc hel) (fun hc => absurd hc hel)
          fun hc => absurd hc hel
      · rcases hlead T c hc with hc | ⟨h1, h2⟩
        · exact Or.inl hc
        · exact Or.inr ⟨h1, h2, hl⟩
    · refine ⟨_, hb.steps, ?_, fun T c hc => Or.inl hc⟩
      exact hb.server.congr rfl rfl (fun h' => absurd h' hl) (fun hc => absurd hc hel)
        (fun hc => absurd hc hel) fun hc => absurd hc hel

/-! ## 2. Requests -/

theorem carries_replicateArgs {live : Prop} (h : ServerOK tracked A i rf)
    (hinv : Cluster.LogInv Server.sentinel A) (hl : rf.identity = .leader) {peer : Fin n}
    (hargs : rf.replicateArgs peer = some (some args)) :
    Carries tracked A live i args := by
  have hlead := h.leads hl
  have hown : A.leaderLog rf.currentTerm = rf.logEntries := by
    rw [← h.log]
    exact ((hinv.own rf.currentTerm i hlead).2 h.term).symm
  unfold Server.replicateArgs at hargs
  split at hargs
  · rename_i hlt
    split at hargs
    · contradiction
    · rename_i prev hprev
      obtain ⟨e, he, hargs⟩ := Option.map_eq_some_iff.mp hargs
      obtain rfl := Option.some.inj hargs
      have hlen : prev + 1 + (rf.logEntries.drop (prev + 1)).length = rf.logEntries.length := by
        rw [List.length_drop]
        omega
      refine ⟨hlead, ?_, ⟨e, ?_, rfl⟩, fun _ => ?_, fun hc => ⟨?_, ?_⟩⟩
      · rw [hown]
        exact hlen.le
      · rw [hown]
        exact he
      · rw [hown, hlen, List.take_length]
      · have hci := (h.settled hc).lt_length (by omega)
        change rf.commitIndex ≤ prev + (rf.logEntries.drop (prev + 1)).length
        omega
      · rw [hown]
        exact h.settled hc
  · cases hargs

theorem carries_heartbeatArgs {live : Prop} (h : ServerOK tracked A i rf)
    (hinv : Cluster.LogInv Server.sentinel A) (hl : rf.identity = .leader)
    (hargs : rf.heartbeatArgs = some args) :
    Carries tracked A live i args := by
  have hlead := h.leads hl
  have hown : A.leaderLog rf.currentTerm = rf.logEntries := by
    rw [← h.log]
    exact ((hinv.own rf.currentTerm i hlead).2 h.term).symm
  obtain ⟨e, he, rfl⟩ := Option.map_eq_some_iff.mp hargs
  have hpos := (List.getElem?_eq_some_iff.mp he).1
  have hlen : rf.logEntries.length - 1 + 1 + ([] : List (LogEntry Cmd)).length =
      rf.logEntries.length := by
    rw [List.length_nil]
    omega
  refine ⟨hlead, ?_, ⟨e, ?_, rfl⟩, fun _ => ?_, fun hc => ⟨?_, ?_⟩⟩
  · rw [hown]
    exact hlen.le
  · rw [hown]
    exact he
  · have hend : rf.logEntries.length ≤ rf.logEntries.length - 1 + 1 := by omega
    rw [hown, hlen, List.take_length]
    exact (List.drop_eq_nil_of_le hend).symm
  · have hci := (h.settled hc).lt_length (by omega)
    change rf.commitIndex ≤ rf.logEntries.length - 1 + ([] : List (LogEntry Cmd)).length
    rw [List.length_nil]
    omega
  · rw [hown]
    exact h.settled hc

theorem standing_voteArgs (h : ServerOK tracked A i rf)
    (hinv : Cluster.LogInv Server.sentinel A) :
    A.Standing rf.voteArgs.term ⟨i, rf.voteArgs.lastLogTerm, rf.voteArgs.lastLogIndex, []⟩ := by
  have hroot := (hinv.logRoot i).length_le
  rw [h.log, List.length_singleton] at hroot
  have he : rf.logEntries[rf.logEntries.length - 1]? =
      some (rf.logEntries[rf.logEntries.length - 1]) := List.getElem?_eq_getElem (by omega)
  unfold Server.voteArgs
  rw [he]
  refine ⟨h.term.ge, fun _ _ => ?_⟩
  rw [h.log]
  exact ⟨lastTerm_eq he, rfl⟩

/-! ## 3. The steps of the cluster -/

namespace Sys

/-- The action credits a peer for a request of another term. -/
def creditsStale (s : Sys n Cmd) : Action n Cmd → Bool
  | .run t =>
    match s.threads[t]? with
    | some ⟨owner, _, _, .replicateReplied args reply⟩ =>
      decide (reply.term ≤ (s.rafts owner).currentTerm ∧ reply.success = true ∧
        args.term ≠ (s.rafts owner).currentTerm)
    | _ => false
  | _ => false

/-- The action encodes an entry of a request whose term the sender has left. -/
def encodesLate (s : Sys n Cmd) : Action n Cmd → Bool
  | .run t =>
    match s.threads[t]? with
    | some ⟨owner, _, _, .replicateSending args _ _⟩ =>
      decide (args.term ≠ (s.rafts owner).currentTerm)
    | _ => false
  | _ => false

end Sys

/-- The state `s'` corresponds to one that the abstract cluster reaches from `A`; who leads there
and did not before leads in `s'`. -/
def Advances (tracked : Prop) (A : Cluster (Fin n) (LogEntry Cmd)) (s' : Sys n Cmd) : Prop :=
  ∃ A', Cluster.Reach (MayLead tracked) A A' ∧ Rel tracked A' s' ∧
    ∀ T c, A'.leaderOf T = some c → A.leaderOf T = some c ∨
      ((s'.rafts c).identity = .leader ∧ (s'.rafts c).currentTerm = T)

variable {s s' : Sys n Cmd} {t : Nat} {th : Thread n Cmd}

/-- Nobody who leads in `s'` takes the place of a leader on record. -/
def Sole (A : Cluster (Fin n) (LogEntry Cmd)) (s' : Sys n Cmd) : Prop :=
  ∀ c d, (s'.rafts c).identity = .leader → A.leaderOf (s'.rafts c).currentTerm = some d → d = c

theorem Rel.advances (h : Rel tracked A s') : Advances tracked A s' :=
  ⟨A, .refl, h, fun _ _ hc => Or.inl hc⟩

theorem Follows.advances (hf : Follows tracked A i rf' A') (h : Rel tracked A' s') :
    Advances tracked A s' :=
  ⟨A', Cluster.reach_of_steps hf.steps, h, fun T c hc => Or.inl (by rwa [hf.leaderOf] at hc)⟩

theorem Rel.follow (h : Rel tracked A s) (hf : Follows tracked A i rf' A') :
    Rel tracked A' (s.setRaft i rf') :=
  h.setRaft hf.steps hf.server

theorem Rel.setDone (h : Rel tracked A s) (t : Nat) (th : Thread n Cmd) :
    Rel tracked A (s.setThread t { th with job := .done }) :=
  h.setThread trivial

theorem countVote_advances (h : Rel tracked A s) {e : Nat} (hs : s.countVote t e th reply = some s')
    (hpos : 0 < (s.rafts th.owner).currentTerm)
    (hel : tracked → ∀ el, s.elections[e]? = some el → reply.term ≤ (s.rafts th.owner).currentTerm →
      reply.voteGranted = true → Server.majority n ≤ el.nvotes + 1 → A.Elected (quorums n) th.owner)
    (hsole : Sole A s') : Advances tracked A s' := by
  have hserver := h.servers th.owner
  unfold Sys.countVote at hs
  split at hs
  · cases hs
  · rename_i el he
    dsimp only at hs
    split at hs
    · -- a later term: the owner steps down and the election is over
      rename_i hlt
      cases hs
      have hf := follows_convert h.inv h.safe hserver hlt
      exact hf.advances (((h.follow hf).congr _ _ _ _).setDone t th)
    · rename_i hge
      split at hs
      · rename_i hg
        split at hs
        · -- the majority is reached: the owner leads
          rename_i hmaj
          cases hs
          have hsole' : ∀ d, A.leaderOf (s.rafts th.owner).currentTerm = some d → d = th.owner := by
            intro d hd
            have hs' : ∀ (x : Sys n Cmd), x.rafts = update s.rafts th.owner
                (s.rafts th.owner).becomeLeader → Sole A x → d = th.owner := by
              intro x hx hso
              have h3 := hso th.owner d
              rw [hx, update_self] at h3
              exact h3 rfl hd
            exact hs' _ rfl hsole
          obtain ⟨A', hsteps, hok', hlead⟩ := lead_server (s.rafts th.owner).becomeLeader hserver
            h.inv hpos (fun ht => hel ht el he (Nat.le_of_not_lt hge) hg hmaj) hsole' rfl rfl rfl
            (fun _ => rfl) rfl
          have hcounted : Rel tracked A (s.setThread t { th with job := .voteCounted e }) :=
            h.setThread trivial
          have h1 := ((hcounted.setRaft hsteps hok').congr s.clock s.launching
            (s.elections.set e { el with nvotes := el.nvotes + 1, stopped := true })
            s.rounds).spawn [⟨th.owner, th.owner, true, .heartbeatLoop⟩]
            fun x hx => by rw [List.mem_singleton.mp hx]; trivial
          refine ⟨A', Cluster.reach_of_steps hsteps, h1, fun T c hc => ?_⟩
          rcases hlead T c hc with hc | ⟨rfl, rfl⟩
          · exact Or.inl hc
          · refine Or.inr ?_
            change (update s.rafts th.owner _ th.owner).identity = _ ∧
              (update s.rafts th.owner _ th.owner).currentTerm = _
            rw [update_self]
            exact ⟨rfl, rfl⟩
        · -- one vote more
          cases hs
          have hcounted : Rel tracked A (s.setThread t { th with job := .voteCounted e }) :=
            h.setThread trivial
          exact (hcounted.congr _ _ _ _).advances
      · cases hs
        exact (h.setDone t th).advances

theorem replicateReply_advances (h : Rel tracked A s) (ht : s.threads[t]? = some th)
    {reply : AppendEntriesReply} (hj : th.job = .replicateReplied args reply)
    (hs : s.replicateReply t th args reply = some s')
    (hstale : tracked → s.creditsStale (.run t) = false) : Advances tracked A s' := by
  have hok := h.threads th (List.mem_of_getElem? ht)
  unfold ThreadOK at hok
  rw [hj] at hok
  obtain ⟨hne, hcar, hack⟩ := hok
  obtain ⟨⟨rf', msgs, again⟩, hr, rfl⟩ := Option.map_eq_some_iff.mp hs
  cases Server.replicateReply_outcome hr with
  | later hlt =>
    have hf := follows_convert h.inv h.safe (h.servers th.owner) hlt
    exact hf.advances (((h.follow hf).apply fun _ m hm => absurd hm List.not_mem_nil).setDone t th)
  | credited hle hsucc hupd =>
    have hT : tracked → args.term = (s.rafts th.owner).currentTerm := by
      intro hc
      by_contra hne'
      have hl := hstale hc
      obtain ⟨owner, peer, alive, job⟩ := th
      simp only at hj
      subst hj
      simp only [Sys.creditsStale, ht, decide_eq_false_iff_not] at hl
      exact hl ⟨hle, hsucc, hne'⟩
    obtain ⟨hserver, hm⟩ := credit_server (h.servers th.owner) h.inv hupd hcar (hack hsucc) hT
    exact (((h.setRaft .refl hserver).apply hm).setDone t th).advances
  | @retried nextIndex hle hfail =>
    have hserver : ServerOK tracked A th.owner { s.rafts th.owner with nextIndex := nextIndex } :=
      (h.servers th.owner).congr rfl rfl id (fun _ => rfl) (fun _ => Or.inl rfl) fun _ => Or.inl rfl
    refine Rel.advances (((h.setRaft .refl hserver).apply
      fun _ m hm => absurd hm List.not_mem_nil).setThread ?_)
    exact hne

theorem heartbeatReply_advances (h : Rel tracked A s) (round : Nat) (reply : AppendEntriesReply) :
    Advances tracked A (s.heartbeatReply t round th reply) := by
  have hdone := h.setDone t th
  unfold Sys.heartbeatReply
  dsimp only
  split
  · rename_i hlt
    have hf := follows_convert h.inv h.safe (h.servers th.owner) hlt
    exact hf.advances (hdone.follow hf)
  · split
    · refine ((hdone.congr _ _ _ _).setRaft .refl ?_).advances
      exact (h.servers th.owner).congr rfl rfl id (fun _ => rfl) (fun _ => Or.inl rfl)
        fun _ => Or.inl rfl
    · exact (hdone.congr _ _ _ _).advances

/-- A request that is encoded in its term carries the leader's entries. -/
theorem encode_advances (h : Rel tracked A s) (ht : s.threads[t]? = some th) {read : Nat}
    {shared : Bool} (hj : th.job = .replicateSending args read shared)
    (hlate : s.encodesLate (.run t) = false) :
    Advances tracked A (s.encode t th args read shared) := by
  have hok := h.threads th (List.mem_of_getElem? ht)
  unfold ThreadOK at hok
  rw [hj] at hok
  have hnow : A.term th.owner = args.term := by
    rw [(h.servers th.owner).term]
    obtain ⟨owner, peer, alive, job⟩ := th
    simp only at hj
    subst hj
    simp only [Sys.encodesLate, ht, decide_eq_false_iff_not, not_not] at hlate
    exact hlate.symm
  unfold Sys.encode
  split
  · exact Rel.advances (h.setThread hok)
  · exact Rel.advances
      (h.setThread ⟨hok.1, hok.2.lasts (Cluster.Extends.refl A) fun _ => hnow⟩)

theorem runThread_advances (h : Rel tracked A s) (hme : ∀ i, (s.rafts i).me = i)
    (ht : s.threads[t]? = some th) (hs : s.runThread t th = some s')
    (hpos : th.ballot.isSome → 0 < (s.rafts th.owner).currentTerm)
    (hel : tracked → ∀ e el args reply, th.job = .voteArrived e args reply →
      s.elections[e]? = some el → reply.term ≤ (s.rafts th.owner).currentTerm →
      reply.voteGranted = true → Server.majority n ≤ el.nvotes + 1 → A.Elected (quorums n) th.owner)
    (hlate : s.encodesLate (.run t) = false)
    (hstale : tracked → s.creditsStale (.run t) = false) (hsole : Sole A s') :
    Advances tracked A s' := by
  have hok := h.threads th (List.mem_of_getElem? ht)
  have hserver := h.servers th.owner
  unfold Sys.runThread at hs
  split at hs
  · -- the vote request is built
    cases hs
    refine Rel.advances (h.setThread fun _ => ⟨?_, standing_voteArgs hserver h.inv⟩)
    unfold Server.voteArgs
    split <;> exact hme th.owner
  · obtain ⟨el, _, rfl⟩ := Option.map_eq_some_iff.mp hs
    refine Rel.advances (h.setThread ?_)
    cases el.stopped <;> trivial
  · rename_i e args reply hj
    exact countVote_advances h hs (hpos (by rw [Thread.ballot, hj]; rfl))
      (fun htr el he => hel htr e el args reply hj he) hsole
  · rename_i hj
    unfold ThreadOK at hok
    rw [hj] at hok
    unfold Sys.replicateTop at hs
    dsimp only at hs
    split at hs
    · cases hs
      exact (h.setDone t th).advances
    · rename_i hl
      obtain ⟨args?, hargs, rfl⟩ := Option.map_eq_some_iff.mp hs
      cases args? with
      | none => exact (h.setDone t th).advances
      | some args =>
        exact Rel.advances (h.setThread
          ⟨hok, carries_replicateArgs hserver h.inv (not_not.mp hl) hargs⟩)
  · rename_i args read shared hj
    cases hs
    exact encode_advances h ht hj hlate
  · rename_i args reply hj
    exact replicateReply_advances h ht hj hs hstale
  · cases hs
    unfold Sys.heartbeatLoop
    split
    · exact (h.setDone t th).advances
    · refine ((h.congr s.clock s.launching s.elections _).spawn _ fun x hx => ?_).advances
      obtain ⟨j, hne, rfl⟩ := Sys.mem_forPeers hx
      exact hne
  · rename_i round hj
    unfold ThreadOK at hok
    rw [hj] at hok
    unfold Sys.heartbeatReady at hs
    split at hs
    · cases hs
      exact (h.setDone t th).advances
    · rename_i hl
      obtain ⟨args, hargs, rfl⟩ := Option.map_eq_some_iff.mp hs
      exact Rel.advances (h.setThread
        ⟨hok, carries_heartbeatArgs hserver h.inv (not_not.mp hl) hargs⟩)
  · cases hs
    exact heartbeatReply_advances h _ _
  · cases hs

theorem deliver_advances (h : Rel tracked A s) (ht : s.threads[t]? = some th) {rnd : Nat}
    (hs : s.deliver t th rnd = some s') : Advances tracked A s' := by
  have hok := h.threads th (List.mem_of_getElem? ht)
  have hserver := h.servers th.peer
  unfold Sys.deliver at hs
  dsimp only at hs
  split at hs
  · cases hs
  · split at hs
    · rename_i e args hj
      obtain ⟨⟨rf', reply⟩, hr, rfl⟩ := Option.map_eq_some_iff.mp hs
      unfold ThreadOK at hok
      rw [hj] at hok
      obtain ⟨A', hf⟩ := follows_requestVote h.inv h.safe hserver
        (Server.requestVote_outcome hr) fun htr => by
          rw [(hok htr).1]
          exact (hok htr).2
      exact hf.advances ((h.follow hf).setThread trivial)
    · rename_i args hj
      obtain ⟨⟨rf', reply, msgs⟩, hr, rfl⟩ := Option.map_eq_some_iff.mp hs
      unfold ThreadOK at hok
      rw [hj] at hok
      obtain ⟨A', hf, hack, hm⟩ := follows_appendEntries h.inv h.safe hserver hok.1
        (Server.appendEntries_outcome hr) hok.2
      exact hf.advances (((h.follow hf).apply hm).setThread
        ⟨hok.1, hok.2.lasts (h.inv.steps hf.steps).2.toExtends id, hack⟩)
    · rename_i round args hj
      obtain ⟨⟨rf', reply, msgs⟩, hr, rfl⟩ := Option.map_eq_some_iff.mp hs
      unfold ThreadOK at hok
      rw [hj] at hok
      obtain ⟨A', hf, _, hm⟩ := follows_appendEntries h.inv h.safe hserver hok.1
        (Server.appendEntries_outcome hr) hok.2
      exact hf.advances (((h.follow hf).apply hm).setThread trivial)
    · cases hs

theorem fail_advances (h : Rel tracked A s) (ht : s.threads[t]? = some th)
    (hs : s.fail t th = some s') : Advances tracked A s' := by
  have hok := h.threads th (List.mem_of_getElem? ht)
  have hdead : Rel tracked A (s.setThread t { th with alive := false }) := h.setThread hok
  have hagain : th.peer ≠ th.owner → Rel tracked A ((s.setThread t { th with alive := false }).spawn
      [⟨th.owner, th.peer, true, .replicateTop⟩]) := by
    intro hne
    refine hdead.spawn _ fun x hx => ?_
    rw [List.mem_singleton.mp hx]
    exact hne
  unfold Sys.fail at hs
  unfold ThreadOK at hok
  split at hs
  case h_7 => cases hs
  all_goals
    rename_i hj
    cases hs
    rw [hj] at hok
  · exact hdead.advances
  · exact hdead.advances
  · exact hdead.advances
  · exact hdead.advances
  · exact (hagain hok.1).advances
  · exact (hagain hok.1).advances

theorem launch_advances (h : Rel tracked A s) (hme : ∀ i, (s.rafts i).me = i) (rnd : Nat)
    (hguard : tracked → (s.rafts i).identity ≠ .leader) (hsole : Sole A (s.launch i rnd)) :
    Advances tracked A (s.launch i rnd) := by
  have hnow : (s.launch i rnd).rafts i = (s.rafts i).launchElection s.clock rnd :=
    update_self _ _ _
  have hsole' : (s.rafts i).identity = .leader →
      ∀ d, A.leaderOf ((s.rafts i).currentTerm + 1) = some d → d = i := by
    intro hl d hd
    have h1 := hsole i d
    rw [hnow] at h1
    exact h1 hl hd
  obtain ⟨A', hsteps, hserver, hlead⟩ := launch_server (h.servers i) h.inv h.safe (hme i)
    hguard hsole' s.clock rnd
  have h1 := ((h.setRaft hsteps hserver).congr s.clock (update s.launching i false)
    (s.elections ++ [⟨i, (s.rafts i).currentTerm + 1, 1, false⟩]) s.rounds).spawn
    (Sys.forPeers i (.voteReady s.elections.length)) fun x hx => by
      obtain ⟨j, _, rfl⟩ := Sys.mem_forPeers hx
      trivial
  refine ⟨A', Cluster.reach_of_steps hsteps, h1, fun T c hc => ?_⟩
  rcases hlead T c hc with hc | ⟨rfl, rfl, hl⟩
  · exact Or.inl hc
  · refine Or.inr ?_
    rw [hnow]
    exact ⟨hl, rfl⟩

theorem tick_advances (h : Rel tracked A s) (rnd : Nat)
    (hq : tracked → (s.rafts i).quorumLost s.clock = false) (launching : Fin n → Bool) :
    Advances tracked A
      { s.setRaft i ((s.rafts i).tick s.clock rnd).1 with launching := launching } := by
  have hserver : ServerOK tracked A i ((s.rafts i).tick s.clock rnd).1 := by
    unfold Server.tick
    split
    · rename_i hlost
      refine (h.servers i).congr rfl rfl (fun hl => by contradiction) (fun hel => ?_)
        (fun _ => Or.inl rfl) fun _ => Or.inl rfl
      rw [hq hel] at hlost
      contradiction
    · split
      · exact (h.servers i).congr rfl rfl (fun hl => by contradiction) (fun _ => rfl)
          (fun _ => Or.inl rfl) fun _ => Or.inl rfl
      · exact h.servers i
  exact ((h.setRaft .refl hserver).congr _ _ _ _).advances

theorem start_advances (h : Rel tracked A s) (hme : ∀ i, (s.rafts i).me = i) (command : Cmd) :
    Advances tracked A (s.start i command) := by
  unfold Sys.start
  split
  · exact h.advances
  · rename_i rf' _ _ hstart
    have hl : (s.rafts i).identity = .leader := by
      by_contra hl
      unfold Server.start at hstart
      rw [if_pos hl] at hstart
      cases hstart
    obtain ⟨A', hf⟩ := follows_start (h.servers i) h.inv (hme i) hl command
    rw [hstart] at hf
    refine hf.advances ((h.follow hf).spawn _ fun x hx => ?_)
    obtain ⟨j, hne, rfl⟩ := Sys.mem_forPeers hx
    exact hne

theorem crash_advances (h : Rel tracked A s) : Advances tracked A (s.crash i) := by
  have hserver : ServerOK tracked A i { s.rafts i with dead := true } :=
    (h.servers i).congr rfl rfl id (fun _ => rfl) (fun _ => Or.inl rfl) fun _ => Or.inl rfl
  refine Rel.advances ((h.setRaft .refl hserver).rethread rfl rfl fun x hx => ?_)
  obtain ⟨y, hy, rfl⟩ := List.mem_map.mp hx
  split
  · exact h.threads y hy
  · exact h.threads y hy

theorem restart_advances (h : Rel tracked A s) (hp : (s.rafts i).Persisted) (rnd : Nat) :
    Advances tracked A (s.setRaft i (Server.make i (s.rafts i).persister s.clock rnd)) := by
  obtain ⟨hterm, hvote, hlog, _⟩ := hp.make i s.clock rnd
  refine (h.setRaft .refl ((h.servers i).congr hterm hlog (fun hl => ?_) (fun _ => hvote)
    (fun _ => Or.inr ?_) fun _ => Or.inr ?_)).advances
  · rw [Server.make_identity] at hl
    contradiction
  · exact Server.make_matchIndex _ _ _ _
  · exact Server.make_commitIndex _ _ _ _

/-! ## 4. Every step -/

/-- Every vote given in the run is on record in `A`. -/
def Recalls (past : List (Sys n Cmd × Action n Cmd)) (A : Cluster (Fin n) (LogEntry Cmd)) : Prop :=
  ∀ v T c, Sys.Cast past v T c → ∃ w, A.votes v T = some w ∧ w.cand = c

theorem act_advances {past : List (Sys n Cmd × Action n Cmd)} (hr : Sys.Run past s)
    (h : Rel tracked A s) {a : Action n Cmd} (hs : s.act a = some s')
    (hvotes : tracked → Recalls past A) (horder : tracked → s.orderly a = true)
    (hlate : s.encodesLate a = false) (hstale : tracked → s.creditsStale a = false)
    (hsole : Sole A s') : Advances tracked A s' := by
  have hwf := Sys.run_persisted hr
  have hme : ∀ i, (s.rafts i).me = i := fun i => (hwf i).1
  have hguard : tracked → s.losesQuorum a = false ∧ s.launchesAsLeader a = false ∧
      s.countsLate a = false := by
    intro htr
    have ho := horder htr
    simpa [Sys.orderly, and_assoc] using ho
  cases a with
  | elapse d =>
    cases hs
    exact (h.congr _ _ _ _).advances
  | tick i rnd =>
    simp only [Sys.act] at hs
    split at hs
    · cases hs
    · cases hs
      exact tick_advances h rnd (fun htr => (hguard htr).1) _
  | launch i rnd =>
    simp only [Sys.act] at hs
    split at hs
    · cases hs
    · cases hs
      exact launch_advances h hme rnd (fun htr => of_decide_eq_false (hguard htr).2.1) hsole
  | deliver t rnd =>
    simp only [Sys.act] at hs
    split at hs
    · cases hs
    · rename_i th ht
      exact deliver_advances h ht hs
  | run t =>
    simp only [Sys.act] at hs
    split at hs
    · cases hs
    · rename_i th ht
      split at hs
      · have htally := Sys.run_tallies hr
        refine runThread_advances h hme ht hs (fun hb => ?_)
          (fun htr e el args reply hj he hle hg hmaj => ?_) hlate hstale hsole
        · obtain ⟨b, hb⟩ := Option.isSome_iff_exists.mp hb
          obtain ⟨T, _, hT, el, _, _, h0, h1⟩ :=
            (htally.threads th (List.mem_of_getElem? ht)).stands hb
          omega
        · -- the voters are on record
          obtain ⟨Q, hQ, hall⟩ := htally.won ht hj he hle hg hmaj (hguard htr).2.2
          refine ⟨Q, hQ, fun j hjQ => ?_⟩
          rw [(h.servers th.owner).term]
          exact hvotes htr _ _ _ (hall j hjQ)
      · cases hs
  | fail t =>
    simp only [Sys.act] at hs
    split at hs
    · cases hs
    · rename_i th ht
      split at hs
      · exact fail_advances h ht hs
      · cases hs
  | start i command =>
    simp only [Sys.act] at hs
    split at hs
    · cases hs
    · cases hs
      exact start_advances h hme command
  | crash i =>
    simp only [Sys.act] at hs
    split at hs
    · cases hs
    · cases hs
      exact crash_advances h
  | restart i rnd =>
    simp only [Sys.act] at hs
    split at hs
    · cases hs
      exact restart_advances h (hwf i).2 rnd
    · cases hs

end Raft
