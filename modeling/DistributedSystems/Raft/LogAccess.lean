import DistributedSystems.Raft.CommitRule
import DistributedSystems.Raft.LogShape
import DistributedSystems.Raft.Safety

/-!
# Log accesses

Which steps run into an index outside of the log.  A log never loses its sentinel, and that alone
keeps the handlers and the senders in range, whatever the entries of a request are.  `UpdateCommitIndex` is the exception: it reads the
leader's log at an index that a peer was credited with, and a reply to a request of an earlier
leadership can credit an index the log no longer has.
-/

namespace Raft

open ReplicatedLog Transition Function

variable {n : Nat} {Cmd : Type}

namespace Server

variable {shapes tabled : Prop} {rf : Server n Cmd}

/-! ## 1. The handlers -/

theorem followCommit_returns (h : 0 < rf.logEntries.length) (leaderCommit : Nat) :
    ∃ r, rf.followCommit leaderCommit = some r := by
  unfold followCommit
  split
  · obtain ⟨msgs, hmsgs⟩ := applyCommitted_total
      { rf with commitIndex := min leaderCommit (rf.logEntries.length - 1) } (by dsimp only; omega)
    exact ⟨_, hmsgs⟩
  · exact ⟨_, rfl⟩

theorem requestVote_returns (h : 0 < rf.logEntries.length) (now rnd : Nat)
    (args : RequestVoteArgs n) : ∃ r, requestVote now rnd rf args = some r := by
  unfold requestVote
  split
  · exact ⟨_, rfl⟩
  · have hlast : ∃ e, (rf.enterTerm args.term).logEntries[
        (rf.enterTerm args.term).logEntries.length - 1]? = some e := by
      rw [enterTerm_logEntries]
      exact ⟨_, List.getElem?_eq_getElem (by omega)⟩
    obtain ⟨e, he⟩ := hlast
    dsimp only
    rw [he]
    dsimp only
    split
    · split <;> exact ⟨_, rfl⟩
    · exact ⟨_, rfl⟩

section AppendEntries

variable {args : AppendEntriesArgs n Cmd} (now rnd : Nat)

theorem appendEntries_short (hle : rf.currentTerm ≤ args.term)
    (hlog : rf.logEntries[args.prevLogIndex]? = none) :
    appendEntries now rnd rf args =
      some (Server.heard now rnd rf args.term, ⟨args.term, false, -1, -1⟩, []) := by
  have hterm : (Server.heard now rnd rf args.term).currentTerm = args.term := heard_currentTerm hle
  rw [← heard_logEntries now rnd rf args.term] at hlog
  unfold Server.heard at hlog hterm ⊢
  unfold appendEntries
  dsimp only
  rw [if_neg (Nat.not_lt.mpr hle), hlog]
  rw [hterm]

theorem appendEntries_conflict {e : LogEntry Cmd} (hle : rf.currentTerm ≤ args.term)
    (hlog : rf.logEntries[args.prevLogIndex]? = some e) (hne : e.term ≠ args.prevLogTerm) :
    appendEntries now rnd rf args =
      some (({ Server.heard now rnd rf args.term with
          logEntries := rf.logEntries.take args.prevLogIndex } : Server n Cmd).persist,
        ⟨args.term, false, e.term, ((rf.firstIndexEachTerm e.term).getD 0 : Nat)⟩, []) := by
  have hterm : (Server.heard now rnd rf args.term).currentTerm = args.term := heard_currentTerm hle
  have hkept := heard_logEntries now rnd rf args.term
  have hhint : (Server.heard now rnd rf args.term).firstIndexEachTerm e.term =
      rf.firstIndexEachTerm e.term := congrFun (enterTerm_firstIndexEachTerm rf args.term) e.term
  rw [← hkept] at hlog
  unfold Server.heard at hlog
  unfold appendEntries
  dsimp only
  rw [if_neg (Nat.not_lt.mpr hle), hlog]
  dsimp only
  rw [if_pos hne]
  change some (({ Server.heard now rnd rf args.term with logEntries :=
      (Server.heard now rnd rf args.term).logEntries.take args.prevLogIndex } :
      Server n Cmd).persist,
    (⟨(Server.heard now rnd rf args.term).currentTerm, false, e.term,
      (((Server.heard now rnd rf args.term).firstIndexEachTerm e.term).getD 0 : Nat)⟩ :
      AppendEntriesReply), []) = _
  simp only [hterm, hkept, hhint]

theorem appendEntries_accept {e : LogEntry Cmd} {rf1 rf2 : Server n Cmd}
    {msgs : List (ApplyMsg Cmd)} (hle : rf.currentTerm ≤ args.term)
    (hlog : rf.logEntries[args.prevLogIndex]? = some e) (heq : e.term = args.prevLogTerm)
    (hloop : appendLoop args.prevLogIndex 0 args.entries (Server.heard now rnd rf args.term) =
      some rf1) (hcommit : rf1.followCommit args.leaderCommit = some (rf2, msgs)) :
    appendEntries now rnd rf args =
      some ({ rf2 with lastHeartbeat := now }, ⟨rf2.currentTerm, true, -1, -1⟩, msgs) := by
  rw [← heard_logEntries now rnd rf args.term] at hlog
  unfold Server.heard at hloop hlog
  unfold appendEntries
  dsimp only
  rw [if_neg (Nat.not_lt.mpr hle), hlog]
  dsimp only
  rw [if_neg (not_not.mpr heq), hloop]
  show (rf1.followCommit args.leaderCommit).bind _ = _
  rw [hcommit]
  rfl

theorem appendEntries_returns (h : 0 < rf.logEntries.length) (args : AppendEntriesArgs n Cmd) :
    ∃ r, appendEntries now rnd rf args = some r := by
  by_cases hlt : args.term < rf.currentTerm
  · exact ⟨_, by unfold appendEntries; rw [if_pos hlt]⟩
  · have hle : rf.currentTerm ≤ args.term := Nat.le_of_not_lt hlt
    cases hlog : rf.logEntries[args.prevLogIndex]? with
    | none => exact ⟨_, appendEntries_short now rnd hle hlog⟩
    | some e =>
      by_cases heq : e.term = args.prevLogTerm
      · obtain ⟨rf1, hloop, hfirst⟩ := appendLoop_returns args.prevLogIndex args.entries 0
          (Server.heard now rnd rf args.term)
          (by rw [heard_logEntries]; exact (List.getElem?_eq_some_iff.mp hlog).1)
        have hpos : 0 < rf1.logEntries.length := by
          rw [heard_logEntries, List.getElem?_eq_getElem h] at hfirst
          exact (List.getElem?_eq_some_iff.mp hfirst).1
        obtain ⟨⟨rf2, msgs⟩, hcommit⟩ := followCommit_returns hpos args.leaderCommit
        exact ⟨_, appendEntries_accept now rnd hle hlog heq hloop hcommit⟩
      · exact ⟨_, appendEntries_conflict now rnd hle hlog heq⟩

end AppendEntries

/-! ## 2. The senders -/

theorem replicateArgs_returns (h : rf.LogOK shapes tabled) (peer : Fin n) :
    ∃ args, rf.replicateArgs peer = some args := by
  unfold replicateArgs
  split
  · rename_i hlt
    have hnext := h.next peer
    split
    · omega
    · rename_i prev heq
      rw [List.getElem?_eq_getElem (by omega)]
      exact ⟨_, rfl⟩
  · exact ⟨_, rfl⟩

theorem heartbeatArgs_returns (h : 0 < rf.logEntries.length) :
    ∃ args, rf.heartbeatArgs = some args := by
  unfold heartbeatArgs
  rw [List.getElem?_eq_getElem (by omega)]
  exact ⟨_, rfl⟩

/-! ## 3. The commit index -/

theorem applyCommitted_idle (h : rf.commitIndex ≤ rf.lastApplied) :
    ∃ r, rf.applyCommitted = some r := by
  unfold applyCommitted
  rw [Nat.sub_eq_zero_of_le h]
  exact ⟨_, rfl⟩

theorem updateCommitIndex_returns (rf : Server n Cmd)
    (hmatch : ∀ j, rf.matchIndex j < rf.logEntries.length)
    (happlied : rf.commitIndex ≤ rf.lastApplied) : ∃ r, rf.updateCommitIndex = some r := by
  have hn : 0 < n := rf.me.pos
  obtain ⟨N, hN⟩ := OrderStatistics.exists_sorted rf.matchIndex (i := n / 2) (by omega)
  have hlog : N < rf.logEntries.length := by
    obtain ⟨j, rfl⟩ := OrderStatistics.mem_sorted.mp (List.mem_of_getElem? hN)
    exact hmatch j
  unfold updateCommitIndex
  dsimp only
  rw [show (List.ofFn rf.matchIndex).insertionSort (· ≤ ·) = OrderStatistics.sorted rf.matchIndex
    from rfl, OrderStatistics.length_sorted, hN]
  dsimp only
  rw [List.getElem?_eq_getElem hlog]
  dsimp only
  split
  · split
    · obtain ⟨msgs, hmsgs⟩ := applyCommitted_total { rf with commitIndex := N } hlog
      exact ⟨_, hmsgs⟩
    · exact applyCommitted_idle happlied
  · exact applyCommitted_idle happlied

theorem replicateReply_returns (h : rf.LogOK shapes tabled) (peer : Fin n)
    (args : AppendEntriesArgs n Cmd) (reply : AppendEntriesReply)
    (hcredit : reply.term ≤ rf.currentTerm → reply.success = true →
      args.prevLogIndex + args.entries.length < rf.logEntries.length ∧
        ∀ j, rf.matchIndex j < rf.logEntries.length) :
    ∃ r, rf.replicateReply peer args reply = some r := by
  unfold replicateReply
  split
  · exact ⟨_, rfl⟩
  · rename_i hle
    split
    · rename_i hs
      obtain ⟨hnew, hold⟩ := hcredit (Nat.le_of_not_lt hle) hs
      obtain ⟨⟨rf1, msgs⟩, hupd⟩ := updateCommitIndex_returns
        { rf with
          nextIndex := update rf.nextIndex peer
            (args.prevLogIndex + args.entries.length + 1)
          matchIndex := update rf.matchIndex peer
            (args.prevLogIndex + args.entries.length) }
        (by
          intro j
          by_cases hj : j = peer
          · show update rf.matchIndex peer _ j < _
            rw [hj, update_self]
            exact hnew
          · show update rf.matchIndex peer _ j < _
            rw [update_of_ne hj]
            exact hold j) h.applied
      refine ⟨(rf1, msgs, false), ?_⟩
      dsimp only
      rw [Nat.add_sub_cancel, hupd]
      rfl
    · exact ⟨_, rfl⟩

end Server

/-! ## 4. Lengths -/

namespace Sys

variable {s s' : Sys n Cmd} {a : Action n Cmd} {i : Fin n} {rf' : Server n Cmd}
  {th : Thread n Cmd} {past : List (Sys n Cmd × Action n Cmd)} {T : Nat} {f : Frame}

def Led (past : List (Sys n Cmd × Action n Cmd)) (s : Sys n Cmd) (i : Fin n) (T : Nat) : Prop :=
  ∃ x, Visited past s x ∧ (x.rafts i).identity = .leader ∧ (x.rafts i).currentTerm = T

theorem Led.next (h : Led past s i T) : Led ((s, a) :: past) s' i T := by
  obtain ⟨x, hx, hl⟩ := h
  exact ⟨x, visited_next.mpr (Or.inr hx), hl⟩

theorem Led.le (hr : Run past s) (h : Led past s i T) : T ≤ (s.rafts i).currentTerm := by
  obtain ⟨x, hx, _, rfl⟩ := h
  exact run_currentTerm_le hr hx i

theorem Led.unique (hone : OneLeader past s) {j : Fin n} (h : Led past s i T)
    (h' : Led past s j T) : i = j := by
  obtain ⟨x, hx, hxl, hxt⟩ := h
  obtain ⟨y, hy, hyl, hyt⟩ := h'
  exact hone x y hx hy i j hxl hyl (hxt.trans hyt.symm)

/-- Who sent a request led its term.  A peer in a term that it led has all that it ever sent or was
credited for in this term: nobody else writes to its log. -/
structure Ranged (past : List (Sys n Cmd × Action n Cmd)) (s : Sys n Cmd) : Prop where
  apart : ∀ th ∈ s.threads, th.frame.isSome ∨ th.job = .replicateTop ∨
    (∃ round, th.job = .heartbeatReady round) → th.peer ≠ th.owner
  sent : ∀ th ∈ s.threads, ∀ f, th.frame = some f → Led past s th.owner f.term ∧
    (f.term = (s.rafts th.owner).currentTerm →
      f.prevLogIndex + f.length < (s.rafts th.owner).logEntries.length)
  matched : ∀ i, Led past s i (s.rafts i).currentTerm →
    ∀ j, (s.rafts i).matchIndex j < (s.rafts i).logEntries.length

theorem appends_stale (h : Ranged past s) (hone : OneLeader past s)
    (hled : Led past s i (s.rafts i).currentTerm) (hth : th ∈ s.threads) (hp : th.peer = i)
    {args : AppendEntriesArgs n Cmd} (hreq : th.request = some args) {now rnd : Nat}
    {reply : AppendEntriesReply} {msgs : List (ApplyMsg Cmd)}
    (ho : Server.AppendOutcome now rnd (s.rafts i) args rf' reply msgs)
    (hterm : rf'.currentTerm = (s.rafts i).currentTerm) : rf' = s.rafts i := by
  have hframe := frame_of_request hreq
  have hne := h.apart th hth (Or.inl (by rw [hframe]; rfl))
  -- a request of this term would be the peer's own
  have hnow : args.term ≠ (s.rafts i).currentTerm := by
    intro heq
    have hsender := (h.sent th hth _ hframe).1
    rw [show args.frame.term = (s.rafts i).currentTerm from heq] at hsender
    exact hne (hp.trans (hled.unique hone hsender))
  have hlater : (s.rafts i).currentTerm ≤ args.term → rf'.currentTerm = args.term → False :=
    fun _ heq => hnow (heq.symm.trans hterm)
  cases ho with
  | stale _ => rfl
  | short hle _ => exact (hlater hle (Server.enterTerm_currentTerm hle)).elim
  | conflict hle _ _ => exact (hlater hle (Server.enterTerm_currentTerm hle)).elim
  | accepted hle _ _ hloop hcommit =>
    refine (hlater hle ?_).elim
    rw [(Server.followCommit_spec hcommit).1, (Server.appendLoop_spec hloop).1]
    exact Server.enterTerm_currentTerm hle

theorem enterTerm_same {rf : Server n Cmd} (h : (rf.enterTerm T).currentTerm = rf.currentTerm) :
    rf.enterTerm T = rf := by
  unfold Server.enterTerm at h ⊢
  split
  · rename_i hlt
    rw [if_pos hlt] at h
    exact absurd h (Nat.ne_of_gt hlt)
  · rfl

/-- In a term that it led, a peer's log grows only, and it covers what the peer is credited for. -/
theorem Moves.ranged (hr : Run past s) (h : Ranged past s) (hone : OneLeader past s)
    (hled : Led past s i (s.rafts i).currentTerm) (hstale : s.creditsStale a = false)
    (hm : s.Moves a i rf') (hterm : rf'.currentTerm = (s.rafts i).currentTerm) :
    (s.rafts i).logEntries.length ≤ rf'.logEntries.length ∧
      ∀ j, rf'.matchIndex j < rf'.logEntries.length := by
  have hmatch := h.matched i hled
  have hpos := ((run_rooted hr).servers i).length_pos
  cases hm with
  | stays => exact ⟨le_rfl, hmatch⟩
  | ticks _ =>
    unfold Server.tick
    split
    · exact ⟨le_rfl, hmatch⟩
    · split <;> exact ⟨le_rfl, hmatch⟩
  | launches _ => exact absurd hterm (Nat.succ_ne_self _)
  | @votes rnd args r hv =>
    obtain ⟨rf1, reply⟩ := r
    cases Server.requestVote_outcome hv with
    | stale _ => exact ⟨le_rfl, hmatch⟩
    | refused _ =>
      rw [enterTerm_same hterm]
      exact ⟨le_rfl, hmatch⟩
    | granted _ _ _ =>
      rw [enterTerm_same hterm]
      exact ⟨le_rfl, hmatch⟩
  | appends hth hp hreq hap =>
    rw [appends_stale h hone hled hth hp hreq (Server.appendEntries_outcome hap) hterm]
    exact ⟨le_rfl, hmatch⟩
  | converts hlt => exact absurd hterm (Nat.ne_of_gt hlt)
  | leads => exact ⟨le_rfl, fun _ => hpos⟩
  | @credits t th args reply r ha ht ho hj hc =>
    obtain ⟨rf1, msgs, again⟩ := r
    cases Server.replicateReply_outcome hc with
    | later hlt => exact absurd hterm (Nat.ne_of_gt hlt)
    | retried _ _ => exact ⟨le_rfl, hmatch⟩
    | credited hle hsucc hupd =>
      rw [(Server.updateCommitIndex_spec hupd).1]
      refine ⟨le_rfl, fun j => ?_⟩
      show update (s.rafts i).matchIndex th.peer _ j < _
      by_cases hjp : j = th.peer
      · have hnow : args.term = (s.rafts th.owner).currentTerm := by
          by_contra hne
          subst ha
          obtain ⟨owner, peer, alive, job⟩ := th
          simp only at hj ho
          subst hj ho
          simp only [creditsStale, ht, decide_eq_false_iff_not] at hstale
          exact hstale ⟨hle, hsucc, hne⟩
        rw [hjp, update_self]
        have hbound := (h.sent th (List.mem_of_getElem? ht) args.frame
          (by rw [Thread.frame, hj])).2 hnow
        rwa [ho] at hbound
      · rw [update_of_ne hjp]
        exact hmatch j
  | contacts => exact ⟨le_rfl, hmatch⟩
  | starts _ =>
    unfold Server.start
    split
    · exact ⟨le_rfl, hmatch⟩
    · refine ⟨?_, fun j => ?_⟩
      · show _ ≤ ((s.rafts i).logEntries ++ _).length
        rw [List.length_append]
        omega
      · show update (s.rafts i).matchIndex _ _ j < ((s.rafts i).logEntries ++ _).length
        rw [List.length_append, List.length_singleton]
        by_cases hj : j = (s.rafts i).me
        · rw [hj, update_self]
          omega
        · rw [update_of_ne hj]
          exact (hmatch j).trans (Nat.lt_succ_self _)
  | crashes => exact ⟨le_rfl, hmatch⟩
  | restarts =>
    obtain ⟨_, _, hlog, _⟩ := (run_persisted hr i).2.make i s.clock _
    rw [hlog, Server.make_matchIndex]
    exact ⟨le_rfl, fun _ => hpos⟩

theorem Goes.apart (h : Ranged past s) (hg : s.Goes a th) (hj : th.frame.isSome ∨
    th.job = .replicateTop ∨ ∃ round, th.job = .heartbeatReady round) : th.peer ≠ th.owner := by
  cases hg with
  | @stays x hth => exact h.apart x hth hj
  | replicates hne => exact hne
  | beats hne => exact hne
  | @again x hth hf => exact h.apart x hth (Or.inl hf)
  | @sends x args hth hjob => exact h.apart x hth (Or.inr (Or.inl hjob))
  | @heartbeats x round args hth hjob => exact h.apart x hth (Or.inr (Or.inr ⟨_, hjob⟩))
  | @encodes t read x args shared _ ht hjob =>
    exact h.apart x (List.mem_of_getElem? ht) (Or.inl (by rw [Thread.frame, hjob]; rfl))
  | @sent t read x args shared _ ht hjob =>
    exact h.apart x (List.mem_of_getElem? ht) (Or.inl (by rw [Thread.frame, hjob]; rfl))
  | @replies x args reply hth hjob => exact h.apart x hth (Or.inl (by rw [Thread.frame, hjob]; rfl))
  | _ => rcases hj with hj | hj | ⟨_, hj⟩ <;> cases hj

/-- The request is an old one or made by a leader from its log. -/
theorem Goes.sent_by (h : Ranged past s) (hg : s.Goes a th) (hf : th.frame = some f) :
    Led past s th.owner f.term ∧ (f.term = (s.rafts th.owner).currentTerm →
      f.prevLogIndex + f.length < (s.rafts th.owner).logEntries.length) := by
  have hnow : (s.rafts th.owner).identity = .leader →
      Led past s th.owner (s.rafts th.owner).currentTerm :=
    fun hl => ⟨s, visited_now _ _, hl, rfl⟩
  cases hg with
  | @stays x hth => exact h.sent x hth f hf
  | @encodes t read x args shared _ ht hj =>
    exact h.sent x (List.mem_of_getElem? ht) f (by rw [Thread.frame, hj]; exact hf)
  | @sent t read x args shared _ ht hj =>
    exact h.sent x (List.mem_of_getElem? ht) f (by rw [Thread.frame, hj]; exact hf)
  | @replies x args reply hth hj => exact h.sent x hth f (by rw [Thread.frame, hj]; exact hf)
  | sends hth hj hl hargs =>
    rw [← Option.some.inj hf]
    unfold Server.replicateArgs at hargs
    split at hargs
    · split at hargs
      · contradiction
      · obtain ⟨e, he, hargs⟩ := Option.map_eq_some_iff.mp hargs
        obtain rfl := Option.some.inj hargs
        refine ⟨hnow hl, fun _ => ?_⟩
        have hlt := (List.getElem?_eq_some_iff.mp he).1
        simp only [AppendEntriesArgs.frame, List.length_drop]
        omega
    · cases Option.some.inj hargs
  | heartbeats hth hj hl hargs =>
    rw [← Option.some.inj hf]
    obtain ⟨e, he, rfl⟩ := Option.map_eq_some_iff.mp hargs
    exact ⟨hnow hl, fun _ => (List.getElem?_eq_some_iff.mp he).1⟩
  | _ => cases hf

theorem step_ranged (hr : Run past s) (h : Ranged past s) (hs : s.step a = some s')
    (hone : OneLeader past s) (horder : s.orderly a = true) (hstale : s.creditsStale a = false) :
    Ranged ((s, a) :: past) s' := by
  have hmono : ∀ i, (s.rafts i).currentTerm ≤ (s'.rafts i).currentTerm :=
    fun i => (step_moves hs i).currentTerm_le (run_persisted hr i).2
  refine ⟨fun x hx hj => ?_, fun x hx f hf => ?_, fun i hled => ?_⟩
  · obtain ⟨s₁, hact, rfl⟩ := Option.map_eq_some_iff.mp hs
    obtain ⟨th, hth, rfl⟩ := List.mem_map.mp hx
    have hg := act_goes hact th hth
    rcases shown_cases s₁ th with hsh | ⟨args, read, hjob, _⟩
    · rw [hsh] at hj ⊢
      exact hg.apart h hj
    · have hne : th.peer ≠ th.owner := hg.apart h (Or.inl (by rw [Thread.frame, hjob]; rfl))
      exact hne
  · obtain ⟨th, hg, ho, _, _, _, hframe⟩ := step_goes hs x hx
    obtain ⟨hled, hbound⟩ := hg.sent_by h (hframe.symm.trans hf)
    rw [ho]
    refine ⟨hled.next, fun hnow => ?_⟩
    have hle := hled.le hr
    have hsame : f.term = (s.rafts th.owner).currentTerm :=
      Nat.le_antisymm hle (hnow ▸ hmono th.owner)
    rw [hsame] at hled
    have hgrow := ((step_moves hs th.owner).ranged hr h hone hled hstale
      (hnow.symm.trans hsame)).1
    exact (hbound hsame).trans_le hgrow
  · -- the peer led its present term before, unless it has just won it
    have hmove := step_moves hs i
    have hold : Led past s i (s'.rafts i).currentTerm →
        ∀ j, (s'.rafts i).matchIndex j < (s'.rafts i).logEntries.length := by
      intro hled
      have hsame := Nat.le_antisymm (hled.le hr) (hmono i)
      rw [hsame] at hled
      exact (hmove.ranged hr h hone hled hstale hsame).2
    obtain ⟨x, hx, hxl, hxt⟩ := hled
    rcases visited_next.mp hx with rfl | hx
    · have hkept : (s.rafts i).LeadKept (x.rafts i) →
          ∀ j, (x.rafts i).matchIndex j < (x.rafts i).logEntries.length := by
        intro hk
        obtain ⟨h1, h2⟩ := hk hxl
        exact hold ⟨s, visited_now _ _, h1, h2.symm⟩
      generalize x.rafts i = rf' at hmove hxl hkept
      simp only [orderly, Bool.and_eq_true, Bool.not_eq_true'] at horder
      cases hmove with
      | leads => exact fun _ => ((run_rooted hr).servers i).length_pos
      | launches ha =>
        subst ha
        exact absurd hxl (of_decide_eq_false horder.1.2)
      | stays => exact hkept (.refl _)
      | ticks _ => exact hkept (Server.leadKept_tick _ _ _)
      | votes hv => exact hkept (Server.requestVote_outcome hv).leadKept
      | appends _ _ _ hap => exact hkept (Server.appendEntries_outcome hap).leadKept
      | converts _ => cases hxl
      | credits _ _ _ _ hc => exact hkept (Server.replicateReply_outcome hc).leadKept
      | contacts => exact hkept (.refl _)
      | starts _ => exact hkept (Server.leadKept_start _ _)
      | crashes => exact hkept (.refl _)
      | restarts =>
        rw [Server.make_identity] at hxl
        cases hxl
    · exact hold ⟨x, hx, hxl, hxt⟩

theorem run_ranged (hr : Run past s) (horder : ∀ x ∈ past, x.1.orderly x.2 = true)
    (hstale : ∀ x ∈ past, x.1.creditsStale x.2 = false) : Ranged past s := by
  induction hr with
  | start hinit =>
    obtain ⟨rnds, grow, rfl⟩ := hinit
    exact ⟨fun th hth => absurd hth List.not_mem_nil, fun th hth => absurd hth List.not_mem_nil,
      fun i _ _ => Nat.one_pos⟩
  | next hr hs ih =>
    have horder' := fun x hx => horder x (List.mem_cons_of_mem _ hx)
    exact step_ranged hr (ih horder' fun x hx => hstale x (List.mem_cons_of_mem _ hx)) hs
      (orderly_oneLeader hr horder') (horder _ List.mem_cons_self) (hstale _ List.mem_cons_self)

/-! ## 5. The cluster -/

def panics (s : Sys n Cmd) : Action n Cmd → Bool
  | .deliver t rnd =>
    match s.threads[t]? with
    | some th =>
      !(s.rafts th.peer).dead &&
        match th.job with
        | .voteSent _ args => ((s.rafts th.peer).requestVote s.clock rnd args).isNone
        | .replicateSent args => ((s.rafts th.peer).appendEntries s.clock rnd args).isNone
        | .heartbeatSent _ args => ((s.rafts th.peer).appendEntries s.clock rnd args).isNone
        | _ => false
    | none => false
  | .run t =>
    match s.threads[t]? with
    | some th =>
      th.alive &&
        match th.job with
        | .replicateTop => (s.replicateTop t th).isNone
        | .replicateReplied args reply => (s.replicateReply t th args reply).isNone
        | .heartbeatReady round => (s.heartbeatReady t round th).isNone
        | _ => false
    | none => false
  | _ => false

theorem deliver_in_range (h : ∀ i, 0 < (s.rafts i).logEntries.length) (t rnd : Nat) :
    s.panics (.deliver t rnd) = false := by
  unfold panics
  dsimp only
  split
  · rename_i th hth
    split
    · obtain ⟨r, hr⟩ := Server.requestVote_returns (h th.peer) s.clock rnd _
      rw [hr, Option.isNone_some, Bool.and_false]
    · obtain ⟨r, hr⟩ := Server.appendEntries_returns s.clock rnd (h th.peer) _
      rw [hr, Option.isNone_some, Bool.and_false]
    · obtain ⟨r, hr⟩ := Server.appendEntries_returns s.clock rnd (h th.peer) _
      rw [hr, Option.isNone_some, Bool.and_false]
    · exact Bool.and_false _
  · rfl

theorem run_in_range {shapes tabled : Prop} (h : Sound shapes tabled s) {t : Nat}
    (hcredit : ∀ th args reply, s.threads[t]? = some th → th.job = .replicateReplied args reply →
      reply.term ≤ (s.rafts th.owner).currentTerm → reply.success = true →
      args.prevLogIndex + args.entries.length < (s.rafts th.owner).logEntries.length ∧
        ∀ j, (s.rafts th.owner).matchIndex j < (s.rafts th.owner).logEntries.length) :
    s.panics (.run t) = false := by
  unfold panics
  dsimp only
  split
  · rename_i th hth
    have howner := h.servers th.owner
    split
    · unfold replicateTop
      dsimp only
      obtain ⟨args?, hargs⟩ := Server.replicateArgs_returns howner th.peer
      rw [hargs]
      split <;> exact Bool.and_false _
    · rename_i args reply hjob
      obtain ⟨r, hr⟩ := Server.replicateReply_returns howner th.peer args reply
        (hcredit th args reply hth hjob)
      unfold replicateReply
      rw [hr]
      exact Bool.and_false _
    · unfold heartbeatReady
      obtain ⟨args, hargs⟩ := Server.heartbeatArgs_returns howner.length_pos
      rw [hargs]
      split <;> exact Bool.and_false _
    · exact Bool.and_false _
  · rfl

/-- **Log accesses are in range.**  In every run each log keeps its sentinel.  In an orderly run in
which replies are credited in the term of their request only, no further step of that kind reads
outside of a log. -/
theorem log_accesses_in_range {past : List (Sys n Cmd × Action n Cmd)} (hr : Run past s) :
    (∀ i, (s.rafts i).logEntries[0]? = some Server.sentinel) ∧
      ((∀ x ∈ past, x.1.orderly x.2 = true) → (∀ x ∈ past, x.1.creditsStale x.2 = false) →
        ∀ a, s.creditsStale a = false → s.panics a = false) := by
  have hsound := run_rooted hr
  refine ⟨fun i => (hsound.servers i).first, fun horder hstale a ha => ?_⟩
  cases a with
  | deliver t rnd => exact deliver_in_range (fun i => (hsound.servers i).length_pos) t rnd
  | run t =>
    have hranged := run_ranged hr horder hstale
    refine run_in_range hsound fun th args reply hth hjob hterm hsuccess => ?_
    -- the request was made in the present term, so its owner leads that term
    have hpresent : args.term = (s.rafts th.owner).currentTerm := by
      obtain ⟨owner, peer, alive, job⟩ := th
      subst hjob
      simp only [creditsStale, hth, decide_eq_false_iff_not] at ha
      by_contra hne
      exact ha ⟨hterm, hsuccess, hne⟩
    obtain ⟨hled, hbound⟩ := hranged.sent th (List.mem_of_getElem? hth) args.frame
      (by rw [Thread.frame, hjob])
    rw [show args.frame.term = (s.rafts th.owner).currentTerm from hpresent] at hled
    exact ⟨hbound hpresent, hranged.matched _ hled⟩
  | elapse _ => rfl
  | tick _ _ => rfl
  | launch _ _ => rfl
  | fail _ => rfl
  | start _ _ => rfl
  | crash _ => rfl
  | restart _ _ => rfl

def beforeCredit : List (Action 3 Nat) :=
  firstElection ++ [.start 0 7, .run 3, .run 3, .deliver 3 0]

theorem log_accesses_in_range_beforeCredit :
    ((trace (fun _ => 0) beforeCredit).2.step (.run 3)).isSome = true ∧
      (trace (fun _ => 0) beforeCredit).2.panics (.run 3) = false :=
  ⟨by decide +kernel, (log_accesses_in_range (trace_run (fun _ => 0) beforeCredit)).2
    (by decide +kernel) (by decide +kernel) (.run 3) (by decide +kernel)⟩

/-- Peer 0 leads term 1 and peer 1 acknowledges index 2; peer 0 leads term 3 and peer 3 acknowledges
index 2.  Both replies are delayed until peer 2, the leader of terms 2 and 4, has cut the log of
peer 0 down to index 1. -/
def delayedReplies : List (Action 5 Nat) :=
  [.elapse 301, .tick 0 0, .launch 0 0, .run 0, .run 1, .deliver 0 0, .deliver 1 0,
    .run 0, .run 1, .run 0, .run 1, .start 0 1, .start 0 2, .run 9, .run 9, .run 9, .deliver 9 0,
    .elapse 301, .tick 2 0, .launch 2 0, .run 15, .run 16, .deliver 15 0, .deliver 16 0,
    .run 15, .run 16, .run 15, .run 16, .start 2 3, .run 18, .run 18, .deliver 18 0,
    .start 2 4,
    .elapse 301, .tick 0 0, .launch 0 0, .run 27, .deliver 27 0, .run 28, .run 29,
    .deliver 28 0, .deliver 29 0, .run 28, .run 29, .run 28, .run 29, .start 0 5,
    .run 33, .run 33, .deliver 33 0, .run 33, .run 33, .run 33, .run 33, .deliver 33 0,
    .elapse 301, .tick 2 0, .launch 2 0, .run 36, .run 38, .deliver 36 0, .deliver 38 0,
    .run 36, .run 38, .run 36, .run 38, .run 39, .run 40, .deliver 40 0, .run 9]

/-- Peer 0, now a follower, credits the second reply and reads its log at index 2. -/
theorem stale_credit_panics :
    ∃ past, ∃ s : Sys 5 Nat, Run past s ∧ (∀ x ∈ past, x.1.orderly x.2 = true) ∧
      (s.rafts 0).logEntries.length = 2 ∧ s.panics (.run 33) = true :=
  ⟨_, _, trace_run (fun _ => 0) delayedReplies, by decide +kernel⟩

end Sys

end Raft
