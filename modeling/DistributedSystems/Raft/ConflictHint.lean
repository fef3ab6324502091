import DistributedSystems.Raft.LogShape

/-!
# The conflict hint of `AppendEntries`

A request that meets an entry of another term is rejected with that term and, from the map
`firstIndexEachTerm`, the index where the term starts.  Only the handler's own loop writes the map:
entries a former leader took by `Start` and entries read back after a crash are not in it, and then
the hint is 0.
-/

namespace Raft

variable {n : Nat} {Cmd : Type}

instance (log : List (LogEntry Cmd)) (t f : Nat) : Decidable (FirstOf log t f) :=
  inferInstanceAs (Decidable (_ ∧ _))

namespace Server

theorem conflict_reply {now rnd : Nat} {rf rf' : Server n Cmd} {args : AppendEntriesArgs n Cmd}
    {reply : AppendEntriesReply} {msgs : List (ApplyMsg Cmd)}
    (h : appendEntries now rnd rf args = some (rf', reply, msgs))
    (hconflict : reply.termOfConflictEntry ≠ -1) :
    ∃ e, rf.logEntries[args.prevLogIndex]? = some e ∧ e.term ≠ args.prevLogTerm ∧
      reply.termOfConflictEntry = e.term ∧
      reply.firstIndex = ((rf.firstIndexEachTerm e.term).getD 0 : Nat) := by
  unfold appendEntries at h
  split at h
  · cases h
    exact absurd rfl hconflict
  · dsimp only at h
    split at h
    · cases h
      exact absurd rfl hconflict
    · rename_i e he
      split at h
      · rename_i hne
        cases h
        refine ⟨e, ?_, hne, rfl, ?_⟩
        · rw [← enterTerm_logEntries rf args.term]
          exact he
        · rw [← enterTerm_firstIndexEachTerm rf args.term]
          rfl
      · -- an accepted request reports no conflict
        obtain ⟨rf1, _, h⟩ := Option.bind_eq_some_iff.mp h
        obtain ⟨⟨rf2, msgs⟩, _, h⟩ := Option.bind_eq_some_iff.mp h
        cases h
        exact absurd rfl hconflict

end Server

namespace Sys

/-- **The conflict hint.**  In a run without two leaders of one term, in which requests are encoded in
their term only and no leader starts its term over, a request that is rejected with a conflict gets
the smallest index of the conflicting term in the peer's log exactly when the peer has the term in its
map. -/
theorem conflict_hint_exact_iff {past : List (Sys n Cmd × Action n Cmd)} {s : Sys n Cmd}
    (hr : Run past s) (hone : OneLeader past s)
    (hlate : ∀ x ∈ past, x.1.encodesLate x.2 = false) (hfresh : ∀ x ∈ past, x.1.startsOver x.2 = false) {th : Thread n Cmd}
    (hth : th ∈ s.threads) {args : AppendEntriesArgs n Cmd} (hreq : th.request = some args)
    {rnd : Nat} {rf' : Server n Cmd} {reply : AppendEntriesReply} {msgs : List (ApplyMsg Cmd)}
    (h : (s.rafts th.peer).appendEntries s.clock rnd args = some (rf', reply, msgs))
    (hconflict : reply.termOfConflictEntry ≠ -1) :
    ∃ t : Nat, reply.termOfConflictEntry = t ∧
      ((∃ f : Nat, reply.firstIndex = f ∧ FirstOf (s.rafts th.peer).logEntries t f) ↔
        ((s.rafts th.peer).firstIndexEachTerm t).isSome) := by
  have hsound : Sound True True s := run_sound hr hone hlate fun _ => hfresh
  have hpeer := hsound.servers th.peer
  have hroot := hsound.frames th hth _ (frame_of_request hreq)
  obtain ⟨e, he, hne, hterm, hhint⟩ := Server.conflict_reply h hconflict
  have het : ((s.rafts th.peer).logEntries[args.prevLogIndex]?).map LogEntry.term = some e.term := by
    rw [he, Option.map_some]
  refine ⟨e.term, hterm, ?_⟩
  rw [hhint]
  cases htable : (s.rafts th.peer).firstIndexEachTerm e.term with
  | some first =>
    have hfirst := hpeer.indexed trivial e.term first htable args.prevLogIndex het
    exact ⟨fun _ => rfl, fun _ => ⟨first, rfl, hfirst⟩⟩
  | none =>
    refine ⟨fun hexact => ?_, fun hsome => (nomatch hsome)⟩
    obtain ⟨f, hf, hfirst⟩ := hexact
    -- index 0 holds the sentinel, and the conflict is behind it
    have hzero : f = 0 := (Int.ofNat.inj hf).symm
    have hsentinel := hfirst.1
    rw [hzero, hpeer.first] at hsentinel
    have hzero' : e.term = 0 := (Option.some.inj hsentinel).symm
    by_cases hprev : args.prevLogIndex = 0
    · have hterm : args.prevLogTerm = 0 := hroot hprev
      exact absurd (hzero'.trans hterm.symm) hne
    · have hpos := (hpeer.shaped trivial).positive he (by omega)
      omega

/-- What the peer answers if the request of goroutine `t` reaches it now. -/
def replyTo (s : Sys n Cmd) (t : Nat) : Option AppendEntriesReply :=
  s.threads[t]?.bind fun th => th.request.bind fun args =>
    ((s.rafts th.peer).appendEntries s.clock 0 args).map fun r => r.2.1

/-- Peer 0 leads term 1 and brings a command to peer 1 only.  Peer 2 leads term 2, takes a command of
its own, and sends heartbeats to both: goroutine 18 to peer 0 and goroutine 19 to peer 1. -/
def twoHints : List (Action 5 Nat) :=
  [.elapse 301, .tick 0 0, .launch 0 0, .run 0, .run 1, .deliver 0 0, .deliver 1 0,
    .run 0, .run 1, .run 0, .run 1, .start 0 7, .run 5, .run 5, .deliver 5 0,
    .elapse 301, .tick 2 0, .launch 2 0, .run 11, .run 12, .deliver 11 0, .deliver 12 0,
    .run 11, .run 12, .run 11, .run 12, .start 2 8, .run 13, .run 18, .run 19]

theorem conflict_hint_exact_iff_twoHints :
    ∃ s : Sys 5 Nat, s.replyTo 19 = some ⟨2, false, 1, 1⟩ ∧ ∃ th args, s.threads[19]? = some th ∧
      th.request = some args ∧ ∃ t : Nat, (1 : Int) = t ∧
        ((∃ f : Nat, (1 : Int) = f ∧ FirstOf (s.rafts th.peer).logEntries t f) ↔
          ((s.rafts th.peer).firstIndexEachTerm t).isSome) := by
  have hreply : (trace (fun _ => 0) twoHints).2.replyTo 19 = some ⟨2, false, 1, 1⟩ := by
    decide +kernel
  refine ⟨_, hreply, ?_⟩
  obtain ⟨th, hth, hr⟩ := Option.bind_eq_some_iff.mp hreply
  obtain ⟨args, hargs, hr⟩ := Option.bind_eq_some_iff.mp hr
  obtain ⟨⟨rf', reply, msgs⟩, hr, rfl⟩ := Option.map_eq_some_iff.mp hr
  exact ⟨th, args, hth, hargs, conflict_hint_exact_iff (trace_run (fun _ => 0) twoHints)
    (orderly_oneLeader (trace_run _ _) (by decide +kernel)) (by decide +kernel)
    (by decide +kernel) (List.mem_of_getElem? hth) hargs hr (by decide)⟩

/-- The former leader has its own entry at index 1, and hints at index 0. -/
theorem hint_of_former_leader :
    ∃ past, ∃ s : Sys 5 Nat, Run past s ∧ (s.threads[18]?).map Thread.peer = some 0 ∧
      s.replyTo 18 = some ⟨2, false, 1, 0⟩ ∧ FirstOf (s.rafts 0).logEntries 1 1 :=
  ⟨_, _, trace_run (fun _ => 0) twoHints, by decide +kernel⟩

end Sys

end Raft
