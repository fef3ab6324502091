import DistributedSystems.Raft.Votes

/-!
# Persistence

Each critical section that changes the term, the vote or the log saves them before it ends, so what a
peer would find after a crash is what it had, and its term never falls.
-/

namespace Raft

variable {n : Nat} {Cmd : Type}

namespace Server

def triple (rf : Server n Cmd) : Saved n Cmd := ⟨rf.currentTerm, rf.votedFor, rf.logEntries⟩

theorem tick_currentTerm (rf : Server n Cmd) (now rnd : Nat) :
    (rf.tick now rnd).1.currentTerm = rf.currentTerm := by
  unfold tick
  split
  · rfl
  · split <;> rfl

theorem VoteKept.currentTerm_le {rf rf' : Server n Cmd} (h : rf.VoteKept rf') :
    rf.currentTerm ≤ rf'.currentTerm := by
  cases h with
  | inl hlt => omega
  | inr hsame => omega

end Server

namespace Sys

theorem Moves.currentTerm_le {s : Sys n Cmd} {a : Action n Cmd} {i : Fin n} {rf' : Server n Cmd}
    (h : s.Moves a i rf') (hp : (s.rafts i).Persisted) :
    (s.rafts i).currentTerm ≤ rf'.currentTerm := by
  cases h with
  | stays => omega
  | ticks _ => rw [Server.tick_currentTerm]
  | launches _ => exact Nat.le_succ _
  | votes h => exact (Server.requestVote_outcome h).voteKept.currentTerm_le
  | appends _ _ _ h => exact (Server.appendEntries_outcome h).voteKept.currentTerm_le
  | converts h => exact Nat.le_of_lt h
  | leads _ _ _ _ _ _ _ _ => exact Nat.le_refl _
  | credits _ _ _ _ h => exact (Server.replicateReply_outcome h).voteKept.currentTerm_le
  | contacts => exact Nat.le_refl _
  | starts _ => exact (Server.voteKept_start _ _).currentTerm_le
  | crashes => exact Nat.le_refl _
  | restarts => rw [(hp.make i s.clock _).1]

theorem run_currentTerm_le {past : List (Sys n Cmd × Action n Cmd)} {s x : Sys n Cmd}
    (hr : Run past s) (hx : Transition.Visited past s x) (i : Fin n) :
    (x.rafts i).currentTerm ≤ (s.rafts i).currentTerm := by
  induction hr with
  | start _ =>
    cases hx with
    | inl heq => rw [heq]
    | inr hex =>
      obtain ⟨a, ha⟩ := hex
      exact absurd ha List.not_mem_nil
  | next hr h ih =>
    cases Transition.visited_next.mp hx with
    | inl heq => rw [heq]
    | inr hold =>
      have hstep := (step_moves h i).currentTerm_le (run_persisted hr i).2
      exact Nat.le_trans (ih hold) hstep

/-- **Persistence.**  In every state of a run, between the critical sections, what each peer saved
last is its term, vote and log, or nothing was saved and these are the initial ones; `Make` on its
persister brings them back; and its term was never higher at an earlier moment. -/
theorem raft_persistence {past : List (Sys n Cmd × Action n Cmd)} {s : Sys n Cmd}
    (hr : Run past s) (i : Fin n) :
    ((s.rafts i).persister = some (s.rafts i).triple ∨
      ((s.rafts i).persister = none ∧ (s.rafts i).triple = ⟨0, none, [Server.sentinel]⟩)) ∧
    (∀ now rnd, (Server.make i (s.rafts i).persister now rnd).triple = (s.rafts i).triple) ∧
    ∀ x, Transition.Visited past s x → (x.rafts i).currentTerm ≤ (s.rafts i).currentTerm := by
  have hp := (run_persisted hr i).2
  refine ⟨?_, ?_, fun x hx => run_currentTerm_le hr hx i⟩
  · cases hp with
    | inl hsaved => exact Or.inl hsaved
    | inr hnone =>
      obtain ⟨hnone, ht, hv, hl⟩ := hnone
      exact Or.inr ⟨hnone, by unfold Server.triple; rw [ht, hv, hl]⟩
  · intro now rnd
    obtain ⟨ht, hv, hl, _⟩ := hp.make i now rnd
    unfold Server.triple
    rw [ht, hv, hl]

def crashAfterVote : List (Action 3 Nat) := firstElection ++ [.crash 1, .restart 1 0]

theorem raft_persistence_crashAfterVote :
    ((trace (fun _ => 0) crashAfterVote).2.rafts 1).triple = ⟨1, some 0, [Server.sentinel]⟩ ∧
      ∀ now rnd, (Server.make 1 ((trace (fun _ => 0) crashAfterVote).2.rafts 1).persister now
        rnd).triple = ⟨1, some 0, [Server.sentinel]⟩ := by
  have htriple : ((trace (fun _ => 0) crashAfterVote).2.rafts 1).triple =
      ⟨1, some 0, [Server.sentinel]⟩ := by decide +kernel
  refine ⟨htriple, ?_⟩
  intro now rnd
  rw [← htriple]
  exact (raft_persistence (trace_run _ crashAfterVote) 1).2.1 now rnd

end Sys

end Raft
