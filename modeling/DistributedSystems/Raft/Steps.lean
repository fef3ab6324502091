import DistributedSystems.Library.Runs
import DistributedSystems.Raft.System

/-!
# What a step can do

`Sys.Moves` lists the ways in which a step of the cluster can change a peer, and `Sys.Goes` the ways in
which a goroutine can come to its job.  The invariants of whole runs are proved over these lists.
-/

namespace Raft

open Function

variable {n : Nat} {Cmd : Type}

/-- The `AppendEntries` request of the goroutine that is on its way. -/
def Thread.request (th : Thread n Cmd) : Option (AppendEntriesArgs n Cmd) :=
  match th.job with
  | .replicateSent args => some args
  | .heartbeatSent _ args => some args
  | _ => none

/-- What the owner has fixed of a request: its term, where it starts and how many entries it has. -/
structure Frame where
  term : Nat
  prevLogIndex : Nat
  prevLogTerm : Nat
  length : Nat

def AppendEntriesArgs.frame (args : AppendEntriesArgs n Cmd) : Frame :=
  ⟨args.term, args.prevLogIndex, args.prevLogTerm, args.entries.length⟩

def Thread.frame (th : Thread n Cmd) : Option Frame :=
  match th.job with
  | .replicateSending args _ _ => some args.frame
  | .replicateSent args => some args.frame
  | .replicateReplied args _ => some args.frame
  | .heartbeatSent _ args => some args.frame
  | _ => none

/-- The election a vote goroutine belongs to, and the peer it asks. -/
def Thread.ballot (th : Thread n Cmd) : Option (Nat × Fin n) :=
  match th.job with
  | .voteReady e => some (e, th.peer)
  | .voteSent e _ => some (e, th.peer)
  | .voteReplied e _ _ => some (e, th.peer)
  | .voteArrived e _ _ => some (e, th.peer)
  | .voteCounted e => some (e, th.peer)
  | _ => none

namespace Sys

/-! ## 1. Runs -/

abbrev Run : List (Sys n Cmd × Action n Cmd) → Sys n Cmd → Prop :=
  Transition.Run (fun s => ∃ rnds grow, s = init rnds grow) fun s a s' => s.step a = some s'

/-- A run with the runtime that doubles the capacity of an array. -/
def trace (rnds : Fin n → Nat) (acts : List (Action n Cmd)) :
    List (Sys n Cmd × Action n Cmd) × Sys n Cmd :=
  Transition.replay step [] (init rnds fun cap _ => 2 * cap) acts

theorem trace_run (rnds : Fin n → Nat) (acts : List (Action n Cmd)) :
    Run (trace rnds acts).1 (trace rnds acts).2 :=
  Transition.replay_run (fun _ _ _ h => h) acts _ _ (Transition.Run.start ⟨rnds, _, rfl⟩)

/-! ## 2. One peer in one step -/

inductive Moves (s : Sys n Cmd) (a : Action n Cmd) (i : Fin n) : Server n Cmd → Prop
  | stays : Moves s a i (s.rafts i)
  | ticks {rnd : Nat} (ha : a = .tick i rnd) : Moves s a i ((s.rafts i).tick s.clock rnd).1
  | launches {rnd : Nat} (ha : a = .launch i rnd) :
      Moves s a i ((s.rafts i).launchElection s.clock rnd)
  | votes {rnd : Nat} {args : RequestVoteArgs n} {r : Server n Cmd × RequestVoteReply}
      (h : (s.rafts i).requestVote s.clock rnd args = some r) : Moves s a i r.1
  | appends {th : Thread n Cmd} {rnd : Nat} {args : AppendEntriesArgs n Cmd}
      {r : Server n Cmd × AppendEntriesReply × List (ApplyMsg Cmd)} (hth : th ∈ s.threads)
      (hp : th.peer = i) (hreq : th.request = some args)
      (h : (s.rafts i).appendEntries s.clock rnd args = some r) : Moves s a i r.1
  | converts {T : Nat} (h : (s.rafts i).currentTerm < T) :
      Moves s a i ((s.rafts i).convertToFollower T)
  | leads {t e : Nat} {th : Thread n Cmd} {args : RequestVoteArgs n} {reply : RequestVoteReply}
      {el : Election n} (ha : a = .run t) (ht : s.threads[t]? = some th) (ho : th.owner = i)
      (hj : th.job = .voteArrived e args reply) (he : s.elections[e]? = some el)
      (hle : reply.term ≤ (s.rafts i).currentTerm) (hg : reply.voteGranted = true)
      (hmaj : Server.majority n ≤ el.nvotes + 1) : Moves s a i (s.rafts i).becomeLeader
  | credits {t : Nat} {th : Thread n Cmd} {args : AppendEntriesArgs n Cmd}
      {reply : AppendEntriesReply} {r : Server n Cmd × List (ApplyMsg Cmd) × Bool}
      (ha : a = .run t) (ht : s.threads[t]? = some th) (ho : th.owner = i)
      (hj : th.job = .replicateReplied args reply)
      (h : (s.rafts i).replicateReply th.peer args reply = some r) : Moves s a i r.1
  | contacts {t : Option Nat} : Moves s a i { s.rafts i with lastContact := t }
  | starts {command : Cmd} (ha : a = .start i command) :
      Moves s a i ((s.rafts i).start command).1
  | crashes : Moves s a i { s.rafts i with dead := true }
  | restarts {rnd : Nat} : Moves s a i (Server.make i (s.rafts i).persister s.clock rnd)

variable {a : Action n Cmd} {s s' : Sys n Cmd} {th : Thread n Cmd} {i : Fin n}

theorem moves_update {j : Fin n} {rf : Server n Cmd} (h : s.Moves a j rf) (i : Fin n) :
    s.Moves a i (update s.rafts j rf i) := by
  by_cases hi : i = j
  · subst hi
    rw [update_self]
    exact h
  · rw [update_of_ne hi]
    exact .stays

variable {t : Nat}

theorem countVote_moves {e : Nat} {args : RequestVoteArgs n} {reply : RequestVoteReply}
    (ht : s.threads[t]? = some th) (hj : th.job = .voteArrived e args reply)
    (h : s.countVote t e th reply = some s') (i : Fin n) : s.Moves (.run t) i (s'.rafts i) := by
  unfold countVote at h
  split at h
  · cases h
  · rename_i el he
    dsimp only at h
    split at h
    · rename_i hlt
      cases h
      exact moves_update (.converts hlt) i
    · rename_i hge
      split at h
      · rename_i hg
        split at h
        · rename_i hmaj
          cases h
          exact moves_update (.leads rfl ht rfl hj he (Nat.le_of_not_lt hge) hg hmaj) i
        · cases h
          exact .stays
      · cases h
        exact .stays

theorem heartbeatReply_moves (s : Sys n Cmd) (a : Action n Cmd) (t round : Nat)
    (th : Thread n Cmd) (reply : AppendEntriesReply) (i : Fin n) :
    s.Moves a i ((s.heartbeatReply t round th reply).rafts i) := by
  unfold heartbeatReply
  dsimp only
  split
  · rename_i hlt
    exact moves_update (.converts hlt) i
  · split
    · exact moves_update .contacts i
    · exact .stays

theorem runThread_moves (ht : s.threads[t]? = some th) (h : s.runThread t th = some s')
    (i : Fin n) : s.Moves (.run t) i (s'.rafts i) := by
  unfold runThread at h
  split at h
  · cases h
    exact .stays
  · obtain ⟨el, _, rfl⟩ := Option.map_eq_some_iff.mp h
    exact .stays
  · rename_i hj
    exact countVote_moves ht hj h i
  · unfold replicateTop at h
    dsimp only at h
    split at h
    · cases h
      exact .stays
    · obtain ⟨args?, _, rfl⟩ := Option.map_eq_some_iff.mp h
      cases args? <;> exact .stays
  · cases h
    unfold encode
    split <;> exact .stays
  · rename_i hj
    obtain ⟨r, hr, rfl⟩ := Option.map_eq_some_iff.mp h
    exact moves_update (.credits rfl ht rfl hj hr) i
  · cases h
    unfold heartbeatLoop
    split <;> exact .stays
  · unfold heartbeatReady at h
    split at h
    · cases h
      exact .stays
    · obtain ⟨args, _, rfl⟩ := Option.map_eq_some_iff.mp h
      exact .stays
  · cases h
    exact heartbeatReply_moves s _ t _ th _ i
  · cases h

theorem deliver_moves {rnd : Nat} (hth : th ∈ s.threads) (h : s.deliver t th rnd = some s')
    (i : Fin n) : s.Moves a i (s'.rafts i) := by
  unfold deliver at h
  dsimp only at h
  split at h
  · cases h
  · split at h
    · obtain ⟨r, hr, rfl⟩ := Option.map_eq_some_iff.mp h
      exact moves_update (.votes hr) i
    · rename_i hj
      obtain ⟨r, hr, rfl⟩ := Option.map_eq_some_iff.mp h
      exact moves_update (.appends hth rfl (by rw [Thread.request, hj]) hr) i
    · rename_i hj
      obtain ⟨r, hr, rfl⟩ := Option.map_eq_some_iff.mp h
      exact moves_update (.appends hth rfl (by rw [Thread.request, hj]) hr) i
    · cases h

theorem fail_rafts (h : s.fail t th = some s') : s'.rafts = s.rafts := by
  unfold fail at h
  split at h <;> cases h <;> rfl

theorem act_moves (h : s.act a = some s') (i : Fin n) : s.Moves a i (s'.rafts i) := by
  cases a with
  | elapse d =>
    cases h
    exact .stays
  | tick j rnd =>
    simp only [act] at h
    split at h
    · cases h
    · cases h
      by_cases hi : i = j
      · subst hi
        exact moves_update (.ticks rfl) i
      · change s.Moves _ i (update s.rafts j _ i)
        rw [update_of_ne hi]
        exact .stays
  | launch j rnd =>
    simp only [act] at h
    split at h
    · cases h
    · cases h
      exact moves_update (.launches rfl) i
  | deliver t rnd =>
    simp only [act] at h
    split at h
    · cases h
    · rename_i ht
      exact deliver_moves (List.mem_of_getElem? ht) h i
  | run t =>
    simp only [act] at h
    split at h
    · cases h
    · rename_i ht
      split at h
      · exact runThread_moves ht h i
      · cases h
  | fail t =>
    simp only [act] at h
    split at h
    · cases h
    · split at h
      · rw [fail_rafts h]
        exact .stays
      · cases h
  | start j command =>
    simp only [act] at h
    split at h
    · cases h
    · cases h
      unfold start
      split
      · exact .stays
      · rename_i rf _ _ hstart
        have hrf : rf = ((s.rafts j).start command).1 := by rw [hstart]
        rw [hrf]
        exact moves_update (.starts rfl) i
  | crash j =>
    simp only [act] at h
    split at h
    · cases h
    · cases h
      exact moves_update .crashes i
  | restart j rnd =>
    simp only [act] at h
    split at h
    · cases h
      exact moves_update .restarts i
    · cases h

theorem step_moves (h : s.step a = some s') (i : Fin n) : s.Moves a i (s'.rafts i) := by
  obtain ⟨s₁, hact, rfl⟩ := Option.map_eq_some_iff.mp h
  exact act_moves hact i

/-! ## 3. One goroutine in one step -/

/-- The goroutines after an action, before they see what it wrote to the arrays. -/
inductive Goes (s : Sys n Cmd) (a : Action n Cmd) : Thread n Cmd → Prop
  | stays {th : Thread n Cmd} (hth : th ∈ s.threads) (alive : Bool) :
      Goes s a { th with alive := alive }
  | ends (owner peer : Fin n) (alive : Bool) : Goes s a ⟨owner, peer, alive, .done⟩
  | stands {i j : Fin n} {rnd : Nat} (ha : a = .launch i rnd) (hne : j ≠ i) :
      Goes s a ⟨i, j, true, .voteReady s.elections.length⟩
  | asks {th : Thread n Cmd} {e : Nat} (hth : th ∈ s.threads) (hj : th.job = .voteReady e) :
      Goes s a { th with job := .voteSent e (s.rafts th.owner).voteArgs }
  | answers {t rnd e : Nat} {th : Thread n Cmd} {args : RequestVoteArgs n}
      {r : Server n Cmd × RequestVoteReply} (ha : a = .deliver t rnd)
      (ht : s.threads[t]? = some th) (hj : th.job = .voteSent e args)
      (h : (s.rafts th.peer).requestVote s.clock rnd args = some r) :
      Goes s a { th with job := .voteReplied e args r.2 }
  | arrives {th : Thread n Cmd} {e : Nat} {args : RequestVoteArgs n} {reply : RequestVoteReply}
      (hth : th ∈ s.threads) (hj : th.job = .voteReplied e args reply) :
      Goes s a { th with job := .voteArrived e args reply }
  | counts {th : Thread n Cmd} {e : Nat} {args : RequestVoteArgs n} {reply : RequestVoteReply}
      (hth : th ∈ s.threads) (hj : th.job = .voteArrived e args reply) :
      Goes s a { th with job := .voteCounted e }
  | leads (i : Fin n) : Goes s a ⟨i, i, true, .heartbeatLoop⟩
  | replicates {i j : Fin n} (hne : j ≠ i) : Goes s a ⟨i, j, true, .replicateTop⟩
  | again {th : Thread n Cmd} (hth : th ∈ s.threads) (hf : th.frame.isSome) (alive : Bool) :
      Goes s a ⟨th.owner, th.peer, alive, .replicateTop⟩
  | sends {th : Thread n Cmd} {args : AppendEntriesArgs n Cmd} (hth : th ∈ s.threads)
      (hj : th.job = .replicateTop) (hl : (s.rafts th.owner).identity = .leader)
      (h : (s.rafts th.owner).replicateArgs th.peer = some (some args)) :
      Goes s a { th with job := .replicateSending args 0 true }
  | encodes {t read : Nat} {th : Thread n Cmd} {args : AppendEntriesArgs n Cmd} {shared : Bool}
      (ha : a = .run t) (ht : s.threads[t]? = some th)
      (hj : th.job = .replicateSending args read shared) :
      Goes s a { th with job := .replicateSending args (read + 1) shared }
  | sent {t read : Nat} {th : Thread n Cmd} {args : AppendEntriesArgs n Cmd} {shared : Bool}
      (ha : a = .run t) (ht : s.threads[t]? = some th)
      (hj : th.job = .replicateSending args read shared) :
      Goes s a { th with job := .replicateSent args }
  | replies {th : Thread n Cmd} {args : AppendEntriesArgs n Cmd} {reply : AppendEntriesReply}
      (hth : th ∈ s.threads) (hj : th.job = .replicateSent args) :
      Goes s a { th with job := .replicateReplied args reply }
  | beats {th : Thread n Cmd} {round : Nat} {j : Fin n} (hne : j ≠ th.owner) :
      Goes s a ⟨th.owner, j, true, .heartbeatReady round⟩
  | heartbeats {th : Thread n Cmd} {round : Nat} {args : AppendEntriesArgs n Cmd}
      (hth : th ∈ s.threads) (hj : th.job = .heartbeatReady round)
      (hl : (s.rafts th.owner).identity = .leader)
      (h : (s.rafts th.owner).heartbeatArgs = some args) :
      Goes s a { th with job := .heartbeatSent round args }
  | beaten {th : Thread n Cmd} {round : Nat} {args : AppendEntriesArgs n Cmd}
      {reply : AppendEntriesReply} (hth : th ∈ s.threads)
      (hj : th.job = .heartbeatSent round args) :
      Goes s a { th with job := .heartbeatReplied round args reply }

theorem goes_old (s : Sys n Cmd) (a : Action n Cmd) : ∀ x ∈ s.threads, s.Goes a x :=
  fun x hx => .stays hx x.alive

theorem goes_set (s : Sys n Cmd) {x : Thread n Cmd} (t : Nat) (h : s.Goes a x) :
    ∀ y ∈ s.threads.set t x, s.Goes a y := by
  intro y hy
  rcases List.mem_or_eq_of_mem_set hy with hy | rfl
  · exact goes_old s a y hy
  · exact h

theorem goes_spawn {ths ths' : List (Thread n Cmd)} (h : ∀ y ∈ ths, s.Goes a y)
    (h' : ∀ y ∈ ths', s.Goes a y) : ∀ y ∈ ths ++ ths', s.Goes a y :=
  fun y hy => (List.mem_append.mp hy).elim (h y) (h' y)

theorem mem_forPeers {job : Job n Cmd} {x : Thread n Cmd} (hx : x ∈ forPeers i job) :
    ∃ j, j ≠ i ∧ x = ⟨i, j, true, job⟩ := by
  obtain ⟨j, hj, rfl⟩ := List.mem_map.mp hx
  exact ⟨j, of_decide_eq_true (List.mem_filter.mp hj).2, rfl⟩

theorem countVote_goes {e : Nat} {args : RequestVoteArgs n} {reply : RequestVoteReply}
    (hth : th ∈ s.threads) (hj : th.job = .voteArrived e args reply)
    (h : s.countVote t e th reply = some s') : ∀ x ∈ s'.threads, s.Goes a x := by
  unfold countVote at h
  split at h
  · cases h
  · dsimp only at h
    split at h
    · cases h
      exact goes_set s t (.ends th.owner th.peer th.alive)
    · split at h
      · split at h
        · cases h
          refine goes_spawn (goes_set s t (.counts hth hj)) fun x hx => ?_
          rw [List.mem_singleton.mp hx]
          exact .leads _
        · cases h
          exact goes_set s t (.counts hth hj)
      · cases h
        exact goes_set s t (.ends th.owner th.peer th.alive)

theorem runThread_goes (ht : s.threads[t]? = some th) (h : s.runThread t th = some s') :
    ∀ x ∈ s'.threads, s.Goes (.run t) x := by
  have hth := List.mem_of_getElem? ht
  unfold runThread at h
  split at h
  · rename_i hj
    cases h
    exact goes_set s t (.asks hth hj)
  · rename_i hj
    obtain ⟨el, _, rfl⟩ := Option.map_eq_some_iff.mp h
    cases el.stopped with
    | true => exact goes_set s t (.ends th.owner th.peer th.alive)
    | false => exact goes_set s t (.arrives hth hj)
  · rename_i hj
    exact countVote_goes hth hj h
  · rename_i hj
    unfold replicateTop at h
    dsimp only at h
    split at h
    · cases h
      exact goes_set s t (.ends th.owner th.peer th.alive)
    · rename_i hl
      obtain ⟨args?, hargs, rfl⟩ := Option.map_eq_some_iff.mp h
      cases args? with
      | none => exact goes_set s t (.ends th.owner th.peer th.alive)
      | some args => exact goes_set s t (.sends hth hj (not_not.mp hl) hargs)
  · rename_i hj
    cases h
    unfold encode
    split
    · exact goes_set s t (.encodes rfl ht hj)
    · exact goes_set s t (.sent rfl ht hj)
  · rename_i hj
    obtain ⟨r, _, rfl⟩ := Option.map_eq_some_iff.mp h
    refine goes_set s t ?_
    split
    · exact .again hth (by rw [Thread.frame, hj]; rfl) _
    · exact .ends _ _ _
  · cases h
    unfold heartbeatLoop
    split
    · exact goes_set s t (.ends th.owner th.peer th.alive)
    · refine goes_spawn (goes_old s _) fun x hx => ?_
      obtain ⟨j, hne, rfl⟩ := mem_forPeers hx
      exact .beats hne
  · rename_i hj
    unfold heartbeatReady at h
    split at h
    · cases h
      exact goes_set s t (.ends th.owner th.peer th.alive)
    · rename_i hl
      obtain ⟨args, hargs, rfl⟩ := Option.map_eq_some_iff.mp h
      exact goes_set s t (.heartbeats hth hj (not_not.mp hl) hargs)
  · cases h
    unfold heartbeatReply
    dsimp only
    split
    · exact goes_set s t (.ends th.owner th.peer th.alive)
    · split <;> exact goes_set s t (.ends th.owner th.peer th.alive)
  · cases h

theorem deliver_goes {rnd : Nat} (ht : s.threads[t]? = some th)
    (h : s.deliver t th rnd = some s') : ∀ x ∈ s'.threads, s.Goes (.deliver t rnd) x := by
  have hth := List.mem_of_getElem? ht
  unfold deliver at h
  dsimp only at h
  split at h
  · cases h
  · split at h
    · rename_i hj
      obtain ⟨r, hr, rfl⟩ := Option.map_eq_some_iff.mp h
      exact goes_set s t (.answers rfl ht hj hr)
    · rename_i hj
      obtain ⟨r, _, rfl⟩ := Option.map_eq_some_iff.mp h
      exact goes_set s t (.replies hth hj)
    · rename_i hj
      obtain ⟨r, _, rfl⟩ := Option.map_eq_some_iff.mp h
      exact goes_set s t (.beaten hth hj)
    · cases h

theorem fail_goes (hth : th ∈ s.threads) (h : s.fail t th = some s') :
    ∀ x ∈ s'.threads, s.Goes a x := by
  have hdead := goes_set (a := a) s t (.stays hth false)
  have hagain : th.frame.isSome → ∀ x ∈ s.threads.set t { th with alive := false } ++
      [⟨th.owner, th.peer, true, .replicateTop⟩], s.Goes a x := by
    intro hf
    refine goes_spawn hdead fun x hx => ?_
    rw [List.mem_singleton.mp hx]
    exact .again hth hf true
  unfold fail at h
  split at h
  · cases h
    exact hdead
  · cases h
    exact hdead
  · cases h
    exact hdead
  · cases h
    exact hdead
  · rename_i hj
    cases h
    exact hagain (by rw [Thread.frame, hj]; rfl)
  · rename_i hj
    cases h
    exact hagain (by rw [Thread.frame, hj]; rfl)
  · cases h

theorem act_goes (h : s.act a = some s') : ∀ x ∈ s'.threads, s.Goes a x := by
  cases a with
  | elapse d =>
    cases h
    exact goes_old s _
  | tick i rnd =>
    simp only [act] at h
    split at h
    · cases h
    · cases h
      exact goes_old s _
  | launch i rnd =>
    simp only [act] at h
    split at h
    · cases h
    · cases h
      refine goes_spawn (goes_old s _) fun x hx => ?_
      obtain ⟨j, hne, rfl⟩ := mem_forPeers hx
      exact .stands rfl hne
  | deliver t rnd =>
    simp only [act] at h
    split at h
    · cases h
    · rename_i ht
      exact deliver_goes ht h
  | run t =>
    simp only [act] at h
    split at h
    · cases h
    · rename_i ht
      split at h
      · exact runThread_goes ht h
      · cases h
  | fail t =>
    simp only [act] at h
    split at h
    · cases h
    · rename_i ht
      split at h
      · exact fail_goes (List.mem_of_getElem? ht) h
      · cases h
  | start i command =>
    simp only [act] at h
    split at h
    · cases h
    · cases h
      unfold start
      split
      · exact goes_old s _
      · refine goes_spawn (goes_old s _) fun x hx => ?_
        obtain ⟨j, hne, rfl⟩ := mem_forPeers hx
        exact .replicates hne
  | crash i =>
    simp only [act] at h
    split at h
    · cases h
    · cases h
      intro x hx
      obtain ⟨y, hy, rfl⟩ := List.mem_map.mp hx
      split
      · exact .stays hy false
      · exact goes_old s _ y hy
  | restart i rnd =>
    simp only [act] at h
    split at h
    · cases h
      exact goes_old s _
    · cases h

/-! ## 4. What the arrays do not change -/

theorem sync_cases (job : Job n Cmd) (log : List (LogEntry Cmd)) (outgrown : Bool) :
    job.sync log outgrown = job ∨ ∃ args read, job = .replicateSending args read true ∧
      job.sync log outgrown = .replicateSending (args.reread read log) read (!outgrown) := by
  unfold Job.sync
  split
  · exact Or.inr ⟨_, _, rfl, rfl⟩
  · exact Or.inl rfl

theorem shown_cases (s : Sys n Cmd) (th : Thread n Cmd) :
    s.shown th = th ∨ ∃ args read, th.job = .replicateSending args read true ∧
      s.shown th = { th with
        job := .replicateSending (args.reread read (s.rafts th.owner).logEntries) read
          (!s.outgrown th.owner) } := by
  unfold shown
  rcases sync_cases th.job (s.rafts th.owner).logEntries (s.outgrown th.owner) with
    h | ⟨args, read, hj, h⟩
  · exact Or.inl (by rw [h])
  · exact Or.inr ⟨args, read, hj, by rw [h]⟩

theorem frame_reread (args : AppendEntriesArgs n Cmd) (read : Nat) (log : List (LogEntry Cmd)) :
    (args.reread read log).frame = args.frame := by
  simp only [AppendEntriesArgs.frame, AppendEntriesArgs.reread, List.length_mapIdx]

/-- Every goroutine of the next state shows what one of the action's goroutines has become. -/
theorem step_goes (h : s.step a = some s') : ∀ x ∈ s'.threads, ∃ th, s.Goes a th ∧
    x.owner = th.owner ∧ x.peer = th.peer ∧ x.request = th.request ∧ x.ballot = th.ballot ∧
    x.frame = th.frame := by
  obtain ⟨s₁, hact, rfl⟩ := Option.map_eq_some_iff.mp h
  intro x hx
  obtain ⟨th, hth, rfl⟩ := List.mem_map.mp hx
  refine ⟨th, act_goes hact th hth, ?_⟩
  rcases shown_cases s₁ th with h | ⟨args, read, hj, h⟩
  · rw [h]
    exact ⟨rfl, rfl, rfl, rfl, rfl⟩
  · rw [h]
    refine ⟨rfl, rfl, ?_, ?_, ?_⟩
    · rw [Thread.request, Thread.request, hj]
    · rw [Thread.ballot, Thread.ballot, hj]
    · rw [Thread.frame, Thread.frame, hj]
      exact congrArg some (frame_reread _ _ _)

end Sys

end Raft
