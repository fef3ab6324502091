import DistributedSystems.Raft.Server

/-!
# A cluster of peers

The peers with their goroutines and the calls in flight.  A goroutine that waits for a call carries
the request, and later the reply, so a request is handled at most once and a reply arrives at most
once, in any order and after any delay; a request or reply that no later step picks up is lost.  The
critical sections of `rf.mu` are the steps, and each entry that `Call` encodes after `ReplicateLog`
has released the lock is one more.
-/

namespace Raft

open Function

variable {n : Nat} {Cmd : Type}

/-- The variables one call of `launch_election` shares with its goroutines.  `term` is the term it
was launched in, which the code does not keep. -/
structure Election (n : Nat) where
  owner : Fin n
  term : Nat
  nvotes : Nat
  stopped : Bool

/-- `replicateSending args read shared`: `Call` has encoded the first `read` entries.  The others are
what the array that `args.Entries` is a slice of holds now, and the log of the owner is `shared` with
it until it outgrows it. -/
inductive Job (n : Nat) (Cmd : Type)
  | voteReady (e : Nat)
  | voteSent (e : Nat) (args : RequestVoteArgs n)
  | voteReplied (e : Nat) (args : RequestVoteArgs n) (reply : RequestVoteReply)
  | voteArrived (e : Nat) (args : RequestVoteArgs n) (reply : RequestVoteReply)
  | voteCounted (e : Nat)
  | replicateTop
  | replicateSending (args : AppendEntriesArgs n Cmd) (read : Nat) (shared : Bool)
  | replicateSent (args : AppendEntriesArgs n Cmd)
  | replicateReplied (args : AppendEntriesArgs n Cmd) (reply : AppendEntriesReply)
  | heartbeatLoop
  | heartbeatReady (round : Nat)
  | heartbeatSent (round : Nat) (args : AppendEntriesArgs n Cmd)
  | heartbeatReplied (round : Nat) (args : AppendEntriesArgs n Cmd) (reply : AppendEntriesReply)
  | done

/-- The request after its owner's log has become `log`: the entries that are not encoded yet show what
was written to their slots.  The slots behind the end of the log keep what they held. -/
def AppendEntriesArgs.reread (args : AppendEntriesArgs n Cmd) (read : Nat)
    (log : List (LogEntry Cmd)) : AppendEntriesArgs n Cmd :=
  { args with
    entries := args.entries.mapIdx fun j e =>
      if j < read then e else (log[args.prevLogIndex + 1 + j]?).getD e }

def Job.sync (log : List (LogEntry Cmd)) (outgrown : Bool) : Job n Cmd → Job n Cmd
  | .replicateSending args read true => .replicateSending (args.reread read log) read (!outgrown)
  | job => job

/-- A goroutine of `owner` that talks to `peer`.  It is no longer `alive` once its owner crashed or
its call returned false; its request may still be on the way. -/
structure Thread (n : Nat) (Cmd : Type) where
  owner : Fin n
  peer : Fin n
  alive : Bool
  job : Job n Cmd

/-- `capacity` is that of the array each log is in, and `grow` the runtime's choice of a new one, from
the old capacity and the length that is needed. -/
structure Sys (n : Nat) (Cmd : Type) where
  clock : Nat
  rafts : Fin n → Server n Cmd
  capacity : Fin n → Nat
  grow : Nat → Nat → Nat
  launching : Fin n → Bool
  elections : List (Election n)
  rounds : List Nat
  threads : List (Thread n Cmd)
  applied : List (Fin n × ApplyMsg Cmd)

inductive Action (n : Nat) (Cmd : Type)
  | elapse (d : Nat)
  | tick (i : Fin n) (rnd : Nat)
  | launch (i : Fin n) (rnd : Nat)
  | deliver (t : Nat) (rnd : Nat)
  | run (t : Nat)
  | fail (t : Nat)
  | start (i : Fin n) (command : Cmd)
  | crash (i : Fin n)
  | restart (i : Fin n) (rnd : Nat)

namespace Sys

/-- All peers freshly made with an empty persister; `rnds` draws their first timeouts. -/
def init (rnds : Fin n → Nat) (grow : Nat → Nat → Nat) : Sys n Cmd where
  clock := 0
  rafts := fun i => Server.make i none 0 (rnds i)
  capacity := fun _ => 1
  grow := grow
  launching := fun _ => false
  elections := []
  rounds := []
  threads := []
  applied := []

def setRaft (s : Sys n Cmd) (i : Fin n) (rf : Server n Cmd) : Sys n Cmd :=
  { s with rafts := update s.rafts i rf }

def setThread (s : Sys n Cmd) (t : Nat) (th : Thread n Cmd) : Sys n Cmd :=
  { s with threads := s.threads.set t th }

def spawn (s : Sys n Cmd) (ths : List (Thread n Cmd)) : Sys n Cmd :=
  { s with threads := s.threads ++ ths }

def setElection (s : Sys n Cmd) (e : Nat) (el : Election n) : Sys n Cmd :=
  { s with elections := s.elections.set e el }

def apply (s : Sys n Cmd) (i : Fin n) (msgs : List (ApplyMsg Cmd)) : Sys n Cmd :=
  { s with applied := s.applied ++ msgs.map fun m => (i, m) }

def forPeers (i : Fin n) (job : Job n Cmd) : List (Thread n Cmd) :=
  ((List.finRange n).filter fun j => j ≠ i).map fun j => ⟨i, j, true, job⟩

/-! ## 1. The goroutines of `launch_election` -/

/-- A vote reply that has passed the `select`, inside `rf.mu`. -/
def countVote (s : Sys n Cmd) (t e : Nat) (th : Thread n Cmd) (reply : RequestVoteReply) :
    Option (Sys n Cmd) :=
  match s.elections[e]? with
  | none => none
  | some el =>
    let rf := s.rafts th.owner
    if rf.currentTerm < reply.term then
      some (((s.setRaft th.owner (rf.convertToFollower reply.term)).setElection e
        { el with stopped := true }).setThread t { th with job := .done })
    else if reply.voteGranted then
      let nvotes := el.nvotes + 1
      let s := s.setThread t { th with job := .voteCounted e }
      if Server.majority n ≤ nvotes then
        some (((s.setRaft th.owner rf.becomeLeader).setElection e
          { el with nvotes := nvotes, stopped := true }).spawn
            [⟨th.owner, th.owner, true, .heartbeatLoop⟩])
      else some (s.setElection e { el with nvotes := nvotes })
    else some (s.setThread t { th with job := .done })

def launch (s : Sys n Cmd) (i : Fin n) (rnd : Nat) : Sys n Cmd :=
  let rf := (s.rafts i).launchElection s.clock rnd
  let s' : Sys n Cmd :=
    { s with
      launching := update s.launching i false
      elections := s.elections ++ [⟨i, rf.currentTerm, 1, false⟩] }
  (s'.setRaft i rf).spawn (forPeers i (.voteReady s.elections.length))

/-! ## 2. The goroutines of `ReplicateLog` and `send_heartbeats` -/

def replicateTop (s : Sys n Cmd) (t : Nat) (th : Thread n Cmd) : Option (Sys n Cmd) :=
  let rf := s.rafts th.owner
  if rf.identity ≠ .leader then
    some (s.setThread t { th with job := .done })
  else
    (rf.replicateArgs th.peer).map fun args? =>
      match args? with
      | some args => s.setThread t { th with job := .replicateSending args 0 true }
      | none => s.setThread t { th with job := .done }

/-- `Call` encodes one more entry, and with the last one the request is on its way. -/
def encode (s : Sys n Cmd) (t : Nat) (th : Thread n Cmd) (args : AppendEntriesArgs n Cmd)
    (read : Nat) (shared : Bool) : Sys n Cmd :=
  if read + 1 < args.entries.length then
    s.setThread t { th with job := .replicateSending args (read + 1) shared }
  else s.setThread t { th with job := .replicateSent args }

def replicateReply (s : Sys n Cmd) (t : Nat) (th : Thread n Cmd) (args : AppendEntriesArgs n Cmd)
    (reply : AppendEntriesReply) : Option (Sys n Cmd) :=
  ((s.rafts th.owner).replicateReply th.peer args reply).map fun r =>
    ((s.setRaft th.owner r.1).apply th.owner r.2.1).setThread t
      { th with job := if r.2.2 then .replicateTop else .done }

/-- An iteration of the loop of `send_heartbeats`, which then sleeps and comes back. -/
def heartbeatLoop (s : Sys n Cmd) (t : Nat) (th : Thread n Cmd) : Sys n Cmd :=
  if (s.rafts th.owner).identity ≠ .leader then
    s.setThread t { th with job := .done }
  else
    ({ s with rounds := s.rounds ++ [1] } : Sys n Cmd).spawn
      (forPeers th.owner (.heartbeatReady s.rounds.length))

def heartbeatReady (s : Sys n Cmd) (t round : Nat) (th : Thread n Cmd) : Option (Sys n Cmd) :=
  if (s.rafts th.owner).identity ≠ .leader then
    some (s.setThread t { th with job := .done })
  else
    (s.rafts th.owner).heartbeatArgs.map fun args =>
      s.setThread t { th with job := .heartbeatSent round args }

def heartbeatReply (s : Sys n Cmd) (t round : Nat) (th : Thread n Cmd)
    (reply : AppendEntriesReply) : Sys n Cmd :=
  let rf := s.rafts th.owner
  let s := s.setThread t { th with job := .done }
  if rf.currentTerm < reply.term then
    s.setRaft th.owner (rf.convertToFollower reply.term)
  else
    let successCnt := (s.rounds[round]?).getD 0 + 1
    let s : Sys n Cmd := { s with rounds := s.rounds.set round successCnt }
    if Server.majority n ≤ successCnt then
      s.setRaft th.owner { rf with lastContact := some s.clock }
    else s

/-! ## 3. The steps -/

def runThread (s : Sys n Cmd) (t : Nat) (th : Thread n Cmd) : Option (Sys n Cmd) :=
  match th.job with
  | .voteReady e => some (s.setThread t { th with job := .voteSent e (s.rafts th.owner).voteArgs })
  | .voteReplied e args reply =>
    (s.elections[e]?).map fun el =>
      s.setThread t { th with job := if el.stopped then .done else .voteArrived e args reply }
  | .voteArrived e _ reply => s.countVote t e th reply
  | .replicateTop => s.replicateTop t th
  | .replicateSending args read shared => some (s.encode t th args read shared)
  | .replicateReplied args reply => s.replicateReply t th args reply
  | .heartbeatLoop => some (s.heartbeatLoop t th)
  | .heartbeatReady round => s.heartbeatReady t round th
  | .heartbeatReplied round _ reply => some (s.heartbeatReply t round th reply)
  | _ => none

def deliver (s : Sys n Cmd) (t : Nat) (th : Thread n Cmd) (rnd : Nat) : Option (Sys n Cmd) :=
  let rf := s.rafts th.peer
  if rf.dead then none
  else
    match th.job with
    | .voteSent e args =>
      (rf.requestVote s.clock rnd args).map fun r =>
        (s.setRaft th.peer r.1).setThread t { th with job := .voteReplied e args r.2 }
    | .replicateSent args =>
      (rf.appendEntries s.clock rnd args).map fun r =>
        ((s.setRaft th.peer r.1).apply th.peer r.2.2).setThread t
          { th with job := .replicateReplied args r.2.1 }
    | .heartbeatSent round args =>
      (rf.appendEntries s.clock rnd args).map fun r =>
        ((s.setRaft th.peer r.1).apply th.peer r.2.2).setThread t
          { th with job := .heartbeatReplied round args r.2.1 }
    | _ => none

/-- `Call` returns false.  `ReplicateLog` comes back to its loop; the others are through. -/
def fail (s : Sys n Cmd) (t : Nat) (th : Thread n Cmd) : Option (Sys n Cmd) :=
  let s := s.setThread t { th with alive := false }
  match th.job with
  | .voteSent _ _ => some s
  | .voteReplied _ _ _ => some s
  | .heartbeatSent _ _ => some s
  | .heartbeatReplied _ _ _ => some s
  | .replicateSent _ => some (s.spawn [⟨th.owner, th.peer, true, .replicateTop⟩])
  | .replicateReplied _ _ => some (s.spawn [⟨th.owner, th.peer, true, .replicateTop⟩])
  | _ => none

/-- `Start(command)`; on a leader it leaves one `ReplicateLog` goroutine for each peer. -/
def start (s : Sys n Cmd) (i : Fin n) (command : Cmd) : Sys n Cmd :=
  match (s.rafts i).start command with
  | (_, _, _, false) => s
  | (rf, _, _, true) => (s.setRaft i rf).spawn (forPeers i .replicateTop)

def crash (s : Sys n Cmd) (i : Fin n) : Sys n Cmd :=
  { s with
    rafts := update s.rafts i { s.rafts i with dead := true }
    launching := update s.launching i false
    threads := s.threads.map fun th => if th.owner = i then { th with alive := false } else th }

/-- The action itself; `none` when it is not enabled, or on a runtime panic. -/
def act (s : Sys n Cmd) : Action n Cmd → Option (Sys n Cmd)
  | .elapse d => some { s with clock := s.clock + d }
  | .tick i rnd =>
    if (s.rafts i).dead ∨ s.launching i then none
    else
      let r := (s.rafts i).tick s.clock rnd
      some { s.setRaft i r.1 with launching := update s.launching i r.2 }
  | .launch i rnd =>
    if (s.rafts i).dead ∨ s.launching i = false then none else some (s.launch i rnd)
  | .deliver t rnd =>
    match s.threads[t]? with
    | none => none
    | some th => s.deliver t th rnd
  | .run t =>
    match s.threads[t]? with
    | none => none
    | some th => if th.alive then s.runThread t th else none
  | .fail t =>
    match s.threads[t]? with
    | none => none
    | some th => if th.alive then s.fail t th else none
  | .start i command => if (s.rafts i).dead then none else some (s.start i command)
  | .crash i => if (s.rafts i).dead then none else some (s.crash i)
  | .restart i rnd =>
    if (s.rafts i).dead then
      some (s.setRaft i (Server.make i (s.rafts i).persister s.clock rnd))
    else none

/-! ## 4. The arrays behind the logs -/

def outgrown (s : Sys n Cmd) (i : Fin n) : Bool := s.capacity i < (s.rafts i).logEntries.length

def shown (s : Sys n Cmd) (th : Thread n Cmd) : Thread n Cmd :=
  { th with job := th.job.sync (s.rafts th.owner).logEntries (s.outgrown th.owner) }

/-- The arrays after a critical section.  One section writes to the slots of a log in increasing
order, so what lies within the old capacity is written before the log moves to a larger array. -/
def settle (s : Sys n Cmd) : Sys n Cmd :=
  { s with
    capacity := fun i =>
      if s.outgrown i then
        max (s.rafts i).logEntries.length (s.grow (s.capacity i) (s.rafts i).logEntries.length)
      else s.capacity i
    threads := s.threads.map s.shown }

def step (s : Sys n Cmd) (a : Action n Cmd) : Option (Sys n Cmd) := (s.act a).map settle

end Sys

end Raft
