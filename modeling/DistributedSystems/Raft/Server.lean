import Mathlib.Data.List.OfFn
import Mathlib.Data.List.Sort
import Mathlib.Logic.Function.Basic

/-!
# A single Raft peer (`raft/raft.go`)

The state of one peer and the code it runs inside one critical section of `rf.mu`.  A function that
indexes `logEntries` returns an `Option`; `none` is the runtime panic of an index out of range.
Times are milliseconds; `now` is the reading of `time.Now()` and `rnd` the outcome of `rand`.
-/

namespace Raft

open Function

-- numerals for the peers
scoped instance neZero3 : @NeZero Nat Zero.ofOfNat0 3 := ⟨nofun⟩

scoped instance neZero4 : @NeZero Nat Zero.ofOfNat0 4 := ⟨nofun⟩

scoped instance neZero5 : @NeZero Nat Zero.ofOfNat0 5 := ⟨nofun⟩

/-- The field `identity`: 0 = follower, 1 = candidate, 2 = leader. -/
inductive Identity
  | follower
  | candidate
  | leader
  deriving DecidableEq, Repr

structure LogEntry (Cmd : Type) where
  term : Nat
  command : Option Cmd
  deriving DecidableEq, Repr

structure ApplyMsg (Cmd : Type) where
  commandValid : Bool
  command : Option Cmd
  commandIndex : Nat
  deriving DecidableEq, Repr

structure Saved (n : Nat) (Cmd : Type) where
  currentTerm : Nat
  votedFor : Option (Fin n)
  logEntries : List (LogEntry Cmd)
  deriving DecidableEq

/-- The Go struct `Raft` of one of `n` peers.  `votedFor = none` is the Go value `-1`;
`lastContact = none` is the zero `time.Time`, which is longer ago than any timeout; a term missing
from `firstIndexEachTerm` is `none`. -/
structure Server (n : Nat) (Cmd : Type) where
  me : Fin n
  dead : Bool
  persister : Option (Saved n Cmd)
  currentTerm : Nat
  votedFor : Option (Fin n)
  logEntries : List (LogEntry Cmd)
  commitIndex : Nat
  lastApplied : Nat
  nextIndex : Fin n → Nat
  matchIndex : Fin n → Nat
  electionTimeout : Nat
  lastHeartbeat : Nat
  identity : Identity
  lastContact : Option Nat
  firstIndexEachTerm : Nat → Option Nat

structure AppendEntriesArgs (n : Nat) (Cmd : Type) where
  term : Nat
  leaderId : Fin n
  prevLogIndex : Nat
  prevLogTerm : Nat
  entries : List (LogEntry Cmd)
  leaderCommit : Nat
  deriving DecidableEq

structure AppendEntriesReply where
  term : Nat
  success : Bool
  termOfConflictEntry : Int
  firstIndex : Int
  deriving DecidableEq, Repr

structure RequestVoteArgs (n : Nat) where
  term : Nat
  candidateId : Fin n
  lastLogIndex : Nat
  lastLogTerm : Nat
  deriving DecidableEq

structure RequestVoteReply where
  term : Nat
  voteGranted : Bool
  deriving DecidableEq, Repr

namespace Server

variable {n : Nat} {Cmd : Type}

/-! ## 1. Timeouts and persistence -/

/-- `min_timeout + rand.Intn(max_timeout - min_timeout)` milliseconds. -/
def resetElectionTimeout (rf : Server n Cmd) (rnd : Nat) : Server n Cmd :=
  { rf with electionTimeout := 300 + rnd % (600 - 300) }

def persist (rf : Server n Cmd) : Server n Cmd :=
  { rf with persister := some ⟨rf.currentTerm, rf.votedFor, rf.logEntries⟩ }

def readPersist (rf : Server n Cmd) (data : Option (Saved n Cmd)) : Server n Cmd :=
  match data with
  | none => rf
  | some d =>
    { rf with currentTerm := d.currentTerm, votedFor := d.votedFor, logEntries := d.logEntries }

def sentinel : LogEntry Cmd := ⟨0, none⟩

def make (me : Fin n) (persister : Option (Saved n Cmd)) (now rnd : Nat) : Server n Cmd :=
  let rf : Server n Cmd :=
    { me := me
      dead := false
      persister := persister
      currentTerm := 0
      votedFor := none
      logEntries := [sentinel]
      commitIndex := 0
      lastApplied := 0
      nextIndex := fun _ => 1
      matchIndex := fun _ => 0
      electionTimeout := 0
      lastHeartbeat := now
      identity := .follower
      lastContact := none
      firstIndexEachTerm := fun _ => none }
  (rf.resetElectionTimeout rnd).readPersist persister

/-- The conversion made on seeing a later term, in both handlers and in all three reply paths. -/
def convertToFollower (rf : Server n Cmd) (term : Nat) : Server n Cmd :=
  ({ rf with currentTerm := term, identity := .follower, votedFor := none } : Server n Cmd).persist

/-! ## 2. Applying committed entries -/

/-- The loop `for rf.lastApplied < rf.commitIndex`: the messages it sends on `applyCh`, in order. -/
def applyCommitted (rf : Server n Cmd) : Option (Server n Cmd × List (ApplyMsg Cmd)) := do
  let msgs ← (List.range' (rf.lastApplied + 1) (rf.commitIndex - rf.lastApplied)).mapM fun i =>
    (rf.logEntries[i]?).map fun e => (⟨true, e.command, i⟩ : ApplyMsg Cmd)
  some ({ rf with lastApplied := max rf.lastApplied rf.commitIndex }, msgs)

/-! ## 3. `AppendEntries` -/

/-- The handler's loop over `args.Entries`, at iteration `i`. -/
def appendLoop (prevLogIndex : Nat) :
    Nat → List (LogEntry Cmd) → Server n Cmd → Option (Server n Cmd)
  | _, [], rf => some rf
  | i, e :: es, rf =>
    let ldInd := prevLogIndex + i + 1
    if (rf.logEntries[ldInd]?).map LogEntry.term = some e.term then
      appendLoop prevLogIndex (i + 1) es rf
    else if rf.logEntries.length < ldInd then
      none
    else
      let log := rf.logEntries.take ldInd ++ [e]
      let rf := ({ rf with logEntries := log } : Server n Cmd).persist
      -- mark the index of the first entry of a new term
      match log[log.length - 2]? with
      | none => none
      | some before =>
        appendLoop prevLogIndex (i + 1) es
          (if before.term < e.term then
            { rf with firstIndexEachTerm :=
                update rf.firstIndexEachTerm e.term (some (log.length - 1)) }
          else rf)

def followCommit (rf : Server n Cmd) (leaderCommit : Nat) :
    Option (Server n Cmd × List (ApplyMsg Cmd)) :=
  if rf.commitIndex < leaderCommit then
    ({ rf with commitIndex := min leaderCommit (rf.logEntries.length - 1) } :
      Server n Cmd).applyCommitted
  else some (rf, [])

/-- What a handler does first with a request that is not from an earlier term. -/
def enterTerm (rf : Server n Cmd) (term : Nat) : Server n Cmd :=
  if rf.currentTerm < term then rf.convertToFollower term else rf

def appendEntries (now rnd : Nat) (rf : Server n Cmd) (args : AppendEntriesArgs n Cmd) :
    Option (Server n Cmd × AppendEntriesReply × List (ApplyMsg Cmd)) :=
  if args.term < rf.currentTerm then
    some (rf, ⟨rf.currentTerm, false, -1, -1⟩, [])
  else
    let rf := rf.enterTerm args.term
    let rf := ({ rf with lastHeartbeat := now } : Server n Cmd).resetElectionTimeout rnd
    match rf.logEntries[args.prevLogIndex]? with
    | none => some (rf, ⟨rf.currentTerm, false, -1, -1⟩, [])
    | some e =>
      if e.term ≠ args.prevLogTerm then
        let first := (rf.firstIndexEachTerm e.term).getD 0
        let rf := ({ rf with logEntries := rf.logEntries.take args.prevLogIndex } :
          Server n Cmd).persist
        some (rf, ⟨rf.currentTerm, false, e.term, first⟩, [])
      else do
        let rf ← appendLoop args.prevLogIndex 0 args.entries rf
        let (rf, msgs) ← rf.followCommit args.leaderCommit
        some ({ rf with lastHeartbeat := now }, ⟨rf.currentTerm, true, -1, -1⟩, msgs)

/-! ## 4. `RequestVote` -/

def requestVote (now rnd : Nat) (rf : Server n Cmd) (args : RequestVoteArgs n) :
    Option (Server n Cmd × RequestVoteReply) :=
  if args.term < rf.currentTerm then
    some (rf, ⟨rf.currentTerm, false⟩)
  else
    let rf := rf.enterTerm args.term
    match rf.logEntries[rf.logEntries.length - 1]? with
    | none => none
    | some last =>
      if last.term < args.lastLogTerm ∨
          (last.term = args.lastLogTerm ∧ rf.logEntries.length - 1 ≤ args.lastLogIndex) then
        if rf.votedFor = none ∨ rf.votedFor = some args.candidateId then
          let rf' := ({ rf with votedFor := some args.candidateId } : Server n Cmd).persist
          some (({ rf' with identity := .follower, lastHeartbeat := now } :
            Server n Cmd).resetElectionTimeout rnd, ⟨rf.currentTerm, true⟩)
        else some (rf, ⟨rf.currentTerm, false⟩)
      else some (rf, ⟨rf.currentTerm, false⟩)

/-! ## 5. The leader -/

def updateCommitIndex (rf : Server n Cmd) : Option (Server n Cmd × List (ApplyMsg Cmd)) :=
  let matchIndices := (List.ofFn rf.matchIndex).insertionSort (· ≤ ·)
  match matchIndices[matchIndices.length / 2]? with
  | none => none
  | some N =>
    if rf.commitIndex < N then
      match rf.logEntries[N]? with
      | none => none
      | some e =>
        if e.term = rf.currentTerm then
          ({ rf with commitIndex := N } : Server n Cmd).applyCommitted
        else rf.applyCommitted
    else rf.applyCommitted

/-- The request `ReplicateLog` sends, `some none` when the peer has everything already. -/
def replicateArgs (rf : Server n Cmd) (peerInd : Fin n) :
    Option (Option (AppendEntriesArgs n Cmd)) :=
  if rf.nextIndex peerInd < rf.logEntries.length then
    match rf.nextIndex peerInd with
    | 0 => none
    | prev + 1 =>
      (rf.logEntries[prev]?).map fun e =>
        some ⟨rf.currentTerm, rf.me, prev, e.term, rf.logEntries.drop (prev + 1), rf.commitIndex⟩
  else some none

/-- `ReplicateLog` on a reply: the new state, the messages applied, and whether it sends again. -/
def replicateReply (rf : Server n Cmd) (peerInd : Fin n) (args : AppendEntriesArgs n Cmd)
    (reply : AppendEntriesReply) : Option (Server n Cmd × List (ApplyMsg Cmd) × Bool) :=
  if rf.currentTerm < reply.term then
    some (rf.convertToFollower reply.term, [], false)
  else if reply.success then do
    let next := args.prevLogIndex + args.entries.length + 1
    let rf : Server n Cmd :=
      { rf with
        nextIndex := update rf.nextIndex peerInd next
        matchIndex := update rf.matchIndex peerInd (next - 1) }
    let (rf, msgs) ← rf.updateCommitIndex
    some (rf, msgs, false)
  else
    let next := if reply.firstIndex = -1 then max 1 (rf.nextIndex peerInd - 1)
      else max 1 reply.firstIndex.toNat
    some ({ rf with nextIndex := update rf.nextIndex peerInd next }, [], true)

def heartbeatArgs (rf : Server n Cmd) : Option (AppendEntriesArgs n Cmd) :=
  (rf.logEntries[rf.logEntries.length - 1]?).map fun e =>
    ⟨rf.currentTerm, rf.me, rf.logEntries.length - 1, e.term, [], rf.commitIndex⟩

/-- `Start`: a leader appends the command and counts it as replicated on itself.  The results are
the index the command will have, the term, and whether this peer is the leader. -/
def start (rf : Server n Cmd) (command : Cmd) : Server n Cmd × Nat × Nat × Bool :=
  if rf.identity ≠ .leader then
    (rf, rf.logEntries.length, rf.currentTerm, false)
  else
    let log := rf.logEntries ++ [⟨rf.currentTerm, some command⟩]
    let rf' := ({ rf with logEntries := log } : Server n Cmd).persist
    ({ rf' with
        nextIndex := update rf.nextIndex rf.me log.length
        matchIndex := update rf.matchIndex rf.me (log.length - 1) },
      rf.logEntries.length, rf.currentTerm, true)

/-! ## 6. Elections -/

/-- `time.Since(rf.lastContact) > rf.electionTimeout`. -/
def contactLost (rf : Server n Cmd) (now : Nat) : Bool :=
  match rf.lastContact with
  | none => true
  | some t => decide (rf.electionTimeout < now - t)

/-- The leader's branch of `ticker`: the majority could not be reached for a whole timeout. -/
def quorumLost (rf : Server n Cmd) (now : Nat) : Bool :=
  rf.identity = .leader && rf.contactLost now

/-- One iteration of `ticker`; the flag says that it goes on to `launch_election`. -/
def tick (rf : Server n Cmd) (now rnd : Nat) : Server n Cmd × Bool :=
  if rf.quorumLost now then
    let rf := ({ rf with identity := .follower, votedFor := none } : Server n Cmd).persist
    (({ rf with lastHeartbeat := now } : Server n Cmd).resetElectionTimeout rnd, false)
  else if rf.identity ≠ .leader ∧ rf.electionTimeout < now - rf.lastHeartbeat then
    ({ rf with identity := .candidate }, true)
  else (rf, false)

def launchElection (rf : Server n Cmd) (now rnd : Nat) : Server n Cmd :=
  let rf := ({ rf with currentTerm := rf.currentTerm + 1, votedFor := some rf.me } :
    Server n Cmd).persist
  ({ rf with lastHeartbeat := now } : Server n Cmd).resetElectionTimeout rnd

/-- The request a vote goroutine builds, from the state it finds when it runs. -/
def voteArgs (rf : Server n Cmd) : RequestVoteArgs n :=
  match rf.logEntries[rf.logEntries.length - 1]? with
  | none => ⟨rf.currentTerm, rf.me, 0, 0⟩
  | some e => ⟨rf.currentTerm, rf.me, rf.logEntries.length - 1, e.term⟩

def majority (n : Nat) : Nat := n / 2 + 1

def becomeLeader (rf : Server n Cmd) : Server n Cmd :=
  { rf with
    identity := .leader
    nextIndex := fun _ => rf.logEntries.length
    matchIndex := fun _ => 0 }

end Server

end Raft
