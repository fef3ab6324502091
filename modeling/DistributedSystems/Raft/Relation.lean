import DistributedSystems.Library.Completeness
import DistributedSystems.Raft.Elections

/-!
# The cluster as a replicated log

`Rel` relates a state of the cluster to an abstract `Cluster`.  The proposition `tracked` says how much
of it is followed: the logs, the leaders and the requests always, under `tracked` also the votes, what
was acknowledged and what is committed.
-/

namespace Raft

open ReplicatedLog

variable {n : Nat} {Cmd : Type}

/-- Elections take `n / 2 + 1` votes, `UpdateCommitIndex` takes `n - n / 2` peers. -/
def quorums (n : Nat) : Quorums (Fin n) where
  elect Q := Server.majority n ≤ Q.card
  commit Q := n - n / 2 ≤ Q.card
  elect_meets Q Q' h h' := exists_mem_of_card_lt (by unfold Server.majority at h h'; omega)
  commit_meets Q Q' h h' := exists_mem_of_card_lt (by unfold Server.majority at h; omega)

/-! ## 1. The relation -/

section

variable (tracked : Prop) (A : Cluster (Fin n) (LogEntry Cmd))

def MayLead (A : Cluster (Fin n) (LogEntry Cmd)) (c : Fin n) : Prop :=
  tracked → A.Elected (quorums n) c

structure ServerOK (i : Fin n) (rf : Server n Cmd) : Prop where
  term : A.term i = rf.currentTerm
  log : A.log i = rf.logEntries
  leads : rf.identity = .leader → A.leaderOf rf.currentTerm = some i
  voted : tracked → ∀ c, rf.votedFor = some c → ∃ v, A.votes i rf.currentTerm = some v ∧ v.cand = c
  unvoted : tracked → rf.votedFor = none → A.votes i rf.currentTerm = none
  matched : tracked → A.leaderOf rf.currentTerm = some i →
    ∀ j, rf.matchIndex j = 0 ∨ A.acked j rf.currentTerm (rf.matchIndex j)
  settled : tracked → A.Settled (quorums n) rf.currentTerm rf.logEntries rf.commitIndex

/-- A candidate that asked for votes in its term had that log. -/
def Asks (th : Thread n Cmd) (args : RequestVoteArgs n) : Prop :=
  tracked → args.candidateId = th.owner ∧
    A.Standing args.term ⟨th.owner, args.lastLogTerm, args.lastLogIndex, []⟩

/-- An `AppendEntries` request is a piece of the log of the leader of its term.  As long as it is not
encoded its entries are only under `live`. -/
structure Carries (live : Prop) (owner : Fin n) (args : AppendEntriesArgs n Cmd) : Prop where
  leader : A.leaderOf args.term = some owner
  reach : args.prevLogIndex + 1 + args.entries.length ≤ (A.leaderLog args.term).length
  prev : ∃ e, (A.leaderLog args.term)[args.prevLogIndex]? = some e ∧ e.term = args.prevLogTerm
  entries : live → args.entries = ((A.leaderLog args.term).take
    (args.prevLogIndex + 1 + args.entries.length)).drop (args.prevLogIndex + 1)
  commit : tracked → args.leaderCommit ≤ args.prevLogIndex + args.entries.length ∧
    A.Settled (quorums n) args.term (A.leaderLog args.term) args.leaderCommit

def ThreadOK (th : Thread n Cmd) : Prop :=
  match th.job with
  | .voteSent _ args => Asks tracked A th args
  | .replicateTop => th.peer ≠ th.owner
  | .replicateSending args _ _ =>
    th.peer ≠ th.owner ∧ Carries tracked A (A.term th.owner = args.term) th.owner args
  | .replicateSent args => th.peer ≠ th.owner ∧ Carries tracked A True th.owner args
  | .replicateReplied args reply =>
    th.peer ≠ th.owner ∧ Carries tracked A True th.owner args ∧
      (reply.success = true → A.acked th.peer args.term (args.prevLogIndex + args.entries.length))
  | .heartbeatReady _ => th.peer ≠ th.owner
  | .heartbeatSent _ args => th.peer ≠ th.owner ∧ Carries tracked A True th.owner args
  | _ => True

structure Rel (s : Sys n Cmd) : Prop where
  inv : Cluster.LogInv Server.sentinel A
  safe : tracked → Cluster.SafeInv (quorums n) Server.sentinel A
  servers : ∀ i, ServerOK tracked A i (s.rafts i)
  threads : ∀ th ∈ s.threads, ThreadOK tracked A th
  applied : tracked → ∀ x ∈ s.applied, ∃ e, A.Chosen (quorums n) x.2.commandIndex e ∧
    x.2.command = e.command

end

variable {tracked : Prop} {A A' : Cluster (Fin n) (LogEntry Cmd)} {s : Sys n Cmd}
  {i : Fin n} {th : Thread n Cmd}

/-! ## 2. What lasts -/

theorem Carries.lasts (hext : Cluster.Extends A A') {live live' : Prop} (hlive : live' → live)
    {owner : Fin n} {args : AppendEntriesArgs n Cmd} (h : Carries tracked A live owner args) :
    Carries tracked A' live' owner args := by
  have hle := hext.leaderLog_le args.term
  obtain ⟨e, he, ht⟩ := h.prev
  refine ⟨hext.leaderOf _ _ h.leader, h.reach.trans hle.length_le, ⟨e, prefix_getElem? hle he, ht⟩,
    fun hl => ?_, fun hc => ?_⟩
  · rw [hext.take_leaderLog h.reach]
    exact h.entries (hlive hl)
  · obtain ⟨h1, h2⟩ := h.commit hc
    exact ⟨h1, h2.lasts hext le_rfl hle⟩

theorem ThreadOK.lasts (hinv : Cluster.LogInv Server.sentinel A) (hl : Cluster.Local i A A')
    (h : ThreadOK tracked A th) : ThreadOK tracked A' th := by
  unfold ThreadOK at h ⊢
  split at h
  · exact fun ht => ⟨(h ht).1, hl.standing _ _ (h ht).2⟩
  · exact h
  · -- an owner that is in the term of its request has never left it
    refine ⟨h.1, h.2.lasts hl.toExtends fun hnow => ?_⟩
    have hle := (hinv.own _ _ h.2.leader).1
    have hmono := hl.term th.owner
    omega
  · exact ⟨h.1, h.2.lasts hl.toExtends id⟩
  · exact ⟨h.1, h.2.1.lasts hl.toExtends id, fun hs => hl.acked _ _ _ (h.2.2 hs)⟩
  · exact h
  · exact ⟨h.1, h.2.lasts hl.toExtends id⟩
  · trivial

theorem ServerOK.other (hl : Cluster.Local i A A') {j : Fin n} (hj : j ≠ i) {rf : Server n Cmd}
    (h : ServerOK tracked A j rf) : ServerOK tracked A' j rf := by
  obtain ⟨ht, hlog, hv⟩ := hl.others j hj
  refine ⟨ht.trans h.term, hlog.trans h.log, fun hid => hl.leaderOf _ _ (h.leads hid), ?_, ?_,
    fun hc hlead k => ?_, fun hc => (h.settled hc).lasts hl.toExtends le_rfl List.prefix_rfl⟩
  · rw [hv]
    exact h.voted
  · rw [hv]
    exact h.unvoted
  · exact (h.matched hc (hl.leaders _ _ hj hlead) k).imp_right fun ha => hl.acked _ _ _ ha

/-! ## 3. The relation under each kind of update -/

theorem Rel.setRaft (h : Rel tracked A s) (hs : Cluster.Steps (MayLead tracked) i A A')
    {rf : Server n Cmd} (hrf : ServerOK tracked A' i rf) : Rel tracked A' (s.setRaft i rf) := by
  obtain ⟨hinv, hl⟩ := h.inv.steps hs
  refine ⟨hinv, fun hel => ?_, fun j => ?_, fun th hth => (h.threads th hth).lasts h.inv hl,
    fun hc x hx => ?_⟩
  · exact (h.safe hel).steps
      (Relation.ReflTransGen.mono (fun _ _ hstep => hstep.mono fun _ _ hP => hP hel) _ _ hs)
  · by_cases hj : j = i
    · subst hj
      simp only [Sys.setRaft, Function.update_self]
      exact hrf
    · simp only [Sys.setRaft, Function.update_of_ne hj]
      exact (h.servers j).other hl hj
  · obtain ⟨e, he, hcmd⟩ := h.applied hc x hx
    exact ⟨e, he.lasts hl.toExtends, hcmd⟩

/-- The goroutines are other ones. -/
theorem Rel.rethread {s' : Sys n Cmd} (h : Rel tracked A s) (hrafts : s'.rafts = s.rafts)
    (happlied : s'.applied = s.applied) (hok : ∀ th ∈ s'.threads, ThreadOK tracked A th) :
    Rel tracked A s' :=
  ⟨h.inv, h.safe, fun i => by rw [hrafts]; exact h.servers i, hok, by
    rw [happlied]; exact h.applied⟩

theorem Rel.setThread (h : Rel tracked A s) {t : Nat} (hok : ThreadOK tracked A th) :
    Rel tracked A (s.setThread t th) := by
  refine h.rethread rfl rfl fun x hx => ?_
  rcases List.mem_or_eq_of_mem_set hx with hx | rfl
  · exact h.threads x hx
  · exact hok

theorem Rel.spawn (h : Rel tracked A s) (ths : List (Thread n Cmd))
    (hok : ∀ th ∈ ths, ThreadOK tracked A th) : Rel tracked A (s.spawn ths) :=
  h.rethread rfl rfl fun x hx => (List.mem_append.mp hx).elim (h.threads x) (hok x)

theorem Rel.apply (h : Rel tracked A s) {msgs : List (ApplyMsg Cmd)}
    (hm : tracked → ∀ m ∈ msgs, ∃ e, A.Chosen (quorums n) m.commandIndex e ∧
      m.command = e.command) : Rel tracked A (s.apply i msgs) := by
  refine ⟨h.inv, h.safe, h.servers, h.threads, fun hc x hx => ?_⟩
  rcases List.mem_append.mp hx with hx | hx
  · exact h.applied hc x hx
  · obtain ⟨m, hmm, rfl⟩ := List.mem_map.mp hx
    exact hm hc m hmm

theorem Rel.congr (h : Rel tracked A s) (clock : Nat) (launching : Fin n → Bool)
    (elections : List (Election n)) (rounds : List Nat) :
    Rel tracked A { s with
      clock := clock, launching := launching, elections := elections, rounds := rounds } :=
  ⟨h.inv, h.safe, h.servers, h.threads, h.applied⟩

/-- The owner of a request that is still in its term has the leader's log, so what the request shows
of it is the leader's. -/
theorem Carries.reread (hinv : Cluster.LogInv Server.sentinel A) {rf : Server n Cmd}
    (hrf : ServerOK tracked A i rf) {args : AppendEntriesArgs n Cmd}
    (h : Carries tracked A (A.term i = args.term) i args) (read : Nat) :
    Carries tracked A (A.term i = args.term) i (args.reread read rf.logEntries) := by
  have hlen : (args.reread read rf.logEntries).entries.length = args.entries.length :=
    List.length_mapIdx
  refine ⟨h.leader, ?_, h.prev, fun hnow => ?_, fun hc => ?_⟩
  · rw [hlen]
    exact h.reach
  · have hown : A.leaderLog args.term = rf.logEntries := by
      rw [← hrf.log]
      exact ((hinv.own _ _ h.leader).2 hnow).symm
    have hold := h.entries hnow
    have hreach := h.reach
    rw [hlen]
    show args.entries.mapIdx _ = ((A.leaderLog args.term).take
      (args.prevLogIndex + 1 + args.entries.length)).drop (args.prevLogIndex + 1)
    rw [hown] at hold hreach ⊢
    refine List.ext_getElem? fun j => ?_
    have hj := congrArg (fun l => l[j]?) hold
    simp only [List.getElem?_drop] at hj
    rw [List.getElem?_mapIdx, List.getElem?_drop, ← hj]
    rcases Nat.lt_or_ge j args.entries.length with hlt | hge
    · rw [List.getElem?_take_of_lt (by omega)] at hj
      rw [hj, List.getElem?_eq_getElem (by omega), Option.map_some]
      split <;> rfl
    · rw [List.getElem?_eq_none hge, Option.map_none]
  · rw [hlen]
    exact h.commit hc

theorem Rel.settle (h : Rel tracked A s) : Rel tracked A s.settle := by
  refine h.rethread rfl rfl fun x hx => ?_
  obtain ⟨th, hth, rfl⟩ := List.mem_map.mp hx
  have hok := h.threads th hth
  rcases Sys.shown_cases s th with hs | ⟨args, read, hj, hs⟩
  · rw [hs]
    exact hok
  · rw [hs]
    unfold ThreadOK at hok
    rw [hj] at hok
    exact ⟨hok.1, hok.2.reread h.inv (h.servers th.owner) read⟩

end Raft
