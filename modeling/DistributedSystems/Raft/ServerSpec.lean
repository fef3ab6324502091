import Mathlib.Data.Fintype.Card
import Mathlib.Data.Fin.Tuple.Sort
import Mathlib.Data.List.FinRange
import DistributedSystems.Library.LeaderLogs
import DistributedSystems.Library.OrderStatistics
import DistributedSystems.Raft.Server

/-!
# What the code of one peer does

One lemma for each function of `Server`: which fields it can change and how.  The proofs about the
cluster use these and do not unfold the functions again.
-/

namespace Raft

open ReplicatedLog

variable {n : Nat} {Cmd : Type}

instance : Termed (LogEntry Cmd) := ⟨LogEntry.term⟩

namespace Server

/-! ## 1. Persistence -/

/-- What was saved last is the present state, or nothing was saved and nothing has changed. -/
def Persisted (rf : Server n Cmd) : Prop :=
  rf.persister = some ⟨rf.currentTerm, rf.votedFor, rf.logEntries⟩ ∨
    (rf.persister = none ∧ rf.currentTerm = 0 ∧ rf.votedFor = none ∧ rf.logEntries = [sentinel])

theorem persisted_make (me : Fin n) (now rnd : Nat) :
    (make me none now rnd : Server n Cmd).Persisted := Or.inr ⟨rfl, rfl, rfl, rfl⟩

theorem Persisted.make {rf : Server n Cmd} (h : rf.Persisted) (me : Fin n) (now rnd : Nat) :
    (make me rf.persister now rnd).currentTerm = rf.currentTerm ∧
      (Server.make me rf.persister now rnd).votedFor = rf.votedFor ∧
      (Server.make me rf.persister now rnd).logEntries = rf.logEntries ∧
      (Server.make me rf.persister now rnd).Persisted := by
  rcases h with h | ⟨h, ht, hv, hl⟩
  · rw [h]
    exact ⟨rfl, rfl, rfl, Or.inl rfl⟩
  · rw [h, ht, hv, hl]
    exact ⟨rfl, rfl, rfl, Or.inr ⟨rfl, rfl, rfl, rfl⟩⟩

@[simp] theorem make_identity (me : Fin n) (p : Option (Saved n Cmd)) (now rnd : Nat) :
    (make me p now rnd).identity = .follower := by
  cases p <;> rfl

@[simp] theorem make_me (me : Fin n) (p : Option (Saved n Cmd)) (now rnd : Nat) :
    (make me p now rnd).me = me := by
  cases p <;> rfl

@[simp] theorem make_matchIndex (me : Fin n) (p : Option (Saved n Cmd)) (now rnd : Nat) :
    (make me p now rnd).matchIndex = fun _ => 0 := by
  cases p <;> rfl

@[simp] theorem make_commitIndex (me : Fin n) (p : Option (Saved n Cmd)) (now rnd : Nat) :
    (make me p now rnd).commitIndex = 0 := by
  cases p <;> rfl

/-! ## 2. The beginning of a handler -/

theorem enterTerm_currentTerm {rf : Server n Cmd} {T : Nat} (h : rf.currentTerm ≤ T) :
    (rf.enterTerm T).currentTerm = T := by
  unfold enterTerm
  split
  · rfl
  · omega

@[simp] theorem enterTerm_logEntries (rf : Server n Cmd) (T : Nat) :
    (rf.enterTerm T).logEntries = rf.logEntries := by
  unfold enterTerm; split <;> rfl

@[simp] theorem enterTerm_me (rf : Server n Cmd) (T : Nat) : (rf.enterTerm T).me = rf.me := by
  unfold enterTerm; split <;> rfl

/-! ## 3. Applying entries -/

theorem exists_of_mem_mapM {α β : Type} {f : α → Option β} {l : List α} :
    ∀ {out : List β}, l.mapM f = some out → ∀ b ∈ out, ∃ a ∈ l, f a = some b := by
  induction l with
  | nil =>
    intro out h b hb
    rw [List.mapM_nil] at h
    cases h
    exact absurd hb List.not_mem_nil
  | cons a l ih =>
    intro out h b hb
    rw [List.mapM_cons] at h
    obtain ⟨c, hc, h⟩ := Option.bind_eq_some_iff.mp h
    obtain ⟨cs, hcs, h⟩ := Option.bind_eq_some_iff.mp h
    cases h
    rcases List.mem_cons.mp hb with rfl | hb
    · exact ⟨a, List.mem_cons_self, hc⟩
    · obtain ⟨x, hx, hf⟩ := ih hcs b hb
      exact ⟨x, List.mem_cons_of_mem a hx, hf⟩

variable {rf rf' : Server n Cmd} {msgs : List (ApplyMsg Cmd)} {now rnd : Nat}
  {args : AppendEntriesArgs n Cmd} {reply : AppendEntriesReply} {peer : Fin n} {again : Bool}

theorem applyCommitted_spec (h : rf.applyCommitted = some (rf', msgs)) :
    rf' = { rf with lastApplied := max rf.lastApplied rf.commitIndex } ∧
      ∀ m ∈ msgs, 0 < m.commandIndex ∧ m.commandIndex ≤ rf.commitIndex ∧
        ∃ e, rf.logEntries[m.commandIndex]? = some e ∧ m.command = e.command := by
  unfold applyCommitted at h
  obtain ⟨ms, hms, hr⟩ := Option.bind_eq_some_iff.mp h
  obtain ⟨rfl, rfl⟩ := Prod.mk.inj (Option.some.inj hr)
  refine ⟨rfl, fun m hm => ?_⟩
  obtain ⟨i, hi, hm'⟩ := exists_of_mem_mapM hms m hm
  obtain ⟨e, he, rfl⟩ := Option.map_eq_some_iff.mp hm'
  have hi' := List.mem_range'_1.mp hi
  have hle : 0 < i ∧ i ≤ rf.commitIndex := by omega
  exact ⟨hle.1, hle.2, e, he, rfl⟩

/-! ## 4. `AppendEntries` -/

theorem appendLoop_spec {prev : Nat} :
    ∀ {es : List (LogEntry Cmd)} {i : Nat} {rf rf' : Server n Cmd},
      appendLoop prev i es rf = some rf' →
      rf' = { rf with
        logEntries := rf'.logEntries
        persister := rf'.persister
        firstIndexEachTerm := rf'.firstIndexEachTerm } ∧
      (rf.Persisted → rf'.Persisted) := by
  intro es
  induction es with
  | nil =>
    intro i rf rf' h
    cases h
    exact ⟨rfl, id⟩
  | cons e es ih =>
    intro i rf rf' h
    unfold appendLoop at h
    dsimp only at h
    split at h
    · exact ih h
    · split at h
      · cases h
      · split at h
        · cases h
        · rename_i before _
          obtain ⟨hr, hp⟩ := ih h
          -- the state handed to the next iteration differs in the three fields only
          split at hr <;> split at hp <;> exact ⟨hr, fun _ => hp (Or.inl rfl)⟩

/-- The log after the loop, when the request carries the part of `src` after `prev`: what `src`
gives is in it, and it was left alone when that was so before. -/
theorem appendLoop_grafted {ll : Nat → List (LogEntry Cmd)} {src : List (LogEntry Cmd)}
    (hsrc : Matches ll src) {prev k : Nat} (hk : k ≤ src.length) :
    ∀ {es : List (LogEntry Cmd)} {i : Nat} {rf rf' : Server n Cmd},
      appendLoop prev i es rf = some rf' → es = (src.take k).drop (prev + 1 + i) →
      prev + 1 + i + es.length = k → Matches ll rf.logEntries →
      src.take (prev + 1 + i) <+: rf.logEntries →
      Cluster.Grafted rf.logEntries src k rf'.logEntries := by
  intro es
  induction es with
  | nil =>
    intro i rf rf' h _ hlen _ hpre
    cases h
    rw [List.length_nil, Nat.add_zero] at hlen
    rw [hlen] at hpre
    exact Or.inl ⟨rfl, hpre⟩
  | cons e es ih =>
    intro i rf rf' h hes hlen hm hpre
    have hld : prev + i + 1 = prev + 1 + i := by omega
    rw [List.length_cons] at hlen
    have hcons : (src.take k)[prev + 1 + i]? = some e := by
      have h0 := congrArg (fun l => l[0]?) hes
      simpa [List.getElem?_drop] using h0.symm
    have he : src[prev + 1 + i]? = some e := by
      rwa [List.getElem?_take_of_lt (by omega)] at hcons
    have hes' : es = (src.take k).drop (prev + 1 + (i + 1)) := by
      have h1 := congrArg List.tail hes
      rw [List.tail_cons, List.tail_drop] at h1
      exact h1
    unfold appendLoop at h
    dsimp only at h
    rw [hld] at h
    split at h
    · -- the entry is there already, and so is all before it
      rename_i hmatch
      obtain ⟨x, hx, hxt⟩ := Option.map_eq_some_iff.mp hmatch
      refine ih h hes' (by omega) hm ?_
      rw [show prev + 1 + (i + 1) = prev + 1 + i + 1 by omega, ← hm.agree hsrc hx he hxt]
      exact List.take_prefix _ _
    · rename_i hmis
      split at h
      · cases h
      · rename_i hle
        split at h
        · cases h
        · rename_i before _
          -- from here on the log is a prefix of `src`
          have htake : rf.logEntries.take (prev + 1 + i) ++ [e] = src.take (prev + 1 + i + 1) := by
            rw [List.take_add_one, he, Option.toList_some]
            have hl := List.prefix_iff_eq_take.mp hpre
            rw [List.length_take, min_eq_left (by omega)] at hl
            rw [← hl]
          have hno : ¬ src.take k <+: rf.logEntries := by
            intro hp
            have hx := take_prefix_getElem? hp (by omega) he
            rw [hx] at hmis
            exact hmis rfl
          have hres : ∀ {rf1 : Server n Cmd}, rf1.logEntries = src.take (prev + 1 + i + 1) →
              appendLoop prev (i + 1) es rf1 = some rf' → rf'.logEntries = src.take k := by
            intro rf1 hlog1 h1
            have hg := ih h1 hes' (by omega)
              (by rw [hlog1]; exact hsrc.restrict (List.take_prefix _ _))
              (by rw [hlog1]; exact List.prefix_rfl)
            rcases hg with ⟨hr, hp⟩ | ⟨hr, _⟩
            · rw [hr, hlog1]
              rw [hlog1] at hp
              have hl := hp.length_le
              rw [List.length_take, List.length_take] at hl
              have hk1 : k = prev + 1 + i + 1 := by omega
              rw [hk1]
            · exact hr
          refine Or.inr ⟨?_, hno⟩
          apply hres _ h
          split
          · exact htake
          · exact htake

theorem followCommit_spec {lc : Nat} (h : rf.followCommit lc = some (rf', msgs)) :
    rf' = { rf with commitIndex := rf'.commitIndex, lastApplied := rf'.lastApplied } ∧
      (rf'.commitIndex = rf.commitIndex ∨ rf'.commitIndex = min lc (rf.logEntries.length - 1)) ∧
      ∀ m ∈ msgs, 0 < m.commandIndex ∧ m.commandIndex ≤ rf'.commitIndex ∧
        ∃ e, rf.logEntries[m.commandIndex]? = some e ∧ m.command = e.command := by
  unfold followCommit at h
  split at h
  · obtain ⟨rfl, hm⟩ := applyCommitted_spec h
    exact ⟨rfl, Or.inr rfl, hm⟩
  · cases h
    exact ⟨rfl, Or.inl rfl, fun m hm => absurd hm List.not_mem_nil⟩

def heard (now rnd : Nat) (rf : Server n Cmd) (T : Nat) : Server n Cmd :=
  ({ rf.enterTerm T with lastHeartbeat := now } : Server n Cmd).resetElectionTimeout rnd

inductive AppendOutcome (now rnd : Nat) (rf : Server n Cmd) (args : AppendEntriesArgs n Cmd) :
    Server n Cmd → AppendEntriesReply → List (ApplyMsg Cmd) → Prop
  | stale (h : args.term < rf.currentTerm) :
      AppendOutcome now rnd rf args rf ⟨rf.currentTerm, false, -1, -1⟩ []
  | short (h : rf.currentTerm ≤ args.term) (hlog : rf.logEntries[args.prevLogIndex]? = none) :
      AppendOutcome now rnd rf args (heard now rnd rf args.term) ⟨args.term, false, -1, -1⟩ []
  | conflict {e : LogEntry Cmd} {first : Int} (h : rf.currentTerm ≤ args.term)
      (hlog : rf.logEntries[args.prevLogIndex]? = some e) (hne : e.term ≠ args.prevLogTerm) :
      AppendOutcome now rnd rf args
        ({ heard now rnd rf args.term with
          logEntries := rf.logEntries.take args.prevLogIndex } : Server n Cmd).persist
        ⟨args.term, false, e.term, first⟩ []
  | accepted {e : LogEntry Cmd} {rf1 rf2 : Server n Cmd} {msgs : List (ApplyMsg Cmd)}
      (h : rf.currentTerm ≤ args.term)
      (hlog : rf.logEntries[args.prevLogIndex]? = some e) (heq : e.term = args.prevLogTerm)
      (hloop : appendLoop args.prevLogIndex 0 args.entries (heard now rnd rf args.term) = some rf1)
      (hcommit : rf1.followCommit args.leaderCommit = some (rf2, msgs)) :
      AppendOutcome now rnd rf args { rf2 with lastHeartbeat := now } ⟨rf2.currentTerm, true, -1, -1⟩
        msgs

@[simp] theorem heard_logEntries (now rnd : Nat) (rf : Server n Cmd) (T : Nat) :
    (heard now rnd rf T).logEntries = rf.logEntries := enterTerm_logEntries rf T

theorem heard_currentTerm {T : Nat} (h : rf.currentTerm ≤ T) :
    (heard now rnd rf T).currentTerm = T := enterTerm_currentTerm h

theorem appendEntries_outcome (h : appendEntries now rnd rf args = some (rf', reply, msgs)) :
    AppendOutcome now rnd rf args rf' reply msgs := by
  unfold appendEntries at h
  split at h
  · rename_i hlt
    cases h
    exact .stale hlt
  · rename_i hge
    have hle : rf.currentTerm ≤ args.term := by omega
    have hterm : (heard now rnd rf args.term).currentTerm = args.term := heard_currentTerm hle
    have hkept := heard_logEntries now rnd rf args.term
    dsimp only at h
    split at h
    · rename_i hlog
      change some (heard now rnd rf args.term,
        (⟨(heard now rnd rf args.term).currentTerm, false, -1, -1⟩ : AppendEntriesReply), []) = _ at h
      rw [hterm] at h
      cases h
      exact .short hle (hkept ▸ hlog)
    · rename_i e hlog
      replace hlog : rf.logEntries[args.prevLogIndex]? = some e := hkept ▸ hlog
      split at h
      · rename_i hne
        change some (({ heard now rnd rf args.term with
          logEntries := (heard now rnd rf args.term).logEntries.take args.prevLogIndex } :
            Server n Cmd).persist, (⟨(heard now rnd rf args.term).currentTerm, false, e.term, _⟩ :
            AppendEntriesReply), []) = _ at h
        rw [heard_logEntries, hterm] at h
        cases h
        exact .conflict hle hlog hne
      · rename_i heq
        obtain ⟨rf1, hloop, h⟩ := Option.bind_eq_some_iff.mp h
        obtain ⟨⟨rf2, ms⟩, hcommit, h⟩ := Option.bind_eq_some_iff.mp h
        cases h
        exact .accepted hle hlog (not_not.mp heq) hloop hcommit

/-! ## 5. `RequestVote` -/

inductive VoteOutcome (now rnd : Nat) (rf : Server n Cmd) (args : RequestVoteArgs n) :
    Server n Cmd → RequestVoteReply → Prop
  | stale (h : args.term < rf.currentTerm) :
      VoteOutcome now rnd rf args rf ⟨rf.currentTerm, false⟩
  | refused (h : rf.currentTerm ≤ args.term) :
      VoteOutcome now rnd rf args (rf.enterTerm args.term)
        ⟨(rf.enterTerm args.term).currentTerm, false⟩
  | granted (h : rf.currentTerm ≤ args.term)
      (hup : UpToDate args.lastLogTerm args.lastLogIndex rf.logEntries)
      (hfree : (rf.enterTerm args.term).votedFor = none ∨
        (rf.enterTerm args.term).votedFor = some args.candidateId) :
      VoteOutcome now rnd rf args
        (({ ({ rf.enterTerm args.term with votedFor := some args.candidateId } :
            Server n Cmd).persist with identity := .follower, lastHeartbeat := now } :
          Server n Cmd).resetElectionTimeout rnd) ⟨(rf.enterTerm args.term).currentTerm, true⟩

theorem requestVote_outcome {args : RequestVoteArgs n} {reply : RequestVoteReply}
    (h : requestVote now rnd rf args = some (rf', reply)) :
    VoteOutcome now rnd rf args rf' reply := by
  unfold requestVote at h
  split at h
  · rename_i hlt
    cases h
    exact .stale hlt
  · rename_i hge
    have hle : rf.currentTerm ≤ args.term := by omega
    dsimp only at h
    split at h
    · cases h
    · rename_i last hlast
      rw [enterTerm_logEntries] at hlast
      split at h
      · rename_i hup
        split at h
        · rename_i hfree
          cases h
          refine .granted hle ?_ hfree
          unfold UpToDate
          rw [lastTerm_eq hlast]
          rwa [enterTerm_logEntries] at hup
        · cases h
          exact .refused hle
      · cases h
        exact .refused hle

theorem VoteOutcome.votedFor {args : RequestVoteArgs n} {reply : RequestVoteReply}
    (h : VoteOutcome now rnd rf args rf' reply) (hg : reply.voteGranted = true) :
    rf'.votedFor = some args.candidateId := by
  cases h with
  | stale _ => contradiction
  | refused _ => contradiction
  | granted _ _ _ => rfl

/-! ## 6. The leader's bookkeeping -/

theorem median_le_card {f : Fin n → Nat} {N : Nat}
    (h : ((List.ofFn f).insertionSort (· ≤ ·))[n / 2]? = some N) :
    n - n / 2 ≤ (Finset.univ.filter fun j => N ≤ f j).card :=
  (OrderStatistics.le_iff_card h).mp le_rfl

theorem updateCommitIndex_spec (h : rf.updateCommitIndex = some (rf', msgs)) :
    rf' = { rf with commitIndex := rf'.commitIndex, lastApplied := rf'.lastApplied } ∧
      (rf'.commitIndex = rf.commitIndex ∨
        n - n / 2 ≤ (Finset.univ.filter fun j => rf'.commitIndex ≤ rf.matchIndex j).card ∧
        ∃ e, rf.logEntries[rf'.commitIndex]? = some e ∧ e.term = rf.currentTerm) ∧
      ∀ m ∈ msgs, 0 < m.commandIndex ∧ m.commandIndex ≤ rf'.commitIndex ∧
        ∃ e, rf.logEntries[m.commandIndex]? = some e ∧ m.command = e.command := by
  -- without a new index the entries committed before are applied
  have hsame : ∀ {r : Server n Cmd} {ms : List (ApplyMsg Cmd)}, rf.applyCommitted = some (r, ms) →
      r = { rf with commitIndex := r.commitIndex, lastApplied := r.lastApplied } ∧
      r.commitIndex = rf.commitIndex ∧
      ∀ m ∈ ms, 0 < m.commandIndex ∧ m.commandIndex ≤ r.commitIndex ∧
        ∃ e, rf.logEntries[m.commandIndex]? = some e ∧ m.command = e.command := by
    intro r ms hr
    obtain ⟨rfl, hm⟩ := applyCommitted_spec hr
    exact ⟨rfl, rfl, hm⟩
  unfold updateCommitIndex at h
  dsimp only at h
  rw [List.length_insertionSort, List.length_ofFn] at h
  split at h
  · cases h
  · rename_i N hN
    split at h
    · split at h
      · cases h
      · rename_i e he
        split at h
        · rename_i hterm
          obtain ⟨rfl, hm⟩ := applyCommitted_spec h
          exact ⟨rfl, Or.inr ⟨median_le_card hN, e, he, hterm⟩, hm⟩
        · obtain ⟨h1, h2, h3⟩ := hsame h
          exact ⟨h1, Or.inl h2, h3⟩
    · obtain ⟨h1, h2, h3⟩ := hsame h
      exact ⟨h1, Or.inl h2, h3⟩

inductive CreditOutcome (rf : Server n Cmd) (peer : Fin n) (args : AppendEntriesArgs n Cmd)
    (reply : AppendEntriesReply) : Server n Cmd → List (ApplyMsg Cmd) → Bool → Prop
  | later (h : rf.currentTerm < reply.term) :
      CreditOutcome rf peer args reply (rf.convertToFollower reply.term) [] false
  | credited {nextIndex : Fin n → Nat} {rf1 : Server n Cmd} {msgs : List (ApplyMsg Cmd)}
      (h : reply.term ≤ rf.currentTerm) (hs : reply.success = true)
      (hupd : ({ rf with
        nextIndex := nextIndex
        matchIndex := Function.update rf.matchIndex peer
          (args.prevLogIndex + args.entries.length) } : Server n Cmd).updateCommitIndex =
          some (rf1, msgs)) : CreditOutcome rf peer args reply rf1 msgs false
  | retried {nextIndex : Fin n → Nat} (h : reply.term ≤ rf.currentTerm)
      (hs : reply.success = false) :
      CreditOutcome rf peer args reply { rf with nextIndex := nextIndex } [] true

theorem replicateReply_outcome {r : Server n Cmd × List (ApplyMsg Cmd) × Bool}
    (h : rf.replicateReply peer args reply = some r) :
    CreditOutcome rf peer args reply r.1 r.2.1 r.2.2 := by
  unfold replicateReply at h
  split at h
  · rename_i hlt
    cases h
    exact .later hlt
  · rename_i hge
    have hle : reply.term ≤ rf.currentTerm := by omega
    split at h
    · rename_i hs
      obtain ⟨⟨rf1, msgs⟩, hupd, h⟩ := Option.bind_eq_some_iff.mp h
      cases h
      exact .credited hle hs hupd
    · rename_i hs
      cases h
      exact .retried hle (Bool.eq_false_iff.mpr hs)

/-! ## 7. What every move keeps -/

theorem tick_me (rf : Server n Cmd) (now rnd : Nat) : (rf.tick now rnd).1.me = rf.me := by
  unfold tick
  split
  · rfl
  · split <;> rfl

theorem start_me (rf : Server n Cmd) (command : Cmd) : (rf.start command).1.me = rf.me := by
  unfold start; split <;> rfl

theorem VoteOutcome.me {args : RequestVoteArgs n} {reply : RequestVoteReply}
    (h : VoteOutcome now rnd rf args rf' reply) : rf'.me = rf.me := by
  cases h with
  | stale _ => rfl
  | refused _ => exact enterTerm_me rf _
  | granted _ _ _ => exact enterTerm_me rf _

theorem AppendOutcome.me (h : AppendOutcome now rnd rf args rf' reply msgs) : rf'.me = rf.me := by
  cases h with
  | stale _ => rfl
  | short _ _ => exact enterTerm_me rf args.term
  | conflict _ _ _ => exact enterTerm_me rf args.term
  | accepted _ _ _ hloop hcommit =>
    rw [(followCommit_spec hcommit).1, (appendLoop_spec hloop).1]
    exact enterTerm_me rf args.term

theorem CreditOutcome.me (h : CreditOutcome rf peer args reply rf' msgs again) :
    rf'.me = rf.me := by
  cases h with
  | later _ => rfl
  | credited _ _ hupd => rw [(updateCommitIndex_spec hupd).1]
  | retried _ _ => rfl

theorem Persisted.tick (h : rf.Persisted) (now rnd : Nat) : (rf.tick now rnd).1.Persisted := by
  unfold Server.tick
  split
  · exact Or.inl rfl
  · split <;> exact h

theorem Persisted.enterTerm (h : rf.Persisted) (T : Nat) : (rf.enterTerm T).Persisted := by
  unfold Server.enterTerm
  split
  · exact Or.inl rfl
  · exact h

theorem Persisted.start (h : rf.Persisted) (command : Cmd) : (rf.start command).1.Persisted := by
  unfold Server.start
  split
  · exact h
  · exact Or.inl rfl

theorem CreditOutcome.persisted (h : CreditOutcome rf peer args reply rf' msgs again)
    (hp : rf.Persisted) :
    rf'.Persisted := by
  cases h with
  | later _ => exact Or.inl rfl
  | credited _ _ hupd =>
    rw [(updateCommitIndex_spec hupd).1]
    exact hp
  | retried _ _ => exact hp

theorem VoteOutcome.persisted {args : RequestVoteArgs n} {reply : RequestVoteReply}
    (h : VoteOutcome now rnd rf args rf' reply) (hp : rf.Persisted) :
    rf'.Persisted := by
  cases h with
  | stale _ => exact hp
  | refused _ => exact hp.enterTerm _
  | granted _ _ _ => exact Or.inl rfl

theorem AppendOutcome.persisted (h : AppendOutcome now rnd rf args rf' reply msgs)
    (hp : rf.Persisted) : rf'.Persisted := by
  cases h with
  | stale _ => exact hp
  | short _ _ => exact hp.enterTerm args.term
  | conflict _ _ _ => exact Or.inl rfl
  | accepted _ _ _ hloop hcommit =>
    have h1 := (appendLoop_spec hloop).2 (hp.enterTerm args.term)
    rw [(followCommit_spec hcommit).1]
    exact h1

/-- The peer has entered a later term, or it still remembers the vote it gave in this one. -/
def VoteKept (rf rf' : Server n Cmd) : Prop :=
  rf.currentTerm < rf'.currentTerm ∨
    (rf'.currentTerm = rf.currentTerm ∧ ∀ c, rf.votedFor = some c → rf'.votedFor = some c)

theorem VoteKept.refl (rf : Server n Cmd) : rf.VoteKept rf := Or.inr ⟨rfl, fun _ h => h⟩

theorem voteKept_enterTerm (rf : Server n Cmd) (T : Nat) : rf.VoteKept (rf.enterTerm T) := by
  unfold Server.enterTerm
  split
  · rename_i h
    exact Or.inl h
  · exact .refl rf

theorem voteKept_tick (h : rf.quorumLost now = false) (rnd : Nat) :
    rf.VoteKept (rf.tick now rnd).1 := by
  unfold Server.tick
  rw [h]
  split
  · contradiction
  · split <;> exact .refl rf

theorem voteKept_start (rf : Server n Cmd) (command : Cmd) : rf.VoteKept (rf.start command).1 := by
  unfold Server.start
  split <;> exact .refl rf

theorem CreditOutcome.voteKept (h : CreditOutcome rf peer args reply rf' msgs again) :
    rf.VoteKept rf' := by
  cases h with
  | later h => exact Or.inl h
  | credited _ _ hupd =>
    rw [(updateCommitIndex_spec hupd).1]
    exact .refl rf
  | retried _ _ => exact .refl rf

theorem VoteOutcome.voteKept {args : RequestVoteArgs n} {reply : RequestVoteReply}
    (h : VoteOutcome now rnd rf args rf' reply) : rf.VoteKept rf' := by
  cases h with
  | stale _ => exact .refl rf
  | refused _ => exact voteKept_enterTerm rf _
  | granted _ _ hfree =>
    rcases voteKept_enterTerm rf args.term with hlt | ⟨ht, hv⟩
    · exact Or.inl hlt
    · refine Or.inr ⟨ht, fun c hc => ?_⟩
      have hc' := hv c hc
      rcases hfree with hn | hs
      · rw [hn] at hc'
        contradiction
      · exact hs.symm.trans hc'

theorem AppendOutcome.voteKept (h : AppendOutcome now rnd rf args rf' reply msgs) :
    rf.VoteKept rf' := by
  cases h with
  | stale _ => exact .refl rf
  | short _ _ => exact voteKept_enterTerm rf args.term
  | conflict _ _ _ => exact voteKept_enterTerm rf args.term
  | accepted _ _ _ hloop hcommit =>
    rw [(followCommit_spec hcommit).1, (appendLoop_spec hloop).1]
    exact voteKept_enterTerm rf args.term

/-- Who leads afterwards led before, in the same term. -/
def LeadKept (rf rf' : Server n Cmd) : Prop :=
  rf'.identity = .leader → rf.identity = .leader ∧ rf'.currentTerm = rf.currentTerm

theorem LeadKept.refl (rf : Server n Cmd) : rf.LeadKept rf := fun h => ⟨h, rfl⟩

theorem leadKept_enterTerm (rf : Server n Cmd) (T : Nat) : rf.LeadKept (rf.enterTerm T) := by
  unfold Server.enterTerm
  split
  · exact fun h => nomatch h
  · exact .refl rf

theorem leadKept_tick (rf : Server n Cmd) (now rnd : Nat) : rf.LeadKept (rf.tick now rnd).1 := by
  unfold Server.tick
  split
  · exact fun h => nomatch h
  · split
    · exact fun h => nomatch h
    · exact .refl rf

theorem leadKept_start (rf : Server n Cmd) (command : Cmd) : rf.LeadKept (rf.start command).1 := by
  unfold Server.start
  split <;> exact .refl rf

theorem CreditOutcome.leadKept (h : CreditOutcome rf peer args reply rf' msgs again) :
    rf.LeadKept rf' := by
  cases h with
  | later _ => exact fun h => nomatch h
  | credited _ _ hupd =>
    rw [(updateCommitIndex_spec hupd).1]
    exact .refl rf
  | retried _ _ => exact .refl rf

theorem VoteOutcome.leadKept {args : RequestVoteArgs n} {reply : RequestVoteReply}
    (h : VoteOutcome now rnd rf args rf' reply) : rf.LeadKept rf' := by
  cases h with
  | stale _ => exact .refl rf
  | refused _ => exact leadKept_enterTerm rf _
  | granted _ _ _ => exact fun h => nomatch h

theorem AppendOutcome.leadKept (h : AppendOutcome now rnd rf args rf' reply msgs) :
    rf.LeadKept rf' := by
  cases h with
  | stale _ => exact .refl rf
  | short _ _ => exact leadKept_enterTerm rf args.term
  | conflict _ _ _ => exact leadKept_enterTerm rf args.term
  | accepted _ _ _ hloop hcommit =>
    rw [(followCommit_spec hcommit).1, (appendLoop_spec hloop).1]
    exact leadKept_enterTerm rf args.term

end Server

end Raft
