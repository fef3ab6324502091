import DistributedSystems.Raft.LogAccess

/-!
# Log repair (`ReplicateLog` against `AppendEntries`)

The retry loop of `ReplicateLog` with a follower that answers every request.  Each rejection takes
`nextIndex` down, by one when the follower's log is too short and to the start of the conflicting
term otherwise, while the follower cuts its own log back.
-/

namespace Raft

variable {n : Nat} {Cmd : Type}

/-! ## 1. The loop -/

def LogsMatch (a b : List (LogEntry Cmd)) : Prop :=
  ∀ (k : Nat) (e e' : LogEntry Cmd), a[k]? = some e → b[k]? = some e' → e.term = e'.term →
    ∀ m ≤ k, a[m]? = b[m]?

structure Repairable (peer : Fin n) (ld fo : Server n Cmd) : Prop where
  leads : ld.identity = .leader
  rooted : ld.logEntries[0]? = some Server.sentinel
  followerRooted : fo.logEntries[0]? = some Server.sentinel
  logs : LogsMatch ld.logEntries fo.logEntries
  lo : 1 ≤ ld.nextIndex peer
  hi : ld.nextIndex peer ≤ ld.logEntries.length - 1
  term : fo.currentTerm ≤ ld.currentTerm
  indexed : Indexed fo.firstIndexEachTerm fo.logEntries

theorem LogsMatch.take {a b : List (LogEntry Cmd)} (h : LogsMatch a b) (k : Nat) :
    LogsMatch a (b.take k) := by
  intro j e e' he he' ht m hm
  have hjk : j < k := by
    have hlt := (List.getElem?_eq_some_iff.mp he').1
    rw [List.length_take] at hlt
    omega
  rw [List.getElem?_take_of_lt hjk] at he'
  rw [List.getElem?_take_of_lt (by omega)]
  exact h j e e' he he' ht m hm

namespace Server

theorem appendLoop_copies {src : List (LogEntry Cmd)} {prev : Nat} :
    ∀ (es : List (LogEntry Cmd)) (i : Nat) (rf : Server n Cmd), src.drop (prev + i + 1) = es →
      prev + i < src.length → LogsMatch src rf.logEntries →
      (∀ m ≤ prev + i, rf.logEntries[m]? = src[m]?) →
      ∃ rf', appendLoop prev i es rf = some rf' ∧ 0 < rf'.logEntries.length ∧
        ∀ m < src.length, rf'.logEntries[m]? = src[m]? := by
  intro es
  induction es with
  | nil =>
    intro i rf hes hlt _ hagree
    have hend : src.length ≤ prev + i + 1 := List.drop_eq_nil_iff.mp hes
    have hfirst : rf.logEntries[0]? = some src[0] := by
      rw [hagree 0 (by omega), List.getElem?_eq_getElem (by omega)]
    exact ⟨rf, rfl, (List.getElem?_eq_some_iff.mp hfirst).1, fun m hm => hagree m (by omega)⟩
  | cons e es ih =>
    intro i rf hes hlt hmatch hagree
    have he : src[prev + i + 1]? = some e := by
      have hhead := congrArg List.head? hes
      rwa [List.head?_drop] at hhead
    have hnext := (List.getElem?_eq_some_iff.mp he).1
    have htail : src.drop (prev + (i + 1) + 1) = es := by
      have hdrop := congrArg (List.drop 1) hes
      rwa [List.drop_drop] at hdrop
    have hlen : prev + i < rf.logEntries.length := by
      have hlast := hagree (prev + i) le_rfl
      rw [List.getElem?_eq_getElem hlt] at hlast
      exact (List.getElem?_eq_some_iff.mp hlast).1
    unfold appendLoop
    dsimp only
    by_cases hsame : (rf.logEntries[prev + i + 1]?).map LogEntry.term = some e.term
    · -- the entry is there already, and log matching gives what is before it
      rw [if_pos hsame]
      obtain ⟨x, hx, hxt⟩ := Option.map_eq_some_iff.mp hsame
      exact ih (i + 1) rf htail (by omega) hmatch fun m hm =>
        (hmatch _ e x he hx hxt.symm m (by omega)).symm
    · rw [if_neg hsame, if_neg (by omega)]
      have hnew : ∀ m ≤ prev + (i + 1),
          (rf.logEntries.take (prev + i + 1) ++ [e])[m]? = src[m]? := by
        intro m hm
        rw [getElem?_splice hlen]
        split
        · exact hagree m (by assumption)
        · rw [if_pos (by omega), show m = prev + i + 1 by omega, he]
      have hshort : (rf.logEntries.take (prev + i + 1) ++ [e]).length = prev + i + 2 := by
        rw [List.length_append, List.length_take, List.length_singleton]
        omega
      have hmatch' : LogsMatch src (rf.logEntries.take (prev + i + 1) ++ [e]) := by
        intro k x x' _ hx' _ m hm
        have hk := (List.getElem?_eq_some_iff.mp hx').1
        exact (hnew m (by omega)).symm
      have hbefore : (rf.logEntries.take (prev + i + 1) ++ [e])[prev + i + 2 - 2]? =
          some src[prev + i] := by
        rw [Nat.add_sub_cancel, hnew _ (by omega), List.getElem?_eq_getElem hlt]
      rw [hshort, hbefore]
      dsimp only
      split <;> exact ih (i + 1) _ htail (by omega) hmatch' hnew

variable {peer : Fin n} {ld fo : Server n Cmd}

theorem replicateArgs_eq (h : Repairable peer ld fo) :
    ∃ prev e, ld.nextIndex peer = prev + 1 ∧ ld.logEntries[prev]? = some e ∧
      ld.replicateArgs peer = some (some ⟨ld.currentTerm, ld.me, prev, e.term,
        ld.logEntries.drop (prev + 1), ld.commitIndex⟩) := by
  have hlo := h.lo
  have hhi := h.hi
  obtain ⟨prev, hprev⟩ : ∃ prev, ld.nextIndex peer = prev + 1 := ⟨ld.nextIndex peer - 1, by omega⟩
  refine ⟨prev, ld.logEntries[prev], hprev, List.getElem?_eq_getElem (by omega), ?_⟩
  unfold replicateArgs
  rw [if_pos (by omega), hprev]
  dsimp only
  rw [List.getElem?_eq_getElem (by omega)]
  rfl

def backTo (next : Nat) (firstIndex : Int) : Nat :=
  if firstIndex = -1 then max 1 (next - 1) else max 1 firstIndex.toNat

theorem one_le_backTo (next : Nat) (firstIndex : Int) : 1 ≤ backTo next firstIndex := by
  unfold backTo
  split <;> exact Nat.le_max_left _ _

def withNext (ld : Server n Cmd) (peer : Fin n) (next : Nat) : Server n Cmd :=
  { ld with nextIndex := Function.update ld.nextIndex peer next }

theorem withNext_nextIndex (next : Nat) : (ld.withNext peer next).nextIndex peer = next :=
  Function.update_self ..

end Server

section Round

open Server

variable {peer : Fin n} {ld fo : Server n Cmd}

theorem Repairable.rejected (h : Repairable peer ld fo) {next k : Nat} (hlo : 1 ≤ next)
    (hlt : next < ld.nextIndex peer) (hk : 0 < k) {fo' : Server n Cmd}
    (hterm : fo'.currentTerm = ld.currentTerm) (hlog : fo'.logEntries = fo.logEntries.take k)
    (htable : fo'.firstIndexEachTerm = fo.firstIndexEachTerm) :
    Repairable peer (ld.withNext peer next) fo' where
  leads := h.leads
  rooted := h.rooted
  followerRooted := by
    rw [hlog, List.getElem?_take_of_lt hk]
    exact h.followerRooted
  logs := by
    rw [hlog]
    exact h.logs.take k
  lo := by
    rw [withNext_nextIndex]
    exact hlo
  hi := by
    have hhi := h.hi
    rw [withNext_nextIndex]
    show next ≤ ld.logEntries.length - 1
    omega
  term := hterm.le
  indexed := by
    rw [hlog, htable]
    exact h.indexed.take

/-- One round: it is accepted and the follower has the whole of the leader's log, or it is rejected
and the leader goes back to a smaller index. -/
theorem Repairable.round (h : Repairable peer ld fo) (now rnd : Nat) :
    ∃ args fo' reply msgs, ld.replicateArgs peer = some (some args) ∧
      fo.appendEntries now rnd args = some (fo', reply, msgs) ∧
      (reply.success = true ∧
          args.prevLogIndex + args.entries.length < ld.logEntries.length ∧
          (∀ m < ld.logEntries.length, fo'.logEntries[m]? = ld.logEntries[m]?) ∨
        reply.success = false ∧ reply.term = ld.currentTerm ∧
          backTo (ld.nextIndex peer) reply.firstIndex < ld.nextIndex peer ∧
          Repairable peer (ld.withNext peer (backTo (ld.nextIndex peer) reply.firstIndex)) fo') := by
  obtain ⟨prev, e, hnext, he, hargs⟩ := replicateArgs_eq h
  have hprev := (List.getElem?_eq_some_iff.mp he).1
  have hterm := h.term
  have hheard : (Server.heard now rnd fo ld.currentTerm).currentTerm = ld.currentTerm :=
    heard_currentTerm hterm
  cases hlog : fo.logEntries[prev]? with
  | none =>
    -- the follower's log ends before `prev`, which so is not the sentinel's place
    have hpos : 0 < prev := by
      by_contra hz
      rw [show prev = 0 by omega, h.followerRooted] at hlog
      contradiction
    have hlt : backTo (ld.nextIndex peer) (-1) < ld.nextIndex peer := by
      unfold backTo
      rw [if_pos rfl]
      omega
    refine ⟨_, _, _, _, hargs, appendEntries_short now rnd hterm hlog, Or.inr ⟨rfl, rfl, hlt, ?_⟩⟩
    refine h.rejected (one_le_backTo _ _) hlt (k := fo.logEntries.length) ?_ hheard ?_
      (enterTerm_firstIndexEachTerm fo _)
    · exact (List.getElem?_eq_some_iff.mp h.followerRooted).1
    · rw [heard_logEntries, List.take_length]
  | some x =>
    by_cases hx : x.term = e.term
    · have hagree : ∀ m ≤ prev, fo.logEntries[m]? = ld.logEntries[m]? := fun m hm =>
        (h.logs prev e x he hlog hx.symm m hm).symm
      obtain ⟨rf1, hloop, hpos, hcopied⟩ := appendLoop_copies (ld.logEntries.drop (prev + 1)) 0
        (Server.heard now rnd fo ld.currentTerm) rfl hprev
        (by rw [heard_logEntries]; exact h.logs) (by rw [heard_logEntries]; exact hagree)
      obtain ⟨⟨rf2, msgs⟩, hcommit⟩ := followCommit_returns hpos ld.commitIndex
      refine ⟨_, _, _, _, hargs, appendEntries_accept now rnd hterm hlog hx hloop hcommit,
        Or.inl ⟨rfl, ?_, ?_⟩⟩
      · dsimp only
        rw [List.length_drop]
        omega
      · rw [(followCommit_spec hcommit).1]
        exact hcopied
    · -- a conflict is behind the sentinel, and the hint is at most where it is
      have hpos : 0 < prev := by
        by_contra hz
        have hz' : prev = 0 := by omega
        rw [hz', h.followerRooted] at hlog
        rw [hz', h.rooted] at he
        exact hx (by rw [← Option.some.inj hlog, ← Option.some.inj he])
      have hhint : (fo.firstIndexEachTerm x.term).getD 0 ≤ prev := by
        cases htable : fo.firstIndexEachTerm x.term with
        | none => exact Nat.zero_le prev
        | some f =>
          have hxt : (fo.logEntries[prev]?).map LogEntry.term = some x.term := by
            rw [hlog, Option.map_some]
          exact (h.indexed x.term f htable prev hxt).le hxt
      have hlt : backTo (ld.nextIndex peer) ((fo.firstIndexEachTerm x.term).getD 0 : Nat) <
          ld.nextIndex peer := by
        unfold backTo
        rw [if_neg (by omega), Int.toNat_natCast]
        omega
      refine ⟨_, _, _, _, hargs, appendEntries_conflict now rnd hterm hlog hx,
        Or.inr ⟨rfl, rfl, hlt, ?_⟩⟩
      exact h.rejected (one_le_backTo _ _) hlt hpos hheard rfl (enterTerm_firstIndexEachTerm fo _)

end Round

/-! ## 3. The whole loop -/

end Raft
