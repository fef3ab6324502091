import DistributedSystems.Raft.Safety

/-!
# The shape of the logs

Every log starts with its sentinel, in every run.  Its terms never decrease, and it holds no term its
owner has not entered, in runs without two leaders of one term in which requests are encoded in their
term; there requests in flight carry pieces of such logs.  The map of first indices is right for the
terms it knows as long as no leader starts a term that is in its map already.
-/

namespace Raft

open ReplicatedLog Function

variable {n : Nat} {Cmd : Type}

/-! ## 1. Logs and maps of first indices -/

structure Shaped (T : Nat) (log : List (LogEntry Cmd)) : Prop where
  first : log[0]? = some Server.sentinel
  sorted : TermSorted log
  positive : ∀ {k : Nat} {e : LogEntry Cmd}, log[k]? = some e → 0 < k → 0 < e.term
  le_term : ∀ {k : Nat} {e : LogEntry Cmd}, log[k]? = some e → e.term ≤ T

def FirstOf (log : List (LogEntry Cmd)) (t f : Nat) : Prop :=
  (log[f]?).map LogEntry.term = some t ∧ ∀ k < f, (log[k]?).map LogEntry.term ≠ some t

def Indexed (table : Nat → Option Nat) (log : List (LogEntry Cmd)) : Prop :=
  ∀ t f, table t = some f → ∀ k : Nat, (log[k]?).map LogEntry.term = some t → FirstOf log t f

section Logs

variable {T T' k : Nat} {log : List (LogEntry Cmd)} {e e₀ : LogEntry Cmd}
  {table : Nat → Option Nat}

theorem Shaped.length_pos (h : Shaped T log) : 0 < log.length :=
  (List.getElem?_eq_some_iff.mp h.first).1

theorem Shaped.mono (h : Shaped T log) (hT : T ≤ T') : Shaped T' log where
  first := h.first
  sorted := h.sorted
  positive := h.positive
  le_term he := (h.le_term he).trans hT

theorem shaped_sentinel : Shaped T ([Server.sentinel] : List (LogEntry Cmd)) where
  first := rfl
  sorted := List.pairwise_singleton _ _
  positive he hk := by
    have hlt := (List.getElem?_eq_some_iff.mp he).1
    simp at hlt
    omega
  le_term he := by
    have hmem := List.mem_singleton.mp (List.mem_of_getElem? he)
    rw [hmem]
    exact Nat.zero_le T

theorem Shaped.take (h : Shaped T log) (hk : 0 < k) : Shaped T (log.take k) where
  first := by
    rw [List.getElem?_take_of_lt hk]
    exact h.first
  sorted := h.sorted.restrict (List.take_prefix k log)
  positive he := h.positive (prefix_getElem? (List.take_prefix k log) he)
  le_term he := h.le_term (prefix_getElem? (List.take_prefix k log) he)

theorem getElem?_splice (hk : k < log.length) (j : Nat) :
    (log.take (k + 1) ++ [e])[j]? =
      if j ≤ k then log[j]? else if j = k + 1 then some e else none := by
  have hlen : (log.take (k + 1)).length = k + 1 := by
    rw [List.length_take]
    omega
  split
  · rename_i hj
    rw [List.getElem?_append_left (by omega), List.getElem?_take_of_lt (by omega)]
  · rename_i hj
    rw [List.getElem?_append_right (by omega), hlen]
    split
    · rename_i hj'
      rw [hj', Nat.sub_self]
      rfl
    · exact List.getElem?_eq_none (by simp; omega)

theorem Shaped.splice (h : Shaped T log) (hk : log[k]? = some e₀) (hle : e₀.term ≤ e.term)
    (hpos : 0 < e.term) (hT : e.term ≤ T) : Shaped T (log.take (k + 1) ++ [e]) := by
  have hlt := (List.getElem?_eq_some_iff.mp hk).1
  have hold := h.take (k := k + 1) (Nat.succ_pos k)
  refine ⟨?_, ?_, fun {j x} hx hj => ?_, fun {j x} hx => ?_⟩
  · rw [getElem?_splice hlt, if_pos (Nat.zero_le k)]
    exact h.first
  · refine hold.sorted.append_singleton fun x hx => ?_
    obtain ⟨j, hj⟩ := List.getElem?_of_mem hx
    have hjk : j < k + 1 := by
      have hlen := (List.getElem?_eq_some_iff.mp hj).1
      rw [List.length_take] at hlen
      omega
    rw [List.getElem?_take_of_lt hjk] at hj
    exact (h.sorted.le (Nat.le_of_lt_succ hjk) hj hk).trans hle
  · rw [getElem?_splice hlt] at hx
    split at hx
    · exact h.positive hx hj
    · split at hx
      · rw [← Option.some.inj hx]
        exact hpos
      · contradiction
  · rw [getElem?_splice hlt] at hx
    split at hx
    · exact h.le_term hx
    · split at hx
      · rw [← Option.some.inj hx]
        exact hT
      · contradiction

variable {f t : Nat}

theorem FirstOf.le (h : FirstOf log t f) (hk : (log[k]?).map LogEntry.term = some t) : f ≤ k := by
  by_contra hlt
  exact h.2 k (Nat.lt_of_not_le hlt) hk

theorem FirstOf.congr {log' : List (LogEntry Cmd)} (h : FirstOf log t f)
    (hsame : ∀ j ≤ f, log'[j]? = log[j]?) : FirstOf log' t f := by
  refine ⟨?_, fun j hj => ?_⟩
  · rw [hsame f le_rfl]
    exact h.1
  · rw [hsame j hj.le]
    exact h.2 j hj

theorem Indexed.take (h : Indexed table log) : Indexed table (log.take k) := by
  intro t f ht j hj
  have hjk : j < k := by
    by_contra hge
    rw [List.getElem?_eq_none (by rw [List.length_take]; omega)] at hj
    contradiction
  rw [List.getElem?_take_of_lt hjk] at hj
  have hfirst := h t f ht j hj
  have hfj := hfirst.le hj
  exact hfirst.congr fun i hi => List.getElem?_take_of_lt (by omega)

theorem Indexed.splice_old (h : Indexed table log) (hk : k < log.length) {j : Nat}
    (ht : table t = some f) (hj : j ≤ k) (hjt : (log[j]?).map LogEntry.term = some t) :
    FirstOf (log.take (k + 1) ++ [e]) t f := by
  have hfirst := h t f ht j hjt
  have hfj := hfirst.le hjt
  refine hfirst.congr fun i hi => ?_
  rw [getElem?_splice hk, if_pos (by omega)]

theorem Indexed.splice (h : Indexed table log) (hk : log[k]? = some e₀)
    (heq : e₀.term = e.term) : Indexed table (log.take (k + 1) ++ [e]) := by
  have hlt := (List.getElem?_eq_some_iff.mp hk).1
  intro t f ht j hj
  rw [getElem?_splice hlt] at hj
  split at hj
  · rename_i hjk
    exact h.splice_old hlt ht hjk hj
  · split at hj
    · refine h.splice_old hlt ht le_rfl ?_
      rw [hk, Option.map_some, heq]
      exact hj
    · contradiction

theorem Indexed.splice_new (h : Indexed table log) (hs : TermSorted log) (hk : log[k]? = some e₀)
    (hlt : e₀.term < e.term) :
    Indexed (update table e.term (some (k + 1))) (log.take (k + 1) ++ [e]) := by
  have hlen := (List.getElem?_eq_some_iff.mp hk).1
  intro t f ht j hj
  by_cases he : t = e.term
  · -- no earlier entry has the term
    subst he
    rw [update_self] at ht
    rw [← Option.some.inj ht]
    refine ⟨?_, fun i hi hit => ?_⟩
    · rw [getElem?_splice hlen, if_neg (by omega), if_pos rfl]
      rfl
    · rw [getElem?_splice hlen, if_pos (by omega)] at hit
      obtain ⟨x, hx, hxt⟩ := Option.map_eq_some_iff.mp hit
      have hle : x.term ≤ e₀.term := hs.le (by omega) hx hk
      omega
  · rw [update_of_ne he] at ht
    rw [getElem?_splice hlen] at hj
    split at hj
    · rename_i hjk
      exact h.splice_old hlen ht hjk hj
    · split at hj
      · exact absurd (Option.some.inj hj).symm he
      · contradiction

end Logs

/-! ## 2. Requests -/

structure AppendEntriesArgs.OK (args : AppendEntriesArgs n Cmd) : Prop where
  sorted : TermSorted args.entries
  above : ∀ e ∈ args.entries, args.prevLogTerm ≤ e.term
  positive : ∀ e ∈ args.entries, 0 < e.term
  le_term : ∀ e ∈ args.entries, e.term ≤ args.term

/-- A request that starts at the sentinel has its term. -/
def Frame.Rooted (f : Frame) : Prop := f.prevLogIndex = 0 → f.prevLogTerm = 0

theorem frame_of_request {th : Thread n Cmd} {args : AppendEntriesArgs n Cmd}
    (h : th.request = some args) : th.frame = some args.frame := by
  unfold Thread.request at h
  unfold Thread.frame
  split at h
  · rename_i hj
    cases h
    rw [hj]
  · rename_i hj
    cases h
    rw [hj]
  · contradiction

/-- A piece of a log in shape is a request in shape. -/
theorem Shaped.piece {T m : Nat} {log : List (LogEntry Cmd)} (h : Shaped T log)
    {args : AppendEntriesArgs n Cmd} {e : LogEntry Cmd} (he : log[args.prevLogIndex]? = some e)
    (ht : e.term = args.prevLogTerm) (hT : T ≤ args.term)
    (hentries : args.entries = (log.take m).drop (args.prevLogIndex + 1)) : args.OK := by
  have hentry : ∀ x ∈ args.entries, ∃ k, args.prevLogIndex < k ∧ log[k]? = some x := by
    intro x hx
    rw [hentries] at hx
    obtain ⟨j, hj⟩ := List.getElem?_of_mem hx
    rw [List.getElem?_drop] at hj
    exact ⟨_, by omega, prefix_getElem? (List.take_prefix m log) hj⟩
  refine ⟨?_, fun x hx => ?_, fun x hx => ?_, fun x hx => ?_⟩
  · rw [hentries]
    exact (h.sorted.restrict (List.take_prefix m log)).sublist (List.drop_sublist _ _)
  · obtain ⟨k, hk, hxk⟩ := hentry x hx
    rw [← ht]
    exact h.sorted.le hk.le he hxk
  · obtain ⟨k, hk, hxk⟩ := hentry x hx
    exact h.positive hxk (by omega)
  · obtain ⟨k, _, hxk⟩ := hentry x hx
    exact (h.le_term hxk).trans hT

/-! ## 3. One peer -/

namespace Server

/-- What holds of a peer in every run; under `shapes` also of the rest of its log, and under `tabled`
of its map of first indices. -/
structure LogOK (shapes tabled : Prop) (rf : Server n Cmd) : Prop where
  first : rf.logEntries[0]? = some sentinel
  next : ∀ j, 1 ≤ rf.nextIndex j
  applied : rf.commitIndex ≤ rf.lastApplied
  leads : rf.identity = .leader → 0 < rf.currentTerm
  shaped : shapes → Shaped rf.currentTerm rf.logEntries
  indexed : tabled → Indexed rf.firstIndexEachTerm rf.logEntries

variable {shapes tabled : Prop} {rf rf' : Server n Cmd}

theorem LogOK.length_pos (h : rf.LogOK shapes tabled) : 0 < rf.logEntries.length :=
  (List.getElem?_eq_some_iff.mp h.first).1

/-- Fields that play no part, later terms, and leaders that are none any more. -/
theorem LogOK.congr (h : rf.LogOK shapes tabled) (hterm : rf.currentTerm ≤ rf'.currentTerm)
    (hlog : rf'.logEntries = rf.logEntries) (hnext : rf'.nextIndex = rf.nextIndex)
    (hcommit : rf'.commitIndex = rf.commitIndex) (happlied : rf'.lastApplied = rf.lastApplied)
    (htable : rf'.firstIndexEachTerm = rf.firstIndexEachTerm)
    (hid : rf'.identity = .leader → rf.identity = .leader) : rf'.LogOK shapes tabled where
  first := by
    rw [hlog]
    exact h.first
  next := by
    rw [hnext]
    exact h.next
  applied := by
    rw [hcommit, happlied]
    exact h.applied
  leads hl := (h.leads (hid hl)).trans_le hterm
  shaped hs := by
    rw [hlog]
    exact (h.shaped hs).mono hterm
  indexed ht := by
    rw [hlog, htable]
    exact h.indexed ht

theorem logOK_make (h : rf.LogOK shapes tabled) (hp : rf.Persisted) (me : Fin n) (now rnd : Nat) :
    (make me rf.persister now rnd).LogOK shapes tabled := by
  obtain ⟨hterm, _, hlog, _⟩ := hp.make me now rnd
  refine ⟨?_, ?_, ?_, ?_, ?_, ?_⟩
  · rw [hlog]
    exact h.first
  · intro j
    cases rf.persister <;> exact le_rfl
  · rw [make_commitIndex]
    exact Nat.zero_le _
  · rw [make_identity]
    exact fun hl => (nomatch hl)
  · rw [hterm, hlog]
    exact h.shaped
  · intro _ t f ht
    cases hs : rf.persister <;> rw [hs] at ht <;> exact (nomatch ht)

theorem LogOK.convert (h : rf.LogOK shapes tabled) {T : Nat} (hlt : rf.currentTerm < T) :
    (rf.convertToFollower T).LogOK shapes tabled :=
  h.congr hlt.le rfl rfl rfl rfl rfl fun hl => (nomatch hl)

theorem LogOK.enterTerm (h : rf.LogOK shapes tabled) (T : Nat) :
    (rf.enterTerm T).LogOK shapes tabled := by
  unfold Server.enterTerm
  split
  · rename_i hlt
    exact h.convert hlt
  · exact h

theorem enterTerm_firstIndexEachTerm (rf : Server n Cmd) (T : Nat) :
    (rf.enterTerm T).firstIndexEachTerm = rf.firstIndexEachTerm := by
  unfold enterTerm
  split <;> rfl

theorem LogOK.heard (h : rf.LogOK shapes tabled) (now rnd T : Nat) :
    (heard now rnd rf T).LogOK shapes tabled :=
  (h.enterTerm T).congr le_rfl rfl rfl rfl rfl rfl id

theorem LogOK.tick (h : rf.LogOK shapes tabled) (now rnd : Nat) :
    (rf.tick now rnd).1.LogOK shapes tabled := by
  unfold Server.tick
  split
  · exact h.congr le_rfl rfl rfl rfl rfl rfl fun hl => (nomatch hl)
  · split
    · exact h.congr le_rfl rfl rfl rfl rfl rfl fun hl => (nomatch hl)
    · exact h

theorem LogOK.requestVote (h : rf.LogOK shapes tabled) {now rnd : Nat} {args : RequestVoteArgs n}
    {reply : RequestVoteReply} (ho : VoteOutcome now rnd rf args rf' reply) :
    rf'.LogOK shapes tabled := by
  cases ho with
  | stale _ => exact h
  | refused _ => exact h.enterTerm args.term
  | granted _ _ _ =>
    exact (h.enterTerm args.term).congr le_rfl rfl rfl rfl rfl rfl fun hl => (nomatch hl)

/-- Whatever the entries are, the loop stays in range and keeps the first entry of the log. -/
theorem appendLoop_returns (prev : Nat) :
    ∀ (es : List (LogEntry Cmd)) (i : Nat) (rf : Server n Cmd), prev + i < rf.logEntries.length →
      ∃ rf', appendLoop prev i es rf = some rf' ∧ rf'.logEntries[0]? = rf.logEntries[0]? := by
  intro es
  induction es with
  | nil => exact fun i rf _ => ⟨rf, rfl, rfl⟩
  | cons e es ih =>
    intro i rf hlt
    unfold appendLoop
    dsimp only
    split
    · rename_i hmatch
      obtain ⟨x, hx, _⟩ := Option.map_eq_some_iff.mp hmatch
      exact ih (i + 1) rf (List.getElem?_eq_some_iff.mp hx).1
    · have hlen : (rf.logEntries.take (prev + i + 1) ++ [e]).length = prev + i + 2 := by
        rw [List.length_append, List.length_take, List.length_singleton]
        omega
      have hfirst : (rf.logEntries.take (prev + i + 1) ++ [e])[0]? = rf.logEntries[0]? := by
        rw [getElem?_splice hlt, if_pos (Nat.zero_le _)]
      have hnext : ∀ r : Server n Cmd, r.logEntries = rf.logEntries.take (prev + i + 1) ++ [e] →
          ∃ rf', appendLoop prev (i + 1) es r = some rf' ∧
            rf'.logEntries[0]? = rf.logEntries[0]? := by
        intro r hlog
        obtain ⟨rf', hrf', h0⟩ := ih (i + 1) r (by rw [hlog]; omega)
        exact ⟨rf', hrf', h0.trans (by rw [hlog, hfirst])⟩
      rw [if_neg (by omega), List.getElem?_eq_getElem (by omega)]
      exact hnext _ (by split <;> rfl)

theorem appendLoop_ok {T : Nat} (prev : Nat) :
    ∀ (es : List (LogEntry Cmd)) (i : Nat) (rf : Server n Cmd) {e₀ : LogEntry Cmd},
      Shaped T rf.logEntries → (tabled → Indexed rf.firstIndexEachTerm rf.logEntries) →
      rf.logEntries[prev + i]? = some e₀ → TermSorted es → (∀ e ∈ es, e₀.term ≤ e.term) →
      (∀ e ∈ es, 0 < e.term) → (∀ e ∈ es, e.term ≤ T) →
      ∃ rf', appendLoop prev i es rf = some rf' ∧ Shaped T rf'.logEntries ∧
        (tabled → Indexed rf'.firstIndexEachTerm rf'.logEntries) := by
  intro es
  induction es with
  | nil =>
    intro i rf e₀ hs ht _ _ _ _ _
    exact ⟨rf, rfl, hs, ht⟩
  | cons e es ih =>
    intro i rf e₀ hs ht hlast hsorted habove hpos hT
    obtain ⟨hhead, htail⟩ := List.pairwise_cons.mp hsorted
    have hlt := (List.getElem?_eq_some_iff.mp hlast).1
    have hpos' : ∀ x ∈ es, 0 < x.term := fun x hx => hpos x (List.mem_cons_of_mem e hx)
    have hT' : ∀ x ∈ es, x.term ≤ T := fun x hx => hT x (List.mem_cons_of_mem e hx)
    unfold appendLoop
    dsimp only
    by_cases hmatch : (rf.logEntries[prev + i + 1]?).map LogEntry.term = some e.term
    · -- the entry is there already
      rw [if_pos hmatch]
      obtain ⟨x, hx, hxt⟩ := Option.map_eq_some_iff.mp hmatch
      exact ih (i + 1) rf hs ht hx htail (fun y hy => hxt ▸ hhead y hy) hpos' hT'
    · have hlen : (rf.logEntries.take (prev + i + 1) ++ [e]).length = prev + i + 2 := by
        rw [List.length_append, List.length_take, List.length_singleton]
        omega
      have hbefore : (rf.logEntries.take (prev + i + 1) ++ [e])[prev + i + 2 - 2]? = some e₀ := by
        rw [getElem?_splice hlt, if_pos (by omega), Nat.add_sub_cancel]
        exact hlast
      have hnew : (rf.logEntries.take (prev + i + 1) ++ [e])[prev + (i + 1)]? = some e := by
        rw [getElem?_splice hlt, if_neg (by omega), if_pos (by omega)]
      have hshaped := hs.splice hlast (habove e List.mem_cons_self) (hpos e List.mem_cons_self)
        (hT e List.mem_cons_self)
      rw [if_neg hmatch, if_neg (by omega), hlen, hbefore]
      dsimp only
      split
      · rename_i hterm
        exact ih (i + 1) _ hshaped (fun htb => (ht htb).splice_new hs.sorted hlast hterm) hnew
          htail hhead hpos' hT'
      · rename_i hterm
        have heq : e₀.term = e.term :=
          Nat.le_antisymm (habove e List.mem_cons_self) (Nat.le_of_not_lt hterm)
        exact ih (i + 1) _ hshaped (fun htb => (ht htb).splice hlast heq) hnew htail hhead hpos' hT'

variable {args : AppendEntriesArgs n Cmd} {msgs : List (ApplyMsg Cmd)}

theorem followCommit_applied {lc : Nat} (hr : rf.followCommit lc = some (rf', msgs))
    (h : rf.commitIndex ≤ rf.lastApplied) :
    rf'.commitIndex ≤ rf'.lastApplied := by
  unfold followCommit at hr
  split at hr
  · rw [(applyCommitted_spec hr).1]
    exact Nat.le_max_right _ _
  · cases hr
    exact h

theorem LogOK.appendEntries (h : rf.LogOK shapes tabled) (hst : tabled → shapes) {now rnd : Nat}
    (hroot : args.frame.Rooted) (hargs : shapes → args.OK) {reply : AppendEntriesReply}
    (ho : AppendOutcome now rnd rf args rf' reply msgs) : rf'.LogOK shapes tabled := by
  have hheard := h.heard now rnd args.term
  cases ho with
  | stale _ => exact h
  | short _ _ => exact hheard
  | @conflict e first hle hlog hne =>
    -- there is no conflict at the sentinel
    have hpos : 0 < args.prevLogIndex := by
      by_contra hz
      have hz' : args.prevLogIndex = 0 := by omega
      rw [hz', h.first] at hlog
      have hterm : args.prevLogTerm = 0 := hroot hz'
      rw [hterm, ← Option.some.inj hlog] at hne
      exact hne rfl
    have hshaped := hheard.shaped
    have hindexed := hheard.indexed
    rw [heard_logEntries] at hshaped hindexed
    refine ⟨?_, hheard.next, hheard.applied, hheard.leads, fun hs => (hshaped hs).take hpos,
      fun ht => (hindexed ht).take⟩
    show (rf.logEntries.take args.prevLogIndex)[0]? = _
    rw [List.getElem?_take_of_lt hpos]
    exact h.first
  | @accepted e rf1 rf2 msgs hle hlog heq hloop hcommit =>
    have hlt := (List.getElem?_eq_some_iff.mp hlog).1
    obtain ⟨rf1', hloop', hfirst⟩ := appendLoop_returns args.prevLogIndex args.entries 0
      (Server.heard now rnd rf args.term) (by rw [heard_logEntries]; exact hlt)
    obtain rfl : rf1 = rf1' := Option.some.inj (hloop.symm.trans hloop')
    have hshape : shapes → Shaped (Server.heard now rnd rf args.term).currentTerm rf1.logEntries ∧
        (tabled → Indexed rf1.firstIndexEachTerm rf1.logEntries) := by
      intro hs
      obtain ⟨rf1', hloop', hres⟩ := appendLoop_ok args.prevLogIndex args.entries 0
        (Server.heard now rnd rf args.term) (hheard.shaped hs) hheard.indexed
        (by rw [heard_logEntries]; exact hlog) (hargs hs).sorted
        (by rw [heq]; exact (hargs hs).above) (hargs hs).positive
        (by rw [heard_currentTerm hle]; exact (hargs hs).le_term)
      obtain rfl : rf1 = rf1' := Option.some.inj (hloop.symm.trans hloop')
      exact hres
    have hfield := (appendLoop_spec hloop).1
    have hfollow := (followCommit_spec hcommit).1
    have happlied := followCommit_applied hcommit (by rw [hfield]; exact hheard.applied)
    have hrest : rf1.currentTerm = (Server.heard now rnd rf args.term).currentTerm ∧
        rf1.nextIndex = (Server.heard now rnd rf args.term).nextIndex ∧
        rf1.identity = (Server.heard now rnd rf args.term).identity := by
      rw [hfield]
      exact ⟨rfl, rfl, rfl⟩
    obtain ⟨hterm, hnext, hid⟩ := hrest
    refine ⟨?_, ?_, happlied, ?_, fun hs => ?_, fun ht => ?_⟩
    · rw [hfollow]
      exact hfirst.trans hheard.first
    · rw [hfollow]
      rw [hnext]
      exact hheard.next
    · rw [hfollow]
      rw [hterm, hid]
      exact hheard.leads
    · rw [hfollow]
      rw [hterm]
      exact (hshape hs).1
    · rw [hfollow]
      exact (hshape (hst ht)).2 ht

theorem updateCommitIndex_applied (hr : rf.updateCommitIndex = some (rf', msgs)) :
    rf'.commitIndex ≤ rf'.lastApplied := by
  -- every branch ends in the loop that applies
  have happly : ∀ {r : Server n Cmd}, r.applyCommitted = some (rf', msgs) →
      rf'.commitIndex ≤ rf'.lastApplied := by
    intro r hr
    rw [(applyCommitted_spec hr).1]
    exact Nat.le_max_right _ _
  unfold updateCommitIndex at hr
  dsimp only at hr
  split at hr
  · cases hr
  · split at hr
    · split at hr
      · cases hr
      · split at hr <;> exact happly hr
    · exact happly hr

theorem LogOK.replicateReply (h : rf.LogOK shapes tabled) {peer : Fin n}
    {reply : AppendEntriesReply} {r : Server n Cmd × List (ApplyMsg Cmd) × Bool}
    (hr : rf.replicateReply peer args reply = some r) : r.1.LogOK shapes tabled := by
  have hnext : ∀ k, 1 ≤ k → ∀ j, 1 ≤ update rf.nextIndex peer k j := by
    intro k hk j
    by_cases hj : j = peer
    · rw [hj, update_self]
      exact hk
    · rw [update_of_ne hj]
      exact h.next j
  unfold Server.replicateReply at hr
  split at hr
  · rename_i hlt
    cases hr
    exact h.convert hlt
  · split at hr
    · obtain ⟨⟨rf1, msgs⟩, hupd, hr⟩ := Option.bind_eq_some_iff.mp hr
      cases hr
      have happlied := updateCommitIndex_applied hupd
      have hfield := (updateCommitIndex_spec hupd).1
      refine ⟨?_, ?_, happlied, ?_, ?_, ?_⟩
      · rw [hfield]
        exact h.first
      · rw [hfield]
        exact hnext _ (Nat.succ_pos _)
      · rw [hfield]
        exact h.leads
      · rw [hfield]
        exact h.shaped
      · rw [hfield]
        exact h.indexed
    · cases hr
      refine ⟨h.first, hnext _ ?_, h.applied, h.leads, h.shaped, h.indexed⟩
      split <;> exact Nat.le_max_left _ _

theorem LogOK.becomeLeader (h : rf.LogOK shapes tabled) (hterm : 0 < rf.currentTerm) :
    rf.becomeLeader.LogOK shapes tabled where
  first := h.first
  next _ := h.length_pos
  applied := h.applied
  leads _ := hterm
  shaped := h.shaped
  indexed := h.indexed

/-- The leader starts its term in the log although the term is in its map. -/
def startsOver (rf : Server n Cmd) : Bool :=
  rf.identity = .leader && (rf.firstIndexEachTerm rf.currentTerm).isSome &&
    rf.logEntries.all fun e => e.term ≠ rf.currentTerm

theorem LogOK.start (h : rf.LogOK shapes tabled) (hst : tabled → shapes) (command : Cmd)
    (hfresh : tabled → rf.startsOver = false) : (rf.start command).1.LogOK shapes tabled := by
  unfold Server.start
  split
  · exact h
  · rename_i hl
    have hlead : rf.identity = .leader := not_not.mp hl
    have hpos := h.leads hlead
    have hlen := h.length_pos
    -- the new entry stands behind the last one
    obtain ⟨last, hlast⟩ : ∃ e, rf.logEntries[rf.logEntries.length - 1]? = some e :=
      ⟨_, List.getElem?_eq_getElem (by omega)⟩
    have hwhole : rf.logEntries = rf.logEntries.take (rf.logEntries.length - 1 + 1) := by
      rw [List.take_of_length_le (by omega)]
    refine ⟨?_, ?_, h.applied, fun _ => hpos, fun hs => ?_, fun ht => ?_⟩
    · show (rf.logEntries ++ _)[0]? = _
      rw [List.getElem?_append_left hlen]
      exact h.first
    · intro j
      show 1 ≤ update rf.nextIndex rf.me _ j
      by_cases hj : j = rf.me
      · rw [hj, update_self]
        simp
      · rw [update_of_ne hj]
        exact h.next j
    · rw [hwhole]
      exact (h.shaped hs).splice hlast ((h.shaped hs).le_term hlast) hpos le_rfl
    · show Indexed rf.firstIndexEachTerm (rf.logEntries ++ [⟨rf.currentTerm, some command⟩])
      have hindexed := h.indexed ht
      have hshaped := h.shaped (hst ht)
      have hle := hshaped.le_term hlast
      by_cases heq : last.term = rf.currentTerm
      · rw [hwhole]
        exact hindexed.splice hlast heq
      · -- the term is new to the log, and so to the map
        have hnew : ∀ e ∈ rf.logEntries, e.term ≠ rf.currentTerm := by
          intro e he hterm
          obtain ⟨k, hk⟩ := List.getElem?_of_mem he
          have hlt := (List.getElem?_eq_some_iff.mp hk).1
          have hsorted : e.term ≤ last.term := hshaped.sorted.le (by omega) hk hlast
          omega
        have hnone : rf.firstIndexEachTerm rf.currentTerm = none := by
          have hover := hfresh ht
          unfold startsOver at hover
          by_contra hsome
          rw [hlead, Option.isSome_iff_ne_none.mpr hsome, List.all_eq_true.mpr] at hover
          · exact Bool.noConfusion hover
          · exact fun e he => decide_eq_true (hnew e he)
        intro t f htf j hj
        have hne : t ≠ rf.currentTerm := by
          rintro rfl
          rw [hnone] at htf
          contradiction
        rw [hwhole, getElem?_splice (by omega)] at hj
        split at hj
        · rename_i hjk
          rw [hwhole]
          exact hindexed.splice_old (by omega) htf hjk hj
        · split at hj
          · exact absurd (Option.some.inj hj).symm hne
          · contradiction

theorem replicateArgs_rooted (h : rf.LogOK shapes tabled) {peer : Fin n}
    (hr : rf.replicateArgs peer = some (some args)) : args.frame.Rooted := by
  unfold replicateArgs at hr
  split at hr
  · split at hr
    · contradiction
    · rename_i prev _
      obtain ⟨e, he, hargs⟩ := Option.map_eq_some_iff.mp hr
      obtain rfl := Option.some.inj hargs
      intro hz
      replace hz : prev = 0 := hz
      rw [hz, h.first] at he
      show e.term = 0
      rw [← Option.some.inj he]
      rfl
  · exact absurd (Option.some.inj hr) (nomatch ·)

theorem heartbeatArgs_rooted (h : rf.LogOK shapes tabled) (hr : rf.heartbeatArgs = some args) :
    args.frame.Rooted := by
  obtain ⟨e, he, rfl⟩ := Option.map_eq_some_iff.mp hr
  intro hz
  replace hz : rf.logEntries.length - 1 = 0 := hz
  rw [hz, h.first] at he
  show e.term = 0
  rw [← Option.some.inj he]
  rfl

theorem heartbeatArgs_ok (hr : rf.heartbeatArgs = some args) : args.OK := by
  obtain ⟨e, he, rfl⟩ := Option.map_eq_some_iff.mp hr
  exact ⟨List.Pairwise.nil, fun x hx => absurd hx List.not_mem_nil,
    fun x hx => absurd hx List.not_mem_nil, fun x hx => absurd hx List.not_mem_nil⟩

end Server

/-! ## 4. The cluster -/

namespace Sys

variable {shapes tabled : Prop} {s s' : Sys n Cmd} {a : Action n Cmd} {i : Fin n}
  {rf' : Server n Cmd} {th : Thread n Cmd} {past : List (Sys n Cmd × Action n Cmd)}

structure Sound (shapes tabled : Prop) (s : Sys n Cmd) : Prop where
  servers : ∀ i, (s.rafts i).LogOK shapes tabled
  frames : ∀ th ∈ s.threads, ∀ f, th.frame = some f → f.Rooted
  requests : shapes → ∀ th ∈ s.threads, ∀ args, th.request = some args → args.OK

def startsOver (s : Sys n Cmd) : Action n Cmd → Bool
  | .start i _ => (s.rafts i).startsOver
  | _ => false

theorem Moves.logOK (hr : Run past s) (h : Sound shapes tabled s) (hst : tabled → shapes)
    (hfresh : tabled → s.startsOver a = false) (hm : s.Moves a i rf') :
    rf'.LogOK shapes tabled := by
  have hi := h.servers i
  cases hm with
  | stays => exact hi
  | ticks _ => exact hi.tick _ _
  | launches _ => exact hi.congr (Nat.le_succ _) rfl rfl rfl rfl rfl id
  | votes hv => exact hi.requestVote (Server.requestVote_outcome hv)
  | appends hth _ hreq hap =>
    exact hi.appendEntries hst (h.frames _ hth _ (frame_of_request hreq))
      (fun hs => h.requests hs _ hth _ hreq) (Server.appendEntries_outcome hap)
  | converts hlt => exact hi.convert hlt
  | @leads t e th args reply el _ ht ho hj =>
    obtain ⟨T, _, hT, el, _, _, h0, h1⟩ :=
      ((run_tallies hr).threads _ (List.mem_of_getElem? ht)).stands (b := (e, th.peer))
        (by rw [Thread.ballot, hj])
    rw [ho] at hT
    exact hi.becomeLeader (by omega)
  | credits _ _ _ _ hc => exact hi.replicateReply hc
  | contacts => exact hi.congr le_rfl rfl rfl rfl rfl rfl id
  | starts ha =>
    subst ha
    exact hi.start hst _ hfresh
  | crashes => exact hi.congr le_rfl rfl rfl rfl rfl rfl id
  | restarts => exact Server.logOK_make hi (run_persisted hr i).2 i _ _

theorem Goes.rooted (h : Sound shapes tabled s) (hg : s.Goes a th) {f : Frame}
    (hf : th.frame = some f) : f.Rooted := by
  -- a job made from one that has the same request
  have hold : ∀ {x : Thread n Cmd} {g : Frame}, x ∈ s.threads → x.frame = some g →
      some g = some f → f.Rooted := by
    intro x g hx hg he
    rw [← Option.some.inj he]
    exact h.frames x hx g hg
  cases hg with
  | stays hth => exact h.frames _ hth f hf
  | sends hth hj hl hargs =>
    rw [← Option.some.inj hf]
    exact Server.replicateArgs_rooted (h.servers _) hargs
  | heartbeats hth hj hl hargs =>
    rw [← Option.some.inj hf]
    exact Server.heartbeatArgs_rooted (h.servers _) hargs
  | encodes _ ht hj => exact hold (List.mem_of_getElem? ht) (by rw [Thread.frame, hj]) hf
  | sent _ ht hj => exact hold (List.mem_of_getElem? ht) (by rw [Thread.frame, hj]) hf
  | replies hth hj => exact hold hth (by rw [Thread.frame, hj]) hf
  | _ => cases hf

theorem Goes.ok (h : Sound shapes tabled s) (hs : shapes) (hg : s.Goes a th)
    (hpiece : ∀ t th args read shared, a = .run t → s.threads[t]? = some th →
      th.job = .replicateSending args read shared → args.OK) {args : AppendEntriesArgs n Cmd}
    (hreq : th.request = some args) : args.OK := by
  cases hg with
  | stays hth => exact h.requests hs _ hth args hreq
  | heartbeats hth hj hl hargs =>
    obtain rfl := Option.some.inj hreq
    exact Server.heartbeatArgs_ok hargs
  | sent ha ht hj =>
    obtain rfl := Option.some.inj hreq
    exact hpiece _ _ _ _ _ ha ht hj
  | _ => cases hreq

theorem step_sound (hr : Run past s) (h : Sound shapes tabled s) (hst : tabled → shapes)
    (hfresh : tabled → s.startsOver a = false)
    (hpiece : shapes → ∀ t th args read shared, a = .run t → s.threads[t]? = some th →
      th.job = .replicateSending args read shared → args.OK)
    (hs : s.step a = some s') : Sound shapes tabled s' := by
  refine ⟨fun i => (step_moves hs i).logOK hr h hst hfresh, fun x hx f hf => ?_,
    fun hsh x hx args hreq => ?_⟩
  · obtain ⟨th, hg, _, _, _, _, hframe⟩ := step_goes hs x hx
    exact hg.rooted h (hframe.symm.trans hf)
  · obtain ⟨th, hg, _, _, hrequest, _⟩ := step_goes hs x hx
    exact hg.ok h hsh (hpiece hsh) (hrequest.symm.trans hreq)

theorem sound_init (rnds : Fin n → Nat) (grow : Nat → Nat → Nat) :
    Sound shapes tabled (init rnds grow : Sys n Cmd) :=
  ⟨fun _ => ⟨rfl, fun _ => le_rfl, le_rfl, fun hl => (nomatch hl), fun _ => shaped_sentinel,
    fun _ _ _ ht => (nomatch ht)⟩, fun _ hth => absurd hth List.not_mem_nil,
    fun _ _ hth => absurd hth List.not_mem_nil⟩

/-- In every run logs keep their sentinel, and no request makes a peer drop it. -/
theorem run_rooted (hr : Run past s) : Sound False False s := by
  induction hr with
  | start hinit =>
    obtain ⟨rnds, grow, rfl⟩ := hinit
    exact sound_init rnds grow
  | next hr hs ih => exact step_sound hr ih id nofun nofun hs

/-- In a run without two leaders of one term, with requests encoded in their term only, the logs have
their shape; as long as no leader starts its term over, the maps of first indices are right for the
terms they know. -/
theorem run_sound (hr : Run past s) (hone : OneLeader past s)
    (hlate : ∀ x ∈ past, x.1.encodesLate x.2 = false)
    (hfresh : tabled → ∀ x ∈ past, x.1.startsOver x.2 = false) : Sound True tabled s := by
  induction hr with
  | start hinit =>
    obtain ⟨rnds, grow, rfl⟩ := hinit
    exact sound_init rnds grow
  | @next past s s' a hr hs ih =>
    have hback : ∀ x, Transition.Visited past s x → Transition.Visited ((s, a) :: past) s' x :=
      fun x hx => Transition.visited_next.mpr (Or.inr hx)
    have hone' : OneLeader past s := fun x y hx hy => hone x y (hback x hx) (hback y hy)
    have hlate' : ∀ x ∈ past, x.1.encodesLate x.2 = false :=
      fun x hx => hlate x (List.mem_cons_of_mem _ hx)
    have hsound := ih hone' hlate' fun ht x hx => hfresh ht x (List.mem_cons_of_mem _ hx)
    refine step_sound hr hsound (fun _ => trivial) (fun ht => hfresh ht _ List.mem_cons_self)
      (fun _ t th args read shared ha ht hj => ?_) hs
    -- the sender is in the term of the request, so the request is a piece of its log
    subst ha
    obtain ⟨A, hA⟩ := run_recounts False hr hlate' hone' nofun nofun
    have hok := hA.rel.threads th (List.mem_of_getElem? ht)
    unfold ThreadOK at hok
    rw [hj] at hok
    have hserver := hA.rel.servers th.owner
    have hnow : args.term = (s.rafts th.owner).currentTerm := by
      have hl := hlate _ List.mem_cons_self
      obtain ⟨owner, peer, alive, job⟩ := th
      simp only at hj
      subst hj
      simpa only [encodesLate, ht, decide_eq_false_iff_not, not_not] using hl
    have hterm : A.term th.owner = args.term := hserver.term.trans hnow.symm
    have hown : A.leaderLog args.term = (s.rafts th.owner).logEntries := by
      rw [← hserver.log]
      exact ((hA.rel.inv.own _ _ hok.2.leader).2 hterm).symm
    obtain ⟨e, he, het⟩ := hok.2.prev
    have hentries := hok.2.entries hterm
    rw [hown] at he hentries
    exact ((hsound.servers th.owner).shaped trivial).piece he het hnow.ge hentries

/-- **The shape of a log**, which has no committed entry that is not applied. -/
theorem log_shape {past : List (Sys n Cmd × Action n Cmd)} {s : Sys n Cmd} (hr : Run past s)
    (hone : OneLeader past s) (hlate : ∀ x ∈ past, x.1.encodesLate x.2 = false) (i : Fin n) :
    Shaped (s.rafts i).currentTerm (s.rafts i).logEntries ∧
      (s.rafts i).commitIndex ≤ (s.rafts i).lastApplied := by
  have h : Sound True False s := run_sound hr hone hlate nofun
  exact ⟨(h.servers i).shaped trivial, (h.servers i).applied⟩

theorem log_shape_firstCommand : ∃ past, ∃ s : Sys 3 Nat, Run past s ∧
    (s.rafts 1).logEntries = [Server.sentinel, ⟨1, some 7⟩] ∧
    Shaped (s.rafts 1).currentTerm (s.rafts 1).logEntries :=
  ⟨_, _, trace_run (fun _ => 0) firstCommand, by decide +kernel,
    (log_shape (trace_run _ _) (orderly_oneLeader (trace_run _ _) (by decide +kernel))
      (by decide +kernel) 1).1⟩

end Sys

end Raft
