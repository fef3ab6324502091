import Mathlib.Order.Bounds.Basic
import DistributedSystems.Raft.ServerSpec

/-!
# The commit rule (`UpdateCommitIndex`)

The code commits the element at position `n / 2` of the sorted match indices.  For an odd number of
servers that is the largest index a majority has reached; for an even number it is the larger of the
two middle elements, which half of the servers are enough for.
-/

namespace Raft

open OrderStatistics

variable {n : Nat} {Cmd : Type}

namespace Server

/-! ## 1. What the rule says -/

def Majority (rf : Server n Cmd) (N : Nat) : Prop :=
  n / 2 + 1 ≤ (Finset.univ.filter fun j => N ≤ rf.matchIndex j).card

instance (rf : Server n Cmd) (N : Nat) : Decidable (rf.Majority N) := Nat.decLe _ _

def CurrentAt (rf : Server n Cmd) (N : Nat) : Prop :=
  (rf.logEntries[N]?).map LogEntry.term = some rf.currentTerm

structure CommitRule (rf rf' : Server n Cmd) : Prop where
  sound : rf.commitIndex < rf'.commitIndex →
    rf.Majority rf'.commitIndex ∧ rf.CurrentAt rf'.commitIndex
  complete : ∀ N, IsGreatest {N | rf.Majority N} N → rf.commitIndex < N → rf.CurrentAt N →
    rf'.commitIndex = N

/-- The index would be committed if a majority had reached it. -/
def Pending (rf : Server n Cmd) (N : Nat) : Prop := rf.commitIndex < N ∧ rf.CurrentAt N

/-- The two middle match indices differ, and one of them is pending. -/
def SplitMiddle (rf : Server n Cmd) : Prop :=
  ∃ lower upper, (sorted rf.matchIndex)[(n - 1) / 2]? = some lower ∧
    (sorted rf.matchIndex)[n / 2]? = some upper ∧ lower < upper ∧
    (rf.Pending lower ∨ rf.Pending upper)

variable {rf : Server n Cmd}

theorem not_splitMiddle_of_odd (hn : n % 2 = 1) : ¬ rf.SplitMiddle := by
  rintro ⟨lower, upper, hlower, hupper, hlt, _⟩
  rw [show (n - 1) / 2 = n / 2 by omega, hupper] at hlower
  have heq := Option.some.inj hlower
  omega

/-! ## 2. What the code does -/

theorem applyCommitted_total (rf : Server n Cmd) (h : rf.commitIndex < rf.logEntries.length) :
    ∃ msgs, rf.applyCommitted =
      some ({ rf with lastApplied := max rf.lastApplied rf.commitIndex }, msgs) := by
  have hmsgs : ∀ is : List Nat, (∀ i ∈ is, i ≤ rf.commitIndex) → ∃ msgs,
      is.mapM (fun i => (rf.logEntries[i]?).map fun e => (⟨true, e.command, i⟩ : ApplyMsg Cmd)) =
        some msgs := by
    intro is
    induction is with
    | nil => exact fun _ => ⟨[], rfl⟩
    | cons i is ih =>
      intro his
      obtain ⟨msgs, hmsgs⟩ := ih fun j hj => his j (List.mem_cons_of_mem _ hj)
      have hi : i < rf.logEntries.length := (his i List.mem_cons_self).trans_lt h
      refine ⟨⟨true, rf.logEntries[i].command, i⟩ :: msgs, ?_⟩
      rw [List.mapM_cons, hmsgs, List.getElem?_eq_getElem hi]
      rfl
  obtain ⟨msgs, hmsgs⟩ := hmsgs
    (List.range' (rf.lastApplied + 1) (rf.commitIndex - rf.lastApplied)) (by
      intro i hi
      have hrange := List.mem_range'_1.mp hi
      omega)
  refine ⟨msgs, ?_⟩
  unfold applyCommitted
  rw [hmsgs]
  rfl

theorem updateCommitIndex_total {upper : Nat} (hupper : (sorted rf.matchIndex)[n / 2]? = some upper)
    (hmatch : ∀ j, rf.matchIndex j < rf.logEntries.length)
    (hcommit : rf.commitIndex < rf.logEntries.length) :
    ∃ rf' msgs, rf.updateCommitIndex = some (rf', msgs) ∧
      (rf.Pending upper ∧ rf'.commitIndex = upper ∨
        ¬ rf.Pending upper ∧ rf'.commitIndex = rf.commitIndex) := by
  have hlog : upper < rf.logEntries.length := by
    obtain ⟨j, rfl⟩ := mem_sorted.mp (List.mem_of_getElem? hupper)
    exact hmatch j
  have hlookup : rf.updateCommitIndex =
      if rf.commitIndex < upper then
        if rf.logEntries[upper].term = rf.currentTerm then
          ({ rf with commitIndex := upper } : Server n Cmd).applyCommitted
        else rf.applyCommitted
      else rf.applyCommitted := by
    unfold updateCommitIndex
    dsimp only
    rw [show ((List.ofFn rf.matchIndex).insertionSort (· ≤ ·)) = sorted rf.matchIndex from rfl,
      length_sorted, hupper]
    dsimp only
    rw [List.getElem?_eq_getElem hlog]
  have hpending : rf.Pending upper ↔
      rf.commitIndex < upper ∧ rf.logEntries[upper].term = rf.currentTerm := by
    unfold Pending CurrentAt
    rw [List.getElem?_eq_getElem hlog, Option.map_some, Option.some_inj]
  by_cases hp : rf.Pending upper
  · obtain ⟨hlt, hterm⟩ := hpending.mp hp
    obtain ⟨msgs, hmsgs⟩ :=
      applyCommitted_total { rf with commitIndex := upper } hlog
    exact ⟨_, msgs, by rw [hlookup, if_pos hlt, if_pos hterm, hmsgs], Or.inl ⟨hp, rfl⟩⟩
  · obtain ⟨msgs, hmsgs⟩ := applyCommitted_total rf hcommit
    refine ⟨{ rf with lastApplied := max rf.lastApplied rf.commitIndex }, msgs, ?_,
      Or.inr ⟨hp, rfl⟩⟩
    rw [hlookup, ← hmsgs]
    rw [hpending] at hp
    by_cases hlt : rf.commitIndex < upper
    · rw [if_pos hlt, if_neg fun hterm => hp ⟨hlt, hterm⟩]
    · rw [if_neg hlt]

/-! ## 3. When the code follows the rule -/

/-- The smaller middle element is the largest index of a majority. -/
theorem majority_iff {lower : Nat} (hlower : (sorted rf.matchIndex)[(n - 1) / 2]? = some lower)
    (N : Nat) :
    rf.Majority N ↔ N ≤ lower := by
  have hn : 0 < n := rf.me.pos
  unfold Majority
  rw [le_iff_card hlower, show n - (n - 1) / 2 = n / 2 + 1 by omega]

theorem isGreatest_majority {lower : Nat}
    (hlower : (sorted rf.matchIndex)[(n - 1) / 2]? = some lower) :
    IsGreatest {N | rf.Majority N} lower :=
  ⟨(majority_iff hlower lower).mpr le_rfl, fun N hN => (majority_iff hlower N).mp hN⟩

/-- **Commit rule.**  `UpdateCommitIndex` returns, and follows the rule exactly when the two middle
match indices are equal or neither of them is pending; for an odd number of servers they are. -/
theorem commit_rule_iff (rf : Server n Cmd)
    (hmatch : ∀ j, rf.matchIndex j < rf.logEntries.length)
    (hcommit : rf.commitIndex < rf.logEntries.length) :
    ∃ rf' msgs, rf.updateCommitIndex = some (rf', msgs) ∧
      (rf.CommitRule rf' ↔ ¬ rf.SplitMiddle) := by
  have hn : 0 < n := rf.me.pos
  obtain ⟨lower, hlower⟩ := exists_sorted rf.matchIndex (i := (n - 1) / 2) (by omega)
  obtain ⟨upper, hupper⟩ := exists_sorted rf.matchIndex (i := n / 2) (by omega)
  have hle : lower ≤ upper := sorted_mono hlower hupper (by omega)
  have hgreatest := isGreatest_majority hlower
  obtain ⟨rf', msgs, hupdate, hindex⟩ := updateCommitIndex_total hupper hmatch hcommit
  refine ⟨rf', msgs, hupdate, ?_⟩
  constructor
  · -- a split middle shows: in what the index is raised to, or in that it is not raised
    rintro hrule ⟨lower', upper', hlower', hupper', hlt, hpending⟩
    obtain rfl := Option.some.inj (hlower.symm.trans hlower')
    obtain rfl := Option.some.inj (hupper.symm.trans hupper')
    rcases hindex with ⟨hp, hcommit'⟩ | ⟨hp, hcommit'⟩
    · have hmajority := (hrule.sound (by rw [hcommit']; exact hp.1)).1
      rw [hcommit', majority_iff hlower] at hmajority
      omega
    · have hp' : rf.Pending lower := hpending.resolve_right hp
      have hraised := hrule.complete lower hgreatest hp'.1 hp'.2
      have hlt' := hp'.1
      omega
  · intro hsplit
    -- pending indices are committed only where the middle elements agree
    have heq : ∀ N, rf.Pending N → N = lower ∨ N = upper → lower = upper := by
      intro N hN hmiddle
      by_contra hne
      apply hsplit
      refine ⟨lower, upper, hlower, hupper, by omega, ?_⟩
      rcases hmiddle with rfl | rfl
      · exact Or.inl hN
      · exact Or.inr hN
    constructor
    · intro hraised
      rcases hindex with ⟨hp, hcommit'⟩ | ⟨_, hcommit'⟩
      · rw [hcommit', ← heq upper hp (Or.inr rfl)] at *
        exact ⟨hgreatest.1, hp.2⟩
      · omega
    · intro N hN hlt hcurrent
      obtain rfl := hN.unique hgreatest
      have hsame := heq N ⟨hlt, hcurrent⟩ (Or.inl rfl)
      rcases hindex with ⟨_, hcommit'⟩ | ⟨hp, _⟩
      · omega
      · rw [← hsame] at hp
        exact absurd ⟨hlt, hcurrent⟩ hp

def halfReplicated : Server 4 Nat where
  me := 0
  dead := false
  persister := none
  currentTerm := 1
  votedFor := some 0
  logEntries := [⟨0, none⟩, ⟨1, some 7⟩]
  commitIndex := 0
  lastApplied := 0
  nextIndex := fun j => if j.val < 2 then 2 else 1
  matchIndex := fun j => if j.val < 2 then 1 else 0
  electionTimeout := 0
  lastHeartbeat := 0
  identity := .leader
  lastContact := none
  firstIndexEachTerm := fun _ => none

theorem commit_rule_iff_halfReplicated :
    ∃ rf' msgs, halfReplicated.updateCommitIndex = some (rf', msgs) ∧
      (halfReplicated.CommitRule rf' ↔ ¬ halfReplicated.SplitMiddle) :=
  commit_rule_iff halfReplicated (by decide) (by decide)

/-- Half of the servers are enough for the code, and not a majority. -/
theorem half_commits :
    (halfReplicated.updateCommitIndex.map fun r => (r.1.commitIndex, r.2)) =
      some (1, [⟨true, some 7, 1⟩]) ∧ ¬ halfReplicated.Majority 1 := by
  decide +kernel

end Server

end Raft
