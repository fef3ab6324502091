import DistributedSystems.Library.Runs
import DistributedSystems.MCertiKOS.Threads

/-!
# Spin locks (`kern/lib/spinlock.c`)

One lock and the CPUs that acquire it and then release it.  A step is one access of a CPU to the
lock, so calls interleave at every access.
-/

namespace MCertiKOS.Spinlock

open Function

abbrev Cpu := Fin numCpus

/-- Where a CPU stands: the loop of `spinlock_acquire` has failed so far, `xchg` has found the lock
free, `lock_holder` is stored, or it is cleared again. -/
inductive Phase
  | outside
  | spinning
  | taken
  | inside
  | releasing
  deriving DecidableEq

def Phase.owns : Phase → Bool
  | .outside | .spinning => false
  | .taken | .inside | .releasing => true

structure State where
  lock : Nat
  lockHolder : Nat
  phase : Cpu → Phase

inductive Access
  | acquire (c : Cpu)
  | tryAcquire (c : Cpu)
  | setHolder (c : Cpu)
  | clearHolder (c : Cpu)
  | unlock (c : Cpu)

def spinlockInit : State := ⟨0, numCpus + 1, fun _ => .outside⟩

/-- `xchg(&lk->lock, 1)`; the phase after it depends on the old value. -/
def xchg (s : State) (c : Cpu) (missed : Phase) : State :=
  { s with lock := 1, phase := update s.phase c (if s.lock = 0 then .taken else missed) }

def step (s : State) : Access → Option State
  | .acquire c =>
    if s.phase c = .outside ∨ s.phase c = .spinning then some (xchg s c .spinning) else none
  | .tryAcquire c => if s.phase c = .outside then some (xchg s c .outside) else none
  | .setHolder c =>
    if s.phase c = .taken then some ⟨s.lock, c, update s.phase c .inside⟩ else none
  | .clearHolder c =>
    if s.phase c = .inside then some ⟨s.lock, numCpus + 1, update s.phase c .releasing⟩ else none
  | .unlock c =>
    if s.phase c = .releasing then some ⟨0, s.lockHolder, update s.phase c .outside⟩ else none

def spinlockHolding (s : State) (c : Cpu) : Bool := s.lock ≠ 0 && s.lockHolder = c

/-- `owner` is the CPU past its `xchg`, if any, and `lock_holder` is it between its two stores. -/
structure OwnedBy (owner : Option Cpu) (s : State) : Prop where
  free : s.lock = 0 ↔ owner = none
  owns : ∀ c, (s.phase c).owns = true ↔ owner = some c
  holder : ∀ c : Cpu, s.lockHolder = c ↔ s.phase c = .inside

section Step

variable {owner : Option Cpu} {s s' : State}

theorem OwnedBy.xchg (h : OwnedBy owner s) {c : Cpu} {missed : Phase}
    (hc : (s.phase c).owns = false) (hmissed : missed.owns = false) :
    ∃ owner', OwnedBy owner' (xchg s c missed) := by
  obtain ⟨hlock, howns, hholder⟩ := h
  unfold Spinlock.xchg
  by_cases hfree : s.lock = 0
  · refine ⟨some c, ?_⟩
    rw [if_pos hfree]
    constructor <;> grind [update_apply, Phase.owns]
  · refine ⟨owner, ?_⟩
    rw [if_neg hfree]
    constructor <;> grind [update_apply, Phase.owns]

theorem OwnedBy.step {a : Access} (h : OwnedBy owner s) (hs : step s a = some s') :
    ∃ owner', OwnedBy owner' s' := by
  cases a <;> obtain ⟨hc, hs⟩ := Option.ite_none_right_eq_some.mp hs <;> cases hs
  case acquire c => exact h.xchg (by rcases hc with hc | hc <;> rw [hc] <;> rfl) rfl
  case tryAcquire c => exact h.xchg (by rw [hc]; rfl) rfl
  all_goals obtain ⟨hlock, howns, hholder⟩ := h
  case unlock c =>
    refine ⟨none, ?_⟩
    constructor <;> grind [update_apply, Phase.owns]
  all_goals
    refine ⟨owner, ?_⟩
    constructor <;> grind [update_apply, Phase.owns]

end Step

abbrev Run : List (State × Access) → State → Prop :=
  Transition.Run (· = spinlockInit) fun s a s' => step s a = some s'

/-- **Mutual exclusion.**  However the accesses of the CPUs interleave, the lock is free or has one
owner, no other CPU is past its `xchg`, and `spinlock_holding` is true on the CPU between the calls
and on no other. -/
theorem spinlock_mutual_exclusion {past : List (State × Access)} {s : State} (hr : Run past s) :
    ∃ owner : Option Cpu, (s.lock = 0 ↔ owner = none) ∧
      ∀ c, ((s.phase c).owns = true ↔ owner = some c) ∧
        (spinlockHolding s c = true ↔ s.phase c = .inside) := by
  obtain ⟨owner, h⟩ : ∃ owner, OwnedBy owner s := by
    refine Transition.Run.invariant (I := fun s => ∃ owner, OwnedBy owner s) ?_
      (fun _ _ _ h hs => h.elim fun _ h => h.step hs) hr
    rintro _ rfl
    exact ⟨none, by decide, by decide, by decide⟩
  refine ⟨owner, h.free, fun c => ⟨h.owns c, ?_⟩⟩
  simp only [spinlockHolding, Bool.and_eq_true, decide_eq_true_eq, h.holder]
  refine ⟨And.right, fun hc => ⟨fun hfree => ?_, hc⟩⟩
  grind [h.free, h.owns c, Phase.owns]

/-- The second CPU spins while the first is inside. -/
theorem spinlock_mutual_exclusion_two : ∃ past s, ∃ c d : Cpu, Run past s ∧ s.phase c = .inside ∧
    s.phase d = .spinning ∧ spinlockHolding s d = false := by
  have hr : Run _ _ := Transition.replay_run (fun _ _ _ h => h)
    [.acquire ⟨0, by decide⟩, .acquire ⟨1, by decide⟩, .setHolder ⟨0, by decide⟩] _ _ (.start rfl)
  refine ⟨_, _, ⟨0, by decide⟩, ⟨1, by decide⟩, hr, by decide, by decide, ?_⟩
  obtain ⟨_, _, h⟩ := spinlock_mutual_exclusion hr
  exact Bool.eq_false_iff.mpr (mt (h _).2.mp (by decide))

end MCertiKOS.Spinlock
