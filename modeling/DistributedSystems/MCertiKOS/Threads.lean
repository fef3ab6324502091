import Mathlib.Data.List.FinRange
import DistributedSystems.MCertiKOS.Containers

/-!
# Threads (`kern/thread`, `kern/init/init.c`)

Thread control blocks, thread queues and the scheduler of one CPU.  An index that the C code writes
as `NUM_IDS` for "none" is `none` here.  A call that indexes a table with it, or that panics, gives
no result.
-/

namespace MCertiKOS

open Function

/-! ## 1. The tables -/

def numCpus : Nat := 8

/-- A thread queue: one for each thread to be slept on, and one ready queue for each CPU. -/
abbrev Chid := Fin (numIds + numCpus)

def readyQueue : Chid := ⟨numIds, by decide⟩

inductive TState
  | ready | run | sleep | dead
  deriving DecidableEq

structure TcbPool where
  state : Pid → TState
  prev : Pid → Option Pid
  next : Pid → Option Pid
  channel : Pid → BitVec 32

structure TQueuePool where
  head : Chid → Option Pid
  tail : Chid → Option Pid

/-- Where a saved kernel context goes on: at the entry of a new thread, in `kern_main`, or behind the
`kctx_switch` of `thread_yield` or `thread_sleep`. -/
inductive Kctx
  | entry | kernMain | yielded | slept
  deriving DecidableEq

/-- The memory manager, the thread tables, `CURID` of the CPU and `kctx_pool`.  `switched` is the
thread whose context the CPU restored last. -/
structure Sched where
  pmm : Pmm
  tcb : TcbPool
  tqueue : TQueuePool
  curid : Pid
  kctx : Pid → Option Kctx
  switched : Pid

namespace Sched

/-! ## 2. `PTCBIntro` and `PTQueueIntro` -/

def tcbSetState (s : Sched) (pid : Pid) (state : TState) : Sched :=
  { s with tcb := { s.tcb with state := update s.tcb.state pid state } }

def tcbSetPrev (s : Sched) (pid : Pid) (prevPid : Option Pid) : Sched :=
  { s with tcb := { s.tcb with prev := update s.tcb.prev pid prevPid } }

def tcbSetNext (s : Sched) (pid : Pid) (nextPid : Option Pid) : Sched :=
  { s with tcb := { s.tcb with next := update s.tcb.next pid nextPid } }

def tcbSetChan (s : Sched) (pid : Pid) (chan : BitVec 32) : Sched :=
  { s with tcb := { s.tcb with channel := update s.tcb.channel pid chan } }

def tqueueSetHead (s : Sched) (chid : Chid) (head : Option Pid) : Sched :=
  { s with tqueue := { s.tqueue with head := update s.tqueue.head chid head } }

def tqueueSetTail (s : Sched) (chid : Chid) (tail : Option Pid) : Sched :=
  { s with tqueue := { s.tqueue with tail := update s.tqueue.tail chid tail } }

def setCurid (s : Sched) (curid : Pid) : Sched := { s with curid := curid }

/-! ## 3. `PTQueueInit` -/

def tqueueEnqueue (s : Sched) (chid : Chid) (pid : Pid) : Sched :=
  match s.tqueue.tail chid with
  | none =>
    let s := s.tcbSetPrev pid none
    let s := s.tcbSetNext pid none
    let s := s.tqueueSetHead chid (some pid)
    s.tqueueSetTail chid (some pid)
  | some tail =>
    let s := s.tcbSetNext tail (some pid)
    let s := s.tcbSetPrev pid (some tail)
    let s := s.tcbSetNext pid none
    s.tqueueSetTail chid (some pid)

def tqueueDequeue (s : Sched) (chid : Chid) : Sched × Option Pid :=
  match s.tqueue.head chid with
  | none => (s, none)
  | some pid =>
    let s :=
      match s.tcb.next pid with
      | none => (s.tqueueSetHead chid none).tqueueSetTail chid none
      | some next => (s.tcbSetPrev next none).tqueueSetHead chid (some next)
    let s := s.tcbSetPrev pid none
    (s.tcbSetNext pid none, some pid)

def tqueueRemove (s : Sched) (chid : Chid) (pid : Pid) : Sched :=
  let s :=
    match s.tcb.prev pid, s.tcb.next pid with
    | none, none => (s.tqueueSetHead chid none).tqueueSetTail chid none
    | none, some next => (s.tcbSetPrev next none).tqueueSetHead chid (some next)
    | some prev, none => (s.tcbSetNext prev none).tqueueSetTail chid (some prev)
    | some prev, some next =>
      let s := if prev ≠ next then s.tcbSetNext prev (some next) else s
      s.tcbSetPrev next (some prev)
  let s := s.tcbSetPrev pid none
  s.tcbSetNext pid none

/-! ## 4. `PKCtxIntro` and `PThread` -/

/-- `kctx_switch`, from a call at `here`, and what the thread switched to does before it is again in
code that calls the scheduler: a sleeper clears its channel. -/
def kctxSwitch (s : Sched) (fromPid toPid : Pid) (here : Kctx) : Option Sched :=
  let s := { s with kctx := update s.kctx fromPid (some here), switched := toPid }
  match s.kctx toPid with
  | some .entry => some s
  | some .yielded => some s
  | some .slept => some (s.tcbSetChan toPid 0)
  -- `kern_main` panics, and a context that was never set leads nowhere
  | some .kernMain => none
  | none => none

def threadInit (mmap : List MemRange) : Sched where
  pmm := containerInit mmap
  tcb :=
    { state := update (fun _ => .dead) rootPid .run
      prev := fun _ => none
      next := fun _ => none
      channel := fun _ => 0 }
  tqueue := ⟨fun _ => none, fun _ => none⟩
  curid := rootPid
  kctx := fun _ => none
  switched := rootPid

def threadSpawn (s : Sched) (id : Pid) (quota : BitVec 32) : Option (Sched × Option Pid) := do
  let (pmm, pid) ← s.pmm.kctxNew id quota
  let s : Sched := { s with pmm := pmm }
  match pid with
  | none => return (s, none)
  | some pid =>
    let s : Sched := { s with kctx := update s.kctx pid (some .entry) }
    let s := s.tcbSetState pid .ready
    return (s.tqueueEnqueue readyQueue pid, some pid)

def threadYield (s : Sched) : Option Sched := do
  let oldCurPid := s.curid
  let s := s.tcbSetState oldCurPid .ready
  let s := s.tqueueEnqueue readyQueue oldCurPid
  let (s, newCurPid) := s.tqueueDequeue readyQueue
  let newCurPid ← newCurPid
  let s := s.tcbSetState newCurPid .run
  let s := s.setCurid newCurPid
  if oldCurPid ≠ newCurPid then s.kctxSwitch oldCurPid newCurPid .yielded else return s

/-- The caller's lock is another module's business. -/
def threadSleep (s : Sched) (chan : BitVec 32) : Option Sched :=
  let curid := s.curid
  let s := s.tcbSetState curid .sleep
  let s := s.tcbSetChan curid chan
  let (s, nextid) := s.tqueueDequeue readyQueue
  s.kctxSwitch curid (nextid.getD curid) .slept

def wakeOne (chan : BitVec 32) (s : Sched) (i : Pid) : Sched :=
  if s.tcb.state i = .sleep ∧ s.tcb.channel i = chan then
    let s := s.tcbSetState i .ready
    let s := s.tcbSetChan i 0
    s.tqueueEnqueue readyQueue i
  else s

def threadWakeup (s : Sched) (chan : BitVec 32) : Sched :=
  (List.finRange numIds).foldl (wakeOne chan) s

/-- `kern_main`: the boot thread creates the idle process and leaves for it.  Of `proc_create` only
`thread_spawn` touches the scheduler. -/
def kernMain (s : Sched) : Option Sched := do
  let (s, pid) ← s.threadSpawn s.curid 10000
  let pid ← pid
  let s := s.tqueueRemove readyQueue pid
  let s := s.tcbSetState pid .run
  let s := s.setCurid pid
  s.kctxSwitch rootPid pid .kernMain

/-! ## 5. Runs -/

/-- The scheduler calls of the running thread, and pages being taken and given back in between. -/
inductive Action
  | spawn (id : Pid) (quota : BitVec 32)
  | yield
  | sleep (chan : BitVec 32)
  | wakeup (chan : BitVec 32)
  | containerAlloc (id : Pid)
  | containerFree (id : Pid) (page : Nat)

def perform (s : Sched) : Action → Option Sched
  | .spawn id quota => (s.threadSpawn id quota).map (·.1)
  | .yield => s.threadYield
  | .sleep chan => s.threadSleep chan
  | .wakeup chan => some (s.threadWakeup chan)
  | .containerAlloc id => (s.pmm.containerAlloc id).map fun r => { s with pmm := r.1 }
  | .containerFree id page => (s.pmm.containerFree id page).map fun pmm => { s with pmm := pmm }

def Run (mmap : List MemRange) : List (Sched × Action) → Sched → Prop :=
  Transition.Run (fun s => (threadInit mmap).kernMain = some s) fun s a s' => s.perform a = some s'

end Sched

end MCertiKOS
