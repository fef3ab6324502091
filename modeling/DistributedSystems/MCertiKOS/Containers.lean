import DistributedSystems.Library.Budgets
import DistributedSystems.Library.Runs
import DistributedSystems.MCertiKOS.Pages

/-!
# Containers (`kern/pmm/MContainer`) and their callers

Memory quotas of processes.  The counters of a container are C `int`s and the quota of a system call
is an `unsigned int`, so both are 32-bit words here and every comparison says which reading it uses.
An operation that spins on a lock nobody will release gives no result.
-/

namespace MCertiKOS

open Function

/-! ## 1. The table -/

def numIds : Nat := 64

def maxChildren : Nat := 3

abbrev Pid := Fin numIds

structure SContainer where
  quota : BitVec 32
  usage : BitVec 32
  parent : Pid
  nchildren : Nat
  used : Bool
  deriving DecidableEq

def SContainer.zero : SContainer := ⟨0, 0, ⟨0, by decide⟩, 0, false⟩

structure Pmm where
  mem : PMem
  container : Pid → SContainer
  locked : Pid → Bool

def rootPid : Pid := ⟨0, by decide⟩

/-- The loop of `container_init` that counts the pages to hand out. -/
def realQuota (m : PMem) : Nat :=
  ((Finset.Ico 1 m.nps).filter fun i => m.available i).card

def containerInit (mmap : List MemRange) : Pmm where
  mem := pmemInit mmap
  container := update (fun _ => SContainer.zero) rootPid
    ⟨BitVec.ofNat 32 (realQuota (pmemInit mmap)), 0, rootPid, 0, true⟩
  locked := fun _ => false

namespace Pmm

/-! ## 2. Container operations -/

/-- Nothing when the lock is held: the only CPU spins. -/
def spinlockAcquire (s : Pmm) (id : Pid) : Option Pmm :=
  if s.locked id then none else some { s with locked := update s.locked id true }

def spinlockRelease (s : Pmm) (id : Pid) : Pmm :=
  { s with locked := update s.locked id false }

def setContainer (s : Pmm) (id : Pid) (c : SContainer) : Pmm :=
  { s with container := update s.container id c }

/-- `usage + n` is an unsigned sum and the comparison is unsigned. -/
def containerCanConsume (s : Pmm) (id : Pid) (n : BitVec 32) : Bool :=
  BitVec.ule ((s.container id).usage + n) (s.container id).quota

/-- The new child's index, or nothing for `NUM_IDS`.  That path keeps the lock. -/
def containerSplit (s : Pmm) (id : Pid) (quota : BitVec 32) : Option (Pmm × Option Pid) := do
  let s ← s.spinlockAcquire id
  let nc := (s.container id).nchildren
  if h : id.val * maxChildren + 1 + nc < numIds then
    let child : Pid := ⟨id.val * maxChildren + 1 + nc, h⟩
    let s := s.setContainer child ⟨quota, 0, id, 0, true⟩
    let c := s.container id
    let s := s.setContainer id { c with usage := c.usage + quota, nchildren := c.nchildren + 1 }
    return (s.spinlockRelease id, some child)
  else
    return (s, none)

/-- The page, or 0.  The comparison is signed. -/
def containerAlloc (s : Pmm) (id : Pid) : Option (Pmm × Nat) := do
  let s ← s.spinlockAcquire id
  let c := s.container id
  if BitVec.sle (c.usage + 1) c.quota then
    let s := s.setContainer id { c with usage := c.usage + 1 }
    let (mem, pageIndex) ← s.mem.palloc
    return (({ s with mem := mem } : Pmm).spinlockRelease id, pageIndex)
  else
    return (s.spinlockRelease id, 0)

def containerFree (s : Pmm) (id : Pid) (pageIndex : Nat) : Option Pmm := do
  let s ← s.spinlockAcquire id
  if s.mem.atIsAllocated pageIndex then
    let s := { s with mem := s.mem.pfree pageIndex }
    let c := s.container id
    let s := if BitVec.slt 0 c.usage then s.setContainer id { c with usage := c.usage - 1 } else s
    return s.spinlockRelease id
  else
    return s.spinlockRelease id

/-! ## 3. Process creation -/

def allocMemQuota (s : Pmm) (id : Pid) (quota : BitVec 32) : Option (Pmm × Option Pid) :=
  s.containerSplit id quota

/-- `kctx_new` without the new context's registers. -/
def kctxNew (s : Pmm) (id : Pid) (quota : BitVec 32) : Option (Pmm × Option Pid) :=
  if s.containerCanConsume id quota then s.allocMemQuota id quota else some (s, none)

/-- The error numbers `sys_spawn` sets. -/
inductive Errno
  | succ | exceedsQuota | maxNumChildenReached | invalChildId | invalPid
  deriving DecidableEq

def knownElf (elfId : BitVec 32) : Bool := elfId == 1 || elfId == 2 || elfId == 3 || elfId == 4

/-- `sys_spawn`, with the error number and the return value (nothing for `NUM_IDS`).  Of
`proc_create` and `thread_spawn` only `kctx_new` touches the containers; the pages `elf_load` takes
for the child are `container_alloc` calls of their own. -/
def sysSpawn (s : Pmm) (curid : Pid) (elfId quota : BitVec 32) :
    Option (Pmm × Errno × Option Pid) :=
  if !s.containerCanConsume curid quota then
    some (s, .exceedsQuota, none)
  else if numIds < curid.val * maxChildren + 1 + maxChildren then
    some (s, .maxNumChildenReached, none)
  else if (s.container curid).nchildren = maxChildren then
    some (s, .invalChildId, none)
  else if knownElf elfId then
    (s.kctxNew curid quota).map fun r =>
      match r.2 with
      | none => (r.1, .invalPid, none)
      | some newPid => (r.1, .succ, some newPid)
  else
    some (s, .invalPid, none)

/-! ## 4. Runs -/

/-- What processes ask for.  The table has `2 ^ 20` pages. -/
inductive Action
  | spawn (curid : Pid) (elfId quota : BitVec 32)
  | alloc (id : Pid)
  | free (id : Pid) (page : Fin (2 ^ 20))

def Action.caller : Action → Pid
  | spawn curid _ _ => curid
  | alloc id => id
  | free id _ => id

def perform (s : Pmm) : Action → Option Pmm
  | .spawn curid elfId quota => (s.sysSpawn curid elfId quota).map (·.1)
  | .alloc id => (s.containerAlloc id).map (·.1)
  | .free id page => s.containerFree id page

def exec (s : Pmm) (a : Action) : Option Pmm :=
  if (s.container a.caller).used then s.perform a else none

def Run (mmap : List MemRange) : List (Pmm × Action) → Pmm → Prop :=
  Transition.Run (fun s => s = containerInit mmap) fun s a s' => s.exec a = some s'

end Pmm

end MCertiKOS
