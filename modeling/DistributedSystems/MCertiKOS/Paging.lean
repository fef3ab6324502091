import Mathlib.Data.List.FinRange
import DistributedSystems.MCertiKOS.Containers

/-!
# Page structures (`kern/vmm`: `MPTIntro`, `MPTOp`, `MPTComm`, `MPTKern`, `MPTNew`)

Every process has a static page directory; second-level page tables are pages of the same physical
memory that holds the processes' data.  The kernel runs with the identity map, so an address it
dereferences is a physical one.
-/

namespace MCertiKOS

/-! ## 1. Physical memory -/

/-- An index into a page directory or a page table, and a word of a page. -/
abbrev PtIndex := Fin 1024

abbrev Phys := Nat → PtIndex → BitVec 32

/-- The page indices at which the linker put `PDirPool` and `IDPTbl`.  Both arrays are aligned to
pages, a row of either is one page, and the kernel image ends below `VM_USERLO`. -/
structure KernelLayout where
  pdirPool : Nat
  idptbl : Nat
  pdirPool_le : pdirPool + numIds ≤ userLoPi
  idptbl_le : idptbl + 1024 ≤ userLoPi
  disjoint : pdirPool + numIds ≤ idptbl ∨ idptbl + 1024 ≤ pdirPool

namespace KernelLayout

def pdirPage (K : KernelLayout) (p : Pid) : Nat := K.pdirPool + p.val

def idptblPage (K : KernelLayout) (i : PtIndex) : Nat := K.idptbl + i.val

end KernelLayout

structure Vmm where
  pmm : Pmm
  phys : Phys

def Vmm.write (s : Vmm) (page : Nat) (i : PtIndex) (w : BitVec 32) : Vmm :=
  { s with phys := Function.update s.phys page (Function.update (s.phys page) i w) }

/-! ## 2. Entries and addresses -/

def pteP : BitVec 32 := 0x001
def pteW : BitVec 32 := 0x002
def pteU : BitVec 32 := 0x004
def pteG : BitVec 32 := 0x100

def ptPermPtu : BitVec 32 := pteP ||| pteW ||| pteU

def pageAddr (page : Nat) : BitVec 32 := BitVec.ofNat 32 page <<< 12

/-- The page of an address, and the page an entry points to. -/
def pageOf (x : BitVec 32) : Nat := (x >>> 12).toNat

def addrMask (x : BitVec 32) : BitVec 32 := x &&& 0xfffff000

def pdeAddr (va : BitVec 32) : PtIndex :=
  ⟨(va >>> 22).toNat, by
    rw [BitVec.toNat_ushiftRight, Nat.shiftRight_eq_div_pow]
    have := va.isLt
    omega⟩

def pteAddr (va : BitVec 32) : PtIndex :=
  ⟨((va >>> 12) &&& 0x3ff).toNat, by
    rw [BitVec.toNat_and]
    exact Nat.lt_of_le_of_lt Nat.and_le_right (by decide)⟩

def wordAddr (va : BitVec 32) : PtIndex :=
  ⟨((va >>> 2) &&& 0x3ff).toNat, by
    rw [BitVec.toNat_and]
    exact Nat.lt_of_le_of_lt Nat.and_le_right (by decide)⟩

def vmUserLo : BitVec 32 := 0x40000000

def vmUserHi : BitVec 32 := 0xF0000000

def vmUserLoPde : Nat := 256

def vmUserHiPde : Nat := 960

/-- The directory entries that map the kernel in every process. -/
def kernelPde (i : PtIndex) : Bool := decide (i.val < vmUserLoPde) || decide (vmUserHiPde ≤ i.val)

def magicNumber : Nat := 1048577

/-! ## 3. `MPTIntro`: single entries -/

namespace Vmm

variable (K : KernelLayout)

def getPdirEntry (s : Vmm) (p : Pid) (i : PtIndex) : BitVec 32 := s.phys (K.pdirPage p) i

def setPdirEntry (s : Vmm) (p : Pid) (i : PtIndex) (page : Nat) : Vmm :=
  s.write (K.pdirPage p) i (pageAddr page ||| ptPermPtu)

def identityPde (i : PtIndex) : BitVec 32 := pageAddr (K.idptblPage i) ||| ptPermPtu

def setPdirEntryIdentity (s : Vmm) (p : Pid) (i : PtIndex) : Vmm :=
  s.write (K.pdirPage p) i (identityPde K i)

def rmvPdirEntry (s : Vmm) (p : Pid) (i : PtIndex) : Vmm := s.write (K.pdirPage p) i 0

def ptblPage (s : Vmm) (p : Pid) (i : PtIndex) : Nat := pageOf (addrMask (s.getPdirEntry K p i))

def getPtblEntry (s : Vmm) (p : Pid) (i j : PtIndex) : BitVec 32 := s.phys (s.ptblPage K p i) j

def setPtblEntry (s : Vmm) (p : Pid) (i j : PtIndex) (page : Nat) (perm : BitVec 32) : Vmm :=
  s.write (s.ptblPage K p i) j (pageAddr page ||| perm)

def setPtblEntryIdentity (s : Vmm) (i j : PtIndex) (perm : BitVec 32) : Vmm :=
  s.write (K.idptblPage i) j
    ((BitVec.ofNat 32 i.val <<< 22 ||| BitVec.ofNat 32 j.val <<< 12) ||| perm)

def rmvPtblEntry (s : Vmm) (p : Pid) (i j : PtIndex) : Vmm := s.write (s.ptblPage K p i) j 0

/-! ## 4. `MPTOp`: entries by virtual address -/

def getPdirEntryByVa (s : Vmm) (p : Pid) (va : BitVec 32) : BitVec 32 :=
  s.getPdirEntry K p (pdeAddr va)

def getPtblEntryByVa (s : Vmm) (p : Pid) (va : BitVec 32) : BitVec 32 :=
  if s.getPdirEntry K p (pdeAddr va) ≠ 0 then s.getPtblEntry K p (pdeAddr va) (pteAddr va) else 0

def rmvPtblEntryByVa (s : Vmm) (p : Pid) (va : BitVec 32) : Vmm :=
  if s.getPdirEntry K p (pdeAddr va) ≠ 0 then s.rmvPtblEntry K p (pdeAddr va) (pteAddr va) else s

def setPtblEntryByVa (s : Vmm) (p : Pid) (va : BitVec 32) (page : Nat) (perm : BitVec 32) : Vmm :=
  s.setPtblEntry K p (pdeAddr va) (pteAddr va) page perm

def setPdirEntryByVa (s : Vmm) (p : Pid) (va : BitVec 32) (page : Nat) : Vmm :=
  s.setPdirEntry K p (pdeAddr va) page

/-- `idptbl_init` on memory that holds anything. -/
def idptblInit (mmap : List MemRange) (phys : Phys) : Vmm :=
  (List.finRange 1024).foldl (fun s i =>
    let perm := if kernelPde i then pteP ||| pteW ||| pteG else pteP ||| pteW
    (List.finRange 1024).foldl (fun s j => s.setPtblEntryIdentity K i j perm) s)
    ⟨containerInit mmap, phys⟩

/-! ## 5. `MPTComm`: directories and tables -/

def pdirInit (mmap : List MemRange) (phys : Phys) : Vmm :=
  (List.finRange numIds).foldl (fun s p =>
    (List.finRange 1024).foldl (fun s i =>
      if kernelPde i then s.setPdirEntryIdentity K p i else s.rmvPdirEntry K p i) s)
    (idptblInit K mmap phys)

def allocPtbl (s : Vmm) (p : Pid) (va : BitVec 32) : Option (Vmm × Nat) := do
  let (pmm, pageIndex) ← s.pmm.containerAlloc p
  let s : Vmm := { s with pmm := pmm }
  if pageIndex = 0 then
    return (s, 0)
  else
    let s := s.setPdirEntryByVa K p va pageIndex
    let s := (List.finRange 1024).foldl (fun s j => s.rmvPtblEntry K p (pdeAddr va) j) s
    return (s, pageIndex)

def freePtbl (s : Vmm) (p : Pid) (va : BitVec 32) : Option Vmm := do
  let pageIndex := pageOf (s.getPdirEntryByVa K p va)
  let s := s.rmvPdirEntry K p (pdeAddr va)
  let pmm ← s.pmm.containerFree p pageIndex
  return { s with pmm := pmm }

/-! ## 6. `MPTKern` and `MPTNew`: mappings -/

def pdirInitKern (mmap : List MemRange) (phys : Phys) : Vmm :=
  ((List.finRange 1024).filter fun i => !kernelPde i).foldl
    (fun s i => s.setPdirEntryIdentity K rootPid i) (pdirInit K mmap phys)

def mapPage (s : Vmm) (p : Pid) (va : BitVec 32) (pageIndex : Nat) (perm : BitVec 32) :
    Option (Vmm × Nat) := do
  let pdeEntry := s.getPdirEntryByVa K p va
  if pdeEntry = 0 then
    let (s, pdePageIndex) ← s.allocPtbl K p va
    if pdePageIndex = 0 then
      return (s, magicNumber)
    else
      return (s.setPtblEntryByVa K p va pageIndex perm, pdePageIndex)
  else
    return (s.setPtblEntryByVa K p va pageIndex perm, pageOf pdeEntry)

def unmapPage (s : Vmm) (p : Pid) (va : BitVec 32) : Vmm × BitVec 32 :=
  let pteEntry := s.getPtblEntryByVa K p va
  (if pteEntry ≠ 0 then s.rmvPtblEntryByVa K p va else s, pteEntry)

def allocPage (s : Vmm) (p : Pid) (va perm : BitVec 32) : Option (Vmm × Nat) := do
  let (pmm, pageIndex) ← s.pmm.containerAlloc p
  let s : Vmm := { s with pmm := pmm }
  if pageIndex ≠ 0 then
    s.mapPage K p va pageIndex perm
  else
    return (s, magicNumber)

/-! ## 7. Runs -/

/-- The processor's walk for a user access: the page behind a present entry of a present table.
Whether the access needs more permissions is left open. -/
def translate (s : Vmm) (p : Pid) (va : BitVec 32) : Option Nat :=
  let pde := s.getPdirEntryByVa K p va
  if pde &&& pteP = 0 then none
  else
    let pte := s.phys (pageOf pde) (pteAddr va)
    if pte &&& pteP = 0 then none else some (pageOf pte)

def userStore (s : Vmm) (p : Pid) (va w : BitVec 32) : Option Vmm :=
  (s.translate K p va).map fun page => s.write page (wordAddr va) w

end Vmm

abbrev UserPid := { p : Pid // p ≠ rootPid }

abbrev UserAddr := { va : BitVec 32 // vmUserLo ≤ va ∧ va < vmUserHi }

abbrev Perm := { perm : BitVec 32 // perm < 4096 }

namespace Vmm

variable (K : KernelLayout)

inductive Action
  | allocMemQuota (id : Pid) (quota : BitVec 32)
  | allocPage (p : UserPid) (va : UserAddr) (perm : Perm)
  | unmapPage (p : UserPid) (va : UserAddr)
  | freePtbl (p : UserPid) (va : UserAddr)
  | store (p : UserPid) (va : UserAddr) (w : BitVec 32)

def perform (s : Vmm) : Action → Option Vmm
  | .allocMemQuota id quota => (s.pmm.allocMemQuota id quota).map fun r => { s with pmm := r.1 }
  | .allocPage p va perm => (s.allocPage K p va perm).map (·.1)
  | .unmapPage p va => some (s.unmapPage K p va).1
  | .freePtbl p va => s.freePtbl K p va
  | .store p va w => s.userStore K p va w

def Run (mmap : List MemRange) : List (Vmm × Action) → Vmm → Prop :=
  Transition.Run (fun s => ∃ phys, s = pdirInitKern K mmap phys) fun s a s' =>
    s.perform K a = some s'

end Vmm

end MCertiKOS
