import DistributedSystems.MCertiKOS.Paging

/-!
# Copies between the kernel and a process (`kern/lib/pmap.c`) and their callers

`pt_copyin` and `pt_copyout` walk over the pages of a range of user addresses, allocate the pages that
are absent, and copy through the kernel's identity map.  Buffers of the kernel are a memory of their
own here: they lie in pages that are neither tables nor pages of a process.  A copy is returned with
what it did on the way (the accesses on the user side, and what `alloc_page` returned, which the code
ignores), also when it ends in spinning on a lock.
-/

namespace MCertiKOS

/-! ## 1. Bytes of the physical memory -/

/-- The bytes of a word, the least significant one first. -/
def getByte (w : BitVec 32) (k : Nat) : BitVec 8 := (w >>> (8 * k)).setWidth 8

def setByte (w : BitVec 32) (k : Nat) (b : BitVec 8) : BitVec 32 :=
  (w &&& ~~~(0xff#32 <<< (8 * k))) ||| (b.setWidth 32 <<< (8 * k))

namespace Vmm

def readByte (s : Vmm) (pa : BitVec 32) : BitVec 8 :=
  getByte (s.phys (pageOf pa) (wordAddr pa)) (pa.toNat % 4)

def writeByte (s : Vmm) (pa : BitVec 32) (b : BitVec 8) : Vmm :=
  s.write (pageOf pa) (wordAddr pa) (setByte (s.phys (pageOf pa) (wordAddr pa)) (pa.toNat % 4) b)

end Vmm

/-! ## 2. The copy loop -/

abbrev KMem := BitVec 32 → BitVec 8

inductive Direction
  | copyin | copyout
  deriving DecidableEq

def moveByte (d : Direction) (pa kva : BitVec 32) (m : Vmm × KMem) : Vmm × KMem :=
  match d with
  | .copyin => (m.1, Function.update m.2 kva (m.1.readByte pa))
  | .copyout => (m.1.writeByte pa (m.2 kva), m.2)

def memcpy (d : Direction) : Nat → BitVec 32 → BitVec 32 → Vmm × KMem → Vmm × KMem
  | 0, _, _, m => m
  | size + 1, pa, kva, m => memcpy d size (pa + 1) (kva + 1) (moveByte d pa kva m)

/-- One `memcpy` of a copy: the user address, the physical address and the number of bytes. -/
structure Access where
  va : BitVec 32
  pa : BitVec 32
  size : Nat

/-- A copy that ran: the memory it left, its accesses on the user side, what its calls of `alloc_page`
returned, and the number of bytes it says it copied (nothing if it spins). -/
structure CopyRun where
  mem : Vmm × KMem
  accesses : List Access
  allocs : List Nat
  copied : Option Nat

/-- `(pte & 0xfffff000) + (va % PAGESIZE)`. -/
def userPa (pte va : BitVec 32) : BitVec 32 := addrMask pte + BitVec.ofNat 32 (va.toNat % pageSize)

def chunkSize (pa : BitVec 32) (len : Nat) : Nat :=
  if len < pageSize - pa.toNat % pageSize then len else pageSize - pa.toNat % pageSize

theorem chunkSize_le (pa : BitVec 32) (len : Nat) : chunkSize pa len ≤ len := by
  unfold chunkSize
  split <;> omega

theorem chunkSize_page (pa : BitVec 32) (len : Nat) :
    chunkSize pa len ≤ pageSize - pa.toNat % pageSize := by
  unfold chunkSize
  split <;> omega

theorem chunkSize_pos (pa : BitVec 32) {len : Nat} (h : len ≠ 0) : 0 < chunkSize pa len := by
  have hmod : pa.toNat % pageSize < pageSize := Nat.mod_lt _ (by decide)
  unfold chunkSize
  split <;> omega

section Copies

variable (K : KernelLayout)

/-- The entry of the page of `va`, allocated if it is not present.  The result of `alloc_page` is
not looked at. -/
def userEntry (p : Pid) (va : BitVec 32) (s : Vmm) : Option (Vmm × List Nat × BitVec 32) :=
  let pte := s.getPtblEntryByVa K p va
  if pte &&& pteP = 0 then
    (s.allocPage K p va (pteP ||| pteU ||| pteW)).map fun r =>
      (r.1, [r.2], r.1.getPtblEntryByVa K p va)
  else
    some (s, [], pte)

def copyLoop (d : Direction) (p : Pid) (uva kva : BitVec 32) (len copied : Nat) (m : Vmm × KMem) :
    CopyRun :=
  if _h : len = 0 then
    ⟨m, [], [], some copied⟩
  else
    match userEntry K p uva m.1 with
    | none => ⟨m, [], [], none⟩
    | some (s, allocs, pte) =>
      let pa := userPa pte uva
      let size := chunkSize pa len
      let m' := memcpy d size pa kva (s, m.2)
      let rest := copyLoop d p (uva + BitVec.ofNat 32 size) (kva + BitVec.ofNat 32 size) (len - size)
        (copied + size) m'
      { rest with
        accesses := ⟨uva, pa, size⟩ :: rest.accesses
        allocs := allocs ++ rest.allocs }
  termination_by len
  decreasing_by
    have hpos := chunkSize_pos (userPa pte uva) _h
    omega

/-- What both copies check.  The sums are sums of 32-bit words. -/
def passesGuards (uva kva len : BitVec 32) : Bool :=
  decide (vmUserLo ≤ uva) && decide (uva + len ≤ vmUserHi) && !decide (vmUserHi < kva + len)

def ptCopy (d : Direction) (p : Pid) (uva kva len : BitVec 32) (m : Vmm × KMem) : CopyRun :=
  if passesGuards uva kva len then copyLoop K d p uva kva len.toNat 0 m else ⟨m, [], [], some 0⟩

def ptCopyin (p : Pid) (uva kva len : BitVec 32) (m : Vmm × KMem) : CopyRun :=
  ptCopy K .copyin p uva kva len m

def ptCopyout (kva : BitVec 32) (p : Pid) (uva len : BitVec 32) (m : Vmm × KMem) : CopyRun :=
  ptCopy K .copyout p uva kva len m

/-! ## 3. System calls that copy -/

/-- A buffer of `n` bytes in the kernel's image or on its stack, below `VM_USERLO`. -/
abbrev KernelBuf (n : Nat) := { kva : BitVec 32 // kva.toNat + n ≤ vmUserLo.toNat }

inductive PutsErrno
  | succ | invalAddr | mem
  deriving DecidableEq

/-- A `sys_puts` that ran: the memory, the accesses on the user side, the strings it printed and its
error number (nothing if it spins). -/
structure PutsRun where
  mem : Vmm × KMem
  accesses : List Access
  printed : List (List (BitVec 8))
  errno : Option PutsErrno

/-- The string at an address: the bytes of its first `n` before the first zero. -/
def cString (mem : KMem) (kva : BitVec 32) (n : Nat) : List (BitVec 8) :=
  ((List.range n).map fun i => mem (kva + BitVec.ofNat 32 i)).takeWhile (· ≠ 0)

/-- `PAGESIZE - 1`, the longest string that is printed at once. -/
def putsChunk (remain : Nat) : Nat := if remain < pageSize - 1 then remain else pageSize - 1

theorem putsChunk_pos {remain : Nat} (h : remain ≠ 0) : 0 < putsChunk remain := by
  have hdef : pageSize = 4096 := rfl
  unfold putsChunk
  split <;> omega

def putsLoop (p : Pid) (buf curPos : BitVec 32) (remain : Nat) (m : Vmm × KMem) : PutsRun :=
  if _h : remain = 0 then
    ⟨m, [], [], some .succ⟩
  else
    let nbytes := putsChunk remain
    let run := ptCopyin K p curPos buf (BitVec.ofNat 32 nbytes) m
    match run.copied with
    | none => ⟨run.mem, run.accesses, [], none⟩
    | some n =>
      if n ≠ nbytes then
        ⟨run.mem, run.accesses, [], some .mem⟩
      else
        -- the terminating zero stands behind the bytes copied
        let mem := Function.update run.mem.2 (buf + BitVec.ofNat 32 nbytes) 0
        let rest := putsLoop p buf (curPos + BitVec.ofNat 32 nbytes) (remain - nbytes)
          (run.mem.1, mem)
        { rest with
          accesses := run.accesses ++ rest.accesses
          printed := cString mem buf nbytes :: rest.printed }
  termination_by remain
  decreasing_by
    have hpos := putsChunk_pos _h
    omega

def sysPuts (p : Pid) (buf : KernelBuf pageSize) (strUva strLen : BitVec 32) (m : Vmm × KMem) :
    PutsRun :=
  if vmUserLo ≤ strUva ∧ strUva + strLen ≤ vmUserHi then
    putsLoop K p buf strUva strLen.toNat m
  else
    ⟨m, [], [], some .invalAddr⟩

/-- A path argument: the user address, and the array of 128 bytes on the kernel's stack. -/
structure PathArg where
  uva : BitVec 32
  path : KernelBuf 128

/-- The copies of path arguments, one after another.  Their results are not looked at. -/
def copyPaths (p : Pid) : List PathArg → Vmm × KMem → CopyRun
  | [], m => ⟨m, [], [], some 0⟩
  | a :: args, m =>
    let run := ptCopyin K p a.uva a.path 128 m
    match run.copied with
    | none => run
    | some _ =>
      let rest := copyPaths p args run.mem
      { rest with
        accesses := run.accesses ++ rest.accesses
        allocs := run.allocs ++ rest.allocs }

/-- How `sys_open`, `sys_unlink`, `sys_mkdir` and `sys_chdir` begin. -/
def copyPath (p : Pid) (path : PathArg) (m : Vmm × KMem) : CopyRun := copyPaths K p [path] m

/-- How `sys_link` begins. -/
def copyLinkPaths (p : Pid) (old new : PathArg) (m : Vmm × KMem) : CopyRun :=
  copyPaths K p [old, new] m

end Copies

end MCertiKOS
