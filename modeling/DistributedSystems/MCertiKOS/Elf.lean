import DistributedSystems.MCertiKOS.Copy

/-!
# Loading programs (`kern/lib/elf.c`, `pt_memset` in `kern/lib/pmap.c`)

The images of the user programs are linked into the kernel, so `elf_load` reads headers and contents
from the kernel's memory.  A failed assertion and a lock that nobody releases give no result.
-/

namespace MCertiKOS

/-! ## 1. Headers -/

def load16 (mem : KMem) (a : BitVec 32) : BitVec 16 := mem (a + 1) ++ mem a

def load32 (mem : KMem) (a : BitVec 32) : BitVec 32 := load16 mem (a + 2) ++ load16 mem a

/-- `elfhdr`, without the fields that are not read. -/
structure Elfhdr where
  magic : BitVec 32
  phoff : BitVec 32
  shoff : BitVec 32
  phnum : BitVec 16
  shstrndx : BitVec 16

def Elfhdr.load (mem : KMem) (eh : BitVec 32) : Elfhdr where
  magic := load32 mem eh
  phoff := load32 mem (eh + 28)
  shoff := load32 mem (eh + 32)
  phnum := load16 mem (eh + 44)
  shstrndx := load16 mem (eh + 50)

/-- `proghdr`, without the fields that are not read. -/
structure Proghdr where
  type : BitVec 32
  offset : BitVec 32
  va : BitVec 32
  filesz : BitVec 32
  memsz : BitVec 32
  flags : BitVec 32
  deriving DecidableEq

def Proghdr.load (mem : KMem) (ph : BitVec 32) : Proghdr where
  type := load32 mem ph
  offset := load32 mem (ph + 4)
  va := load32 mem (ph + 8)
  filesz := load32 mem (ph + 16)
  memsz := load32 mem (ph + 20)
  flags := load32 mem (ph + 24)

def proghdrSize : Nat := 32

def sechdrSize : Nat := 40

/-- `sh[n].sh_type`, for the section headers at `sh`. -/
def sectionType (mem : KMem) (sh : BitVec 32) (n : BitVec 16) : BitVec 32 :=
  load32 mem (sh + BitVec.ofNat 32 (sechdrSize * n.toNat) + 4)

def elfMagic : BitVec 32 := 0x464C457F

def elfShnUndef : BitVec 16 := 0

def elfShtStrtab : BitVec 32 := 3

def elfProgLoad : BitVec 32 := 1

def elfProgFlagWrite : BitVec 32 := 2

/-- What `elf_load` asserts of the image at `exe`. -/
def elfAccepted (mem : KMem) (exe : BitVec 32) : Bool :=
  let eh := Elfhdr.load mem exe
  decide (eh.magic = elfMagic) && decide (eh.shstrndx ≠ elfShnUndef) &&
    decide (sectionType mem (exe + eh.shoff) eh.shstrndx = elfShtStrtab)

/-! ## 2. `pt_memset` -/

def pageBytes : BitVec 32 := 4096

def rounddown (a n : BitVec 32) : BitVec 32 := a - a % n

def roundup (a n : BitVec 32) : BitVec 32 := rounddown (a + n - 1) n

def memset (c : BitVec 8) : Nat → BitVec 32 → Vmm → Vmm
  | 0, _, s => s
  | size + 1, pa, s => memset c size (pa + 1) (s.writeByte pa c)

section Loading

variable (K : KernelLayout)

def memsetLoop (p : Pid) (va : BitVec 32) (c : BitVec 8) (len set : Nat) (s : Vmm) :
    Option (Vmm × Nat) :=
  if _h : len = 0 then
    some (s, set)
  else
    match userEntry K p va s with
    | none => none
    | some (s', _, pte) =>
      let pa := userPa pte va
      let size := chunkSize pa len
      memsetLoop p (va + BitVec.ofNat 32 size) c (len - size) (set + size) (memset c size pa s')
  termination_by len
  decreasing_by
    have hpos := chunkSize_pos (userPa pte va) _h
    omega

def ptMemset (p : Pid) (va : BitVec 32) (c : BitVec 8) (len : BitVec 32) (s : Vmm) :
    Option (Vmm × Nat) :=
  memsetLoop K p va c len.toNat 0 s

/-! ## 3. `elf_load` -/

def CopyRun.returned (run : CopyRun) : Option (Vmm × KMem) := run.copied.map fun _ => run.mem

def segmentPerm (ph : Proghdr) : BitVec 32 :=
  if ph.flags &&& elfProgFlagWrite ≠ 0 then pteU ||| pteP ||| pteW else pteU ||| pteP

/-- The second half of the inner loop's body: what is put into the page at `va`.  The results of
`pt_copyout` and `pt_memset` are not looked at. -/
def fillPage (p : Pid) (ph : Proghdr) (va fa : BitVec 32) (m : Vmm × KMem) :
    Option (Vmm × KMem) := do
  let zva := ph.va + ph.filesz
  if va < rounddown zva pageBytes then
    (ptCopyout K fa p va pageBytes m).returned
  else if va < zva ∧ ph.filesz ≠ 0 then
    let (s, _) ← ptMemset K p va 0 pageBytes m.1
    (ptCopyout K fa p va (zva - va) (s, m.2)).returned
  else
    let (s, _) ← ptMemset K p va 0 pageBytes m.1
    return (s, m.2)

/-- The body of the inner loop.  The result of `alloc_page` is not looked at. -/
def loadPage (p : Pid) (ph : Proghdr) (va fa : BitVec 32) (m : Vmm × KMem) :
    Option (Vmm × KMem) := do
  let (s, _) ← m.1.allocPage K p va (segmentPerm ph)
  fillPage K p ph va fa (s, m.2)

/-- The inner loop.  It runs at most once for every page address. -/
def loadPages (p : Pid) (ph : Proghdr) (eva : BitVec 32) :
    Nat → BitVec 32 → BitVec 32 → Vmm × KMem → Option (Vmm × KMem)
  | 0, _, _, _ => none
  | fuel + 1, va, fa, m =>
    if va < eva then do
      let m ← loadPage K p ph va fa m
      loadPages p ph eva fuel (va + pageBytes) (fa + pageBytes) m
    else some m

def loadSegment (exe : BitVec 32) (p : Pid) (ph : Proghdr) (m : Vmm × KMem) :
    Option (Vmm × KMem) :=
  if ph.type ≠ elfProgLoad then some m
  else
    loadPages K p ph (roundup (ph.va + ph.memsz) pageBytes) (2 ^ 20)
      (rounddown ph.va pageBytes) (exe + rounddown ph.offset pageBytes) m

def loadSegments (exe : BitVec 32) (p : Pid) (eph : BitVec 32) :
    Nat → BitVec 32 → Vmm × KMem → Option (Vmm × KMem)
  | 0, _, m => some m
  | fuel + 1, ph, m =>
    if ph < eph then do
      let m ← loadSegment K exe p (Proghdr.load m.2 ph) m
      loadSegments exe p eph fuel (ph + BitVec.ofNat 32 proghdrSize) m
    else some m

/-- The headers are `e_phnum` many, so the outer loop runs at most as often. -/
def elfLoad (exe : BitVec 32) (p : Pid) (m : Vmm × KMem) : Option (Vmm × KMem) :=
  let eh := Elfhdr.load m.2 exe
  if elfAccepted m.2 exe then
    loadSegments K exe p (exe + eh.phoff + BitVec.ofNat 32 (proghdrSize * eh.phnum.toNat))
      eh.phnum.toNat (exe + eh.phoff) m
  else none

end Loading

end MCertiKOS
