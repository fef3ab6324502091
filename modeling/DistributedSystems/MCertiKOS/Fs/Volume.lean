import DistributedSystems.Library.Fallible
import DistributedSystems.MCertiKOS.Fs.Disk

/-!
# Blocks of a volume (`kern/fs/block.c`)

The root device as its users see it: sector contents behind the buffer cache, which returns what was
released last, and a log, which changes no contents when it commits.  Of the buffers only the
held and the logged ones matter, which cannot be recycled.  One thread runs.  A program ends with a
`Panic` where the kernel panics or the thread would sleep for ever.

Sector and block numbers are natural numbers: a sum of them never leaves 32 bits, since a bitmap or
inode block number is a quotient plus a small constant.
-/

namespace MCertiKOS.Fs

/-! ## 1. Bits and bytes of a block -/

def bsize : Nat := 512

/-- `BPB`, the bitmap bits per block. -/
def bpb : Nat := bsize * 8

namespace Block

def zeros : Block := fun _ => 0

/-- `1 << (bi % 8)`. -/
def mask (bi : Nat) : BitVec 8 := 1#8 <<< (bi % 8)

/-- `data[bi / 8] & m`. -/
def bit (b : Block) (bi : Nat) : Bool := (b.byte (bi / 8)).toBitVec &&& mask bi != 0#8

/-- `data[bi / 8] |= m`. -/
def setBit (bi : Nat) (b : Block) : Block := fun i =>
  if i.val = bi / 8 then UInt8.ofBitVec ((b i).toBitVec ||| mask bi) else b i

/-- `data[bi / 8] &= ~m`. -/
def clearBit (bi : Nat) (b : Block) : Block := fun i =>
  if i.val = bi / 8 then UInt8.ofBitVec ((b i).toBitVec &&& ~~~ mask bi) else b i

/-- `memmove(dst, data + o, m)`. -/
def slice (b : Block) (o m : Nat) : List UInt8 := (List.range m).map fun k => b.byte (o + k)

/-- `memmove(data + o, src, m)`. -/
def splice (o : Nat) (src : List UInt8) (b : Block) : Block := fun i =>
  if o ≤ i.val ∧ i.val < o + src.length then src.getD (i.val - o) 0 else b i

end Block

/-! ## 2. The volume -/

inductive Panic where
  | sleeps
  /-- `bufcache_get: no buffers` -/
  | noBuffers
  /-- `brelse` -/
  | notHeld
  /-- `too big a transaction` -/
  | tooBig
  /-- `write outside of trans` -/
  | outsideTrans
  /-- `balloc: out of blocks` -/
  | outOfBlocks
  /-- `freeing free block` -/
  | freeingFree
  /-- `inode_alloc: no inodes` -/
  | noInodes
  /-- `inode_get: no inodes` -/
  | noEntry
  /-- `inode_lock` -/
  | lockUnreferenced
  /-- `inode_lock: no type` -/
  | noType
  /-- `inode_unlock` -/
  | notLocked
  /-- `inode_put busy` -/
  | putBusy
  /-- `bmap: out of range` -/
  | outOfRange
  /-- `short file_write` -/
  | shortWrite
  /-- `file_write` -/
  | fileWrite
  /-- The caller breaks the rules for the use of inodes. -/
  | misuse
  deriving DecidableEq

/-- `struct dinode`; the same fields are copied to `struct inode`. -/
@[ext]
structure Dinode where
  type : BitVec 16
  major : BitVec 16
  minor : BitVec 16
  nlink : BitVec 16
  size : BitVec 32
  addrs : Fin 13 → BitVec 32

/-- `struct inode`, with the flags `I_BUSY` and `I_VALID`. -/
structure Inode where
  dev : BitVec 32
  inum : Nat
  ref : Int
  busy : Bool
  valid : Bool
  d : Dinode

def Inode.key (ip : Inode) : BitVec 32 × Nat := (ip.dev, ip.inum)

def ninode : Nat := 50

structure Volume where
  sector : Nat → Block
  held : List Nat
  /-- `log.lh.sector[0..n)`, whose buffers are dirty. -/
  logged : List Nat
  start : Nat
  nlog : Int
  busy : Bool
  inode : Fin ninode → Inode

/-- The buffers that cannot be recycled. -/
def Volume.pinned (v : Volume) : Nat := v.held.length + (v.logged.filter (· ∉ v.held)).length

namespace Vol

abbrev FsV := EStateM Panic Volume

/-! ## 3. Cache and log -/

def bufcacheRead (s : Nat) : FsV Unit := do
  let v ← get
  if s ∈ v.held then throw .sleeps
  else if s ∉ v.logged ∧ nbuf ≤ v.pinned then throw .noBuffers
  else set { v with held := s :: v.held }

def bufcacheRelease (s : Nat) : FsV Unit := do
  let v ← get
  if s ∈ v.held then set { v with held := v.held.erase s } else throw .notHeld

def modifyData (s : Nat) (f : Block → Block) : FsV Unit :=
  modify fun v => { v with sector := Function.update v.sector s (f (v.sector s)) }

/-- `if (i == log.lh.n) log.lh.n++`, after `log.lh.sector[i] = b->sector`. -/
def addLogged (s : Nat) : FsV Unit :=
  modify fun v => { v with logged := if s ∈ v.logged then v.logged else v.logged ++ [s] }

def logWrite (s : Nat) : FsV Unit := do
  let v ← get
  if logSize ≤ v.logged.length ∨ v.nlog - 1 ≤ v.logged.length then throw .tooBig
  else if !v.busy then throw .outsideTrans
  else
    bufcacheRead (v.start + v.logged.idxOf s + 1)
    modifyData (v.start + v.logged.idxOf s + 1) fun _ => v.sector s
    bufcacheRelease (v.start + v.logged.idxOf s + 1)
    addLogged s

def beginTrans : FsV Unit := do
  let v ← get
  if v.busy then throw .sleeps else set { v with busy := true }

/-- The buffers that `commit_trans` needs: the header and the logged sectors. -/
def install : FsV Unit := do
  let v ← get
  if v.logged = [] then pure ()
  else
    bufcacheRead v.start
    bufcacheRelease v.start
    v.logged.forM fun s => do
      bufcacheRead s
      bufcacheRelease s

def commitTrans : FsV Unit := do
  install
  modify fun v => { v with logged := [], busy := false }

/-! ## 4. Blocks -/

structure Super where
  size : Nat
  nblocks : Nat
  ninodes : Nat
  nlog : Nat
  deriving DecidableEq

def Super.load (b : Block) : Super :=
  ⟨(b.word 0).toNat, (b.word 1).toNat, (b.word 2).toNat, (b.word 3).toNat⟩

def readSuperblock : FsV Super := do
  bufcacheRead 1
  let v ← get
  bufcacheRelease 1
  return Super.load (v.sector 1)

/-- `IPB`, the inodes per block. -/
def ipb : Nat := 8

def bblock (b ninodes : Nat) : Nat := b / bpb + ninodes / ipb + 3

def blockZero (bno : Nat) : FsV Unit := do
  bufcacheRead bno
  modifyData bno fun _ => Block.zeros
  logWrite bno
  bufcacheRelease bno

def freeBit (data : Block) (limit : Nat) : Option Nat :=
  (List.range (min bpb limit)).find? fun bi => !data.bit bi

def allocFrom (sb : Super) : Nat → Nat → FsV Nat
  | 0, _ => throw .outOfBlocks
  | n + 1, b => do
    bufcacheRead (bblock b sb.ninodes)
    let v ← get
    match freeBit (v.sector (bblock b sb.ninodes)) (sb.size - b) with
    | some bi =>
      modifyData (bblock b sb.ninodes) (Block.setBit bi)
      logWrite (bblock b sb.ninodes)
      bufcacheRelease (bblock b sb.ninodes)
      blockZero (b + bi)
      return b + bi
    | none =>
      bufcacheRelease (bblock b sb.ninodes)
      allocFrom sb n (b + bpb)

def blockAlloc : FsV Nat := do
  let sb ← readSuperblock
  allocFrom sb ((sb.size + bpb - 1) / bpb) 0

def blockFree (b : Nat) : FsV Unit := do
  let sb ← readSuperblock
  bufcacheRead (bblock b sb.ninodes)
  let v ← get
  if (v.sector (bblock b sb.ninodes)).bit (b % bpb) then
    modifyData (bblock b sb.ninodes) (Block.clearBit (b % bpb))
    logWrite (bblock b sb.ninodes)
    bufcacheRelease (bblock b sb.ninodes)
  else throw .freeingFree

end Vol

end MCertiKOS.Fs
