import DistributedSystems.MCertiKOS.Fs.Volume

/-!
# Inodes (`kern/fs/inode.c`)

The inode cache has entries for inodes of any device; the inodes on the disk are those of the root
device, and only their entries are locked.  An inode on the disk has 16 words: two with the four
16-bit fields, one with the size and thirteen with block numbers.
-/

namespace MCertiKOS.Fs

/-! ## 1. Inodes on the disk -/

def ndirect : Nat := 12

def nindirect : Nat := 128

def maxfile : Nat := ndirect + nindirect

namespace Dinode

def toWord (d : Dinode) (k : Nat) : BitVec 32 :=
  match k with
  | 0 => d.major ++ d.type
  | 1 => d.nlink ++ d.minor
  | 2 => d.size
  | k + 3 => if h : k < 13 then d.addrs ⟨k, h⟩ else 0

def load (b : Block) (n : Nat) : Dinode where
  type := (b.word (16 * n)).extractLsb' 0 16
  major := (b.word (16 * n)).extractLsb' 16 16
  minor := (b.word (16 * n + 1)).extractLsb' 0 16
  nlink := (b.word (16 * n + 1)).extractLsb' 16 16
  size := b.word (16 * n + 2)
  addrs := fun k => b.word (16 * n + 3 + k.val)

def store (d : Dinode) (n : Nat) (b : Block) : Block :=
  (List.range 16).foldl (fun b k => b.setWord (16 * n + k) (d.toWord k)) b

/-- `memset(dip, 0, sizeof(*dip)); dip->type = type;` -/
def fresh (type : BitVec 16) : Dinode := ⟨type, 0, 0, 0, 0, fun _ => 0⟩

end Dinode

instance neZero13 : @NeZero Nat Zero.ofOfNat0 13 := ⟨nofun⟩

def indirect : Fin 13 := 12

namespace Vol

def iblock (i : Nat) : Nat := i / ipb + 2

def setInode (i : Fin ninode) (f : Inode → Inode) : FsV Unit :=
  modify fun v => { v with inode := Function.update v.inode i (f (v.inode i)) }

def setDinode (i : Fin ninode) (f : Dinode → Dinode) : FsV Unit :=
  setInode i fun ip => { ip with d := f ip.d }

/-! ## 2. The inode cache -/

def inodeGet (dev : BitVec 32) (inum : Nat) : FsV (Fin ninode) := do
  let v ← get
  match (List.finRange ninode).find? fun i =>
      0 < (v.inode i).ref ∧ (v.inode i).key = (dev, inum) with
  | some i =>
    setInode i fun ip => { ip with ref := ip.ref + 1 }
    return i
  | none =>
    match (List.finRange ninode).find? fun i => (v.inode i).ref = 0 with
    | some i =>
      setInode i fun ip => { ip with dev, inum, ref := 1, busy := false, valid := false }
      return i
    | none => throw .noEntry

def inodeDup (i : Fin ninode) : FsV Unit := setInode i fun ip => { ip with ref := ip.ref + 1 }

/-- The part of `inode_lock` that reads the inode. -/
def inodeFill (i : Fin ninode) : FsV Unit := do
  let v ← get
  bufcacheRead (iblock (v.inode i).inum)
  setInode i fun ip =>
    { ip with
      d := Dinode.load (v.sector (iblock (v.inode i).inum)) ((v.inode i).inum % ipb) }
  bufcacheRelease (iblock (v.inode i).inum)
  setInode i fun ip => { ip with valid := true }
  let v ← get
  if (v.inode i).d.type = 0 then throw .noType else pure ()

def inodeLock (i : Fin ninode) : FsV Unit := do
  let v ← get
  if (v.inode i).ref < 1 then throw .lockUnreferenced
  else if (v.inode i).busy then throw .sleeps
  else
    setInode i fun ip => { ip with busy := true }
    if (v.inode i).valid then pure () else inodeFill i

def inodeUnlock (i : Fin ninode) : FsV Unit := do
  let v ← get
  if (v.inode i).busy = false ∨ (v.inode i).ref < 1 then throw .notLocked
  else setInode i fun ip => { ip with busy := false }

def inodeUpdate (i : Fin ninode) : FsV Unit := do
  let v ← get
  bufcacheRead (iblock (v.inode i).inum)
  modifyData (iblock (v.inode i).inum) ((v.inode i).d.store ((v.inode i).inum % ipb))
  logWrite (iblock (v.inode i).inum)
  bufcacheRelease (iblock (v.inode i).inum)

/-- The loop of `inode_alloc`, from `inum` for `n` inodes. -/
def inodeAllocFrom (type : BitVec 16) : Nat → Nat → FsV (Fin ninode)
  | 0, _ => throw .noInodes
  | n + 1, inum => do
    bufcacheRead (iblock inum)
    let v ← get
    if (Dinode.load (v.sector (iblock inum)) (inum % ipb)).type = 0 then
      modifyData (iblock inum) ((Dinode.fresh type).store (inum % ipb))
      logWrite (iblock inum)
      bufcacheRelease (iblock inum)
      inodeGet rootDev inum
    else
      bufcacheRelease (iblock inum)
      inodeAllocFrom type n (inum + 1)

def inodeAlloc (type : BitVec 16) : FsV (Fin ninode) := do
  let sb ← readSuperblock
  inodeAllocFrom type (sb.ninodes - 1) 1

/-! ## 3. Contents -/

def bmapDirect (i : Fin ninode) (k : Fin 13) : FsV Nat := do
  let v ← get
  if (v.inode i).d.addrs k = 0 then
    let addr ← blockAlloc
    setDinode i fun d => { d with addrs := Function.update d.addrs k (BitVec.ofNat 32 addr) }
    return addr
  else return ((v.inode i).d.addrs k).toNat

/-- The entry `j` of the indirect block, which is allocated if need be. -/
def bmapEntry (table j : Nat) : FsV Nat := do
  bufcacheRead table
  let v ← get
  if (v.sector table).word j = 0 then
    let addr ← blockAlloc
    modifyData table fun b => b.setWord j (BitVec.ofNat 32 addr)
    logWrite table
    bufcacheRelease table
    return addr
  else
    bufcacheRelease table
    return ((v.sector table).word j).toNat

def bmap (i : Fin ninode) (bn : Nat) : FsV Nat := do
  if h : bn < ndirect then bmapDirect i ⟨bn, Nat.lt_trans h (by decide)⟩
  else if bn - ndirect < nindirect then
    let table ← bmapDirect i indirect
    bmapEntry table (bn - ndirect)
  else throw .outOfRange

def freeDirect (i : Fin ninode) (k : Fin 13) : FsV Unit := do
  let v ← get
  if (v.inode i).d.addrs k = 0 then pure ()
  else
    blockFree ((v.inode i).d.addrs k).toNat
    setDinode i fun d => { d with addrs := Function.update d.addrs k 0 }

def freeEntry (table : Block) (j : Nat) : FsV Unit :=
  if table.word j = 0 then pure () else blockFree (table.word j).toNat

def freeIndirect (i : Fin ninode) : FsV Unit := do
  let v ← get
  if (v.inode i).d.addrs indirect = 0 then pure ()
  else
    bufcacheRead ((v.inode i).d.addrs indirect).toNat
    (List.range nindirect).forM (freeEntry (v.sector ((v.inode i).d.addrs indirect).toNat))
    bufcacheRelease ((v.inode i).d.addrs indirect).toNat
    freeDirect i indirect

def inodeTrunc (i : Fin ninode) : FsV Unit := do
  (List.finRange ndirect).forM fun k => freeDirect i k.castSucc
  freeIndirect i
  setDinode i fun d => { d with size := 0 }
  inodeUpdate i

/-- The part of `inode_put` for the last reference to an inode without links. -/
def inodeFree (i : Fin ninode) : FsV Unit := do
  let v ← get
  if (v.inode i).busy then throw .putBusy
  else
    setInode i fun ip => { ip with busy := true }
    inodeTrunc i
    setDinode i fun d => { d with type := 0 }
    inodeUpdate i
    setInode i fun ip => { ip with busy := false, valid := false }

def inodePut (i : Fin ninode) : FsV Unit := do
  let v ← get
  if (v.inode i).ref = 1 ∧ (v.inode i).valid = true ∧ (v.inode i).d.nlink = 0 then
    inodeFree i
    setInode i fun ip => { ip with ref := ip.ref - 1 }
  else setInode i fun ip => { ip with ref := ip.ref - 1 }

def tDev : BitVec 16 := 3

def ndev : Nat := 10

/-- `devsw`: the functions of the devices, which are elsewhere. -/
structure Devsw where
  read : Nat → Option (Inode → BitVec 32 → FsV (Int × List UInt8))
  write : Nat → Option (Inode → List UInt8 → FsV Int)

def Devsw.lookup {α : Type} (table : Nat → Option α) (major : BitVec 16) : Option α :=
  if major.toInt < 0 ∨ ndev ≤ major.toInt then none else table major.toNat

/-- The loop of `inode_read` with `left` bytes to go; it reads at least one in each round. -/
def readLoop (i : Fin ninode) : Nat → Nat → Nat → FsV (List UInt8)
  | 0, _, _ => pure []
  | fuel + 1, off, left =>
    if left = 0 then pure []
    else do
      let addr ← bmap i (off / bsize)
      bufcacheRead addr
      let v ← get
      bufcacheRelease addr
      let rest ← readLoop i fuel (off + min left (bsize - off % bsize))
        (left - min left (bsize - off % bsize))
      return (v.sector addr).slice (off % bsize) (min left (bsize - off % bsize)) ++ rest

def inodeRead (devsw : Devsw) (i : Fin ninode) (off n : BitVec 32) :
    FsV (Int × List UInt8) := do
  let v ← get
  if (v.inode i).d.type = tDev then
    match Devsw.lookup devsw.read (v.inode i).d.major with
    | none => return (-1, [])
    | some read => read (v.inode i) n
  else if off > (v.inode i).d.size ∨ off + n < off then return (-1, [])
  else
    let n := if off + n > (v.inode i).d.size then (v.inode i).d.size - off else n
    let bytes ← readLoop i n.toNat off.toNat n.toNat
    return (n.toInt, bytes)

def writeLoop (i : Fin ninode) : Nat → Nat → List UInt8 → FsV Nat
  | 0, off, _ => pure off
  | fuel + 1, off, src =>
    if src.length = 0 then pure off
    else do
      let addr ← bmap i (off / bsize)
      bufcacheRead addr
      modifyData addr (Block.splice (off % bsize) (src.take (min src.length (bsize - off % bsize))))
      logWrite addr
      bufcacheRelease addr
      writeLoop i fuel (off + min src.length (bsize - off % bsize))
        (src.drop (min src.length (bsize - off % bsize)))

/-- `if (n > 0 && off > ip->size) { ip->size = off; inode_update(ip); }` -/
def grow (i : Fin ninode) (n off : Nat) : FsV Unit := do
  let v ← get
  if 0 < n ∧ (v.inode i).d.size.toNat < off then
    setDinode i fun d => { d with size := BitVec.ofNat 32 off }
    inodeUpdate i
  else pure ()

def inodeWrite (devsw : Devsw) (i : Fin ninode) (src : List UInt8) (off n : BitVec 32) :
    FsV Int := do
  let v ← get
  if (v.inode i).d.type = tDev then
    match Devsw.lookup devsw.write (v.inode i).d.major with
    | none => return -1
    | some write => write (v.inode i) src
  else if off > (v.inode i).d.size ∨ off + n < off then return -1
  else if (off + n).toNat > maxfile * bsize then return -1
  else
    let last ← writeLoop i n.toNat off.toNat src
    grow i n.toNat last
    return n.toInt

end Vol

end MCertiKOS.Fs
