import DistributedSystems.MCertiKOS.Fs.Disk

/-!
# The log (`kern/fs/log.c`)

The on-disk header is a word with the number of logged sectors, followed by their numbers.  The
super block is sector 1; its first word is the size of the file system and its fourth the number of
log sectors at its end.
-/

namespace MCertiKOS.Fs

open Crash

/-! ## 1. Layout on the disk -/

structure Superblock where
  size : BitVec 32
  nlog : BitVec 32

def readSuperblock (dev : BitVec 32) : FsM Superblock := do
  let bp ← bufcacheRead dev 1
  let b ← getBuf bp
  bufcacheRelease bp
  return ⟨b.data.word 0, b.data.word 3⟩

/-- The stores of `write_head`: the count and as many sectors. -/
def LogHeader.store (lh : LogHeader) (b : Block) : Block :=
  (List.range lh.n.toNat).foldl (fun b i => b.setWord (i + 1) (lh.sector i))
    (b.setWord 0 (BitVec.ofInt 32 lh.n))

/-- The loads of `read_head`; entries beyond the count keep their old values. -/
def LogHeader.load (lh : LogHeader) (b : Block) : LogHeader where
  n := (b.word 0).toInt
  sector := fun i => if i < (b.word 0).toInt.toNat then b.word (i + 1) else lh.sector i

theorem foldl_setWord (f : Nat → BitVec 32) (b : Block) (m : Nat) (hm : m < 128) :
    (((List.range m).foldl (fun b i => b.setWord (i + 1) (f i)) b).word 0 = b.word 0) ∧
      ∀ i < m, ((List.range m).foldl (fun b i => b.setWord (i + 1) (f i)) b).word (i + 1) = f i := by
  induction m with
  | zero => exact ⟨rfl, fun i hi => absurd hi (Nat.not_lt_zero i)⟩
  | succ m ih =>
    obtain ⟨h0, hs⟩ := ih (by omega)
    rw [List.range_succ, List.foldl_append, List.foldl_cons, List.foldl_nil]
    constructor
    · rw [Block.word_setWord_other _ (by omega) (by omega), h0]
    · intro i hi
      rcases Nat.lt_or_ge i m with hlt | hge
      · rw [Block.word_setWord_other _ (by omega) (by omega), hs i hlt]
      · obtain rfl : i = m := by omega
        exact Block.word_setWord_same _ (by omega) _

theorem LogHeader.store_count (lh : LogHeader) (b : Block) (hn : lh.n ≤ logSize) :
    (lh.store b).word 0 = BitVec.ofInt 32 lh.n := by
  have hm : lh.n.toNat < 128 := by
    unfold logSize at hn
    omega
  unfold LogHeader.store
  rw [(foldl_setWord lh.sector _ _ hm).1]
  exact Block.word_setWord_same b (by decide) _

theorem LogHeader.store_sector (lh : LogHeader) (b : Block) (hn : lh.n ≤ logSize) {i : Nat}
    (hi : i < lh.n.toNat) : (lh.store b).word (i + 1) = lh.sector i := by
  have hm : lh.n.toNat < 128 := by
    unfold logSize at hn
    omega
  exact (foldl_setWord lh.sector _ _ hm).2 i hi

/-! ## 2. Commit and recovery -/

def getLog : FsM Log := do
  let s ← Prog.get
  return s.log

def setLog (f : Log → Log) : FsM Unit := Prog.modify fun s => { s with log := f s.log }

def installOne (tail : Nat) : FsM Unit := do
  let log ← getLog
  let lbuf ← bufcacheRead log.dev (log.start + BitVec.ofNat 32 tail + 1)
  let dbuf ← bufcacheRead log.dev (log.lh.sector tail)
  let l ← getBuf lbuf
  modifyData dbuf fun _ => l.data
  bufcacheWrite dbuf
  bufcacheRelease lbuf
  bufcacheRelease dbuf

def installTrans : FsM Unit := do
  let log ← getLog
  Prog.forUp installOne 0 log.lh.n.toNat

/-- A count above `LOGSIZE` would be copied over what follows the array: no result. -/
def readHead : FsM Unit := do
  let log ← getLog
  let buf ← bufcacheRead log.dev log.start
  let b ← getBuf buf
  if (b.data.word 0).toInt > logSize then Prog.halt
  else
    setLog fun log => { log with lh := log.lh.load b.data }
    bufcacheRelease buf

def writeHead : FsM Unit := do
  let log ← getLog
  let buf ← bufcacheRead log.dev log.start
  modifyData buf log.lh.store
  bufcacheWrite buf
  bufcacheRelease buf

def clearCount : FsM Unit := setLog fun log => { log with lh := { log.lh with n := 0 } }

def recoverFromLog : FsM Unit := do
  readHead
  installTrans
  clearCount
  writeHead

def logInit : FsM Unit := do
  let sb ← readSuperblock rootDev
  setLog fun log => { log with start := sb.size - sb.nlog, size := sb.nlog.toInt, dev := rootDev }
  recoverFromLog

/-! ## 3. Transactions -/

/-- With one thread, waiting for another transaction to end is waiting for ever. -/
def beginTrans : FsM Unit := do
  let log ← getLog
  if log.busy then Prog.halt
  else setLog fun log => { log with busy := true }

def commitTrans : FsM Unit := do
  let log ← getLog
  if 0 < log.lh.n then
    writeHead
    installTrans
    clearCount
    writeHead
  setLog fun log => { log with busy := false }

/-- The index at which the loop of `log_write` stops: of the sector if it is logged already. -/
def LogHeader.slot (lh : LogHeader) (sector : BitVec 32) : Nat :=
  ((List.range lh.n.toNat).find? fun i => lh.sector i == sector).getD lh.n.toNat

def logWrite (i : Fin nbuf) : FsM Unit := do
  let log ← getLog
  let b ← getBuf i
  if log.lh.n ≥ logSize ∨ log.lh.n ≥ log.size - 1 then Prog.halt
  else if !log.busy then Prog.halt
  else
    let slot := log.lh.slot b.sector
    setLog fun log =>
      { log with lh := { log.lh with sector := Function.update log.lh.sector slot b.sector } }
    let lbuf ← bufcacheRead b.dev (log.start + BitVec.ofNat 32 slot + 1)
    modifyData lbuf fun _ => b.data
    bufcacheWrite lbuf
    bufcacheRelease lbuf
    if (slot : Int) = log.lh.n then
      setLog fun log => { log with lh := { log.lh with n := log.lh.n + 1 } }
    let b ← getBuf i
    setBuf i { b with dirty := true }

/-- One update inside a transaction: read a sector of the root disk, change it, log it, release it. -/
structure Update where
  sector : Lba
  change : Block → Block

def Update.run (u : Update) : FsM Unit := do
  let i ← bufcacheRead rootDev (BitVec.ofNat 32 u.sector.val)
  modifyData i u.change
  logWrite i
  bufcacheRelease i

def transaction (us : List Update) : FsM Unit := do
  beginTrans
  us.forM Update.run
  commitTrans

/-- What happens between a boot and the next crash: recovery, then transactions. -/
def session (ts : List (List Update)) : FsM Unit := do
  logInit
  ts.forM transaction

/-- The memory at boot: no buffer is valid, and the log's fields are zero. -/
def bootMachine : Machine where
  haveDisk1 := true
  bcache := bufcacheInit
  log := ⟨0, 0, false, 0, ⟨0, fun _ => 0⟩⟩

end MCertiKOS.Fs
