import Mathlib.Algebra.Group.Nat.Defs
import DistributedSystems.Library.Crash

/-!
# Disk, buffers and the buffer cache (`kern/dev/disk/ide.c`, `kern/fs/bufcache.c`)

One thread runs.  A request to the driver is answered before `ide_rw` returns, one sector is written
at a time, and reads do not fail.  Where the thread would sleep for ever or the kernel panics, the
program halts.
-/

namespace MCertiKOS.Fs

open Crash

/-! ## 1. Blocks -/

abbrev Block := Fin 512 → UInt8

namespace Block

def byte (b : Block) (i : Nat) : UInt8 := if h : i < 512 then b ⟨i, h⟩ else 0

def word (b : Block) (w : Nat) : BitVec 32 :=
  (b.byte (4 * w + 3)).toBitVec ++ (b.byte (4 * w + 2)).toBitVec ++
    (b.byte (4 * w + 1)).toBitVec ++ (b.byte (4 * w)).toBitVec

def setWord (b : Block) (w : Nat) (v : BitVec 32) : Block := fun i =>
  if i.val / 4 = w then UInt8.ofBitVec (v.extractLsb' (8 * (i.val % 4)) 8) else b i

variable {w : Nat}

theorem byte_setWord {b : Block} {v : BitVec 32} (j : Nat) (hj : j < 512) :
    (b.setWord w v).byte j =
      if j / 4 = w then UInt8.ofBitVec (v.extractLsb' (8 * (j % 4)) 8) else b.byte j := by
  unfold byte setWord
  rw [dif_pos hj, dif_pos hj]

theorem word_setWord_same (b : Block) (hw : w < 128) (v : BitVec 32) :
    (b.setWord w v).word w = v := by
  unfold word
  rw [byte_setWord _ (by omega), byte_setWord _ (by omega), byte_setWord _ (by omega),
    byte_setWord _ (by omega), if_pos (by omega), if_pos (by omega), if_pos (by omega),
    if_pos (by omega)]
  have h3 : (4 * w + 3) % 4 = 3 := by omega
  have h2 : (4 * w + 2) % 4 = 2 := by omega
  have h1 : (4 * w + 1) % 4 = 1 := by omega
  have h0 : (4 * w) % 4 = 0 := by omega
  rw [h3, h2, h1, h0]
  apply BitVec.eq_of_getLsbD_eq
  intro i hi
  simp only [BitVec.getLsbD_append, BitVec.getLsbD_extractLsb']
  by_cases c0 : i < 8
  · simp [c0]
  · by_cases c1 : i < 16
    · have e : i - 8 < 8 := by omega
      have e' : 8 + (i - 8) = i := by omega
      simp [c0, e, e']
    · by_cases c2 : i < 24
      · have e : i - 8 - 8 < 8 := by omega
        have en : ¬ i - 8 < 8 := by omega
        have e' : 16 + (i - 8 - 8) = i := by omega
        simp [c0, e, en, e']
      · have e : i - 8 - 8 - 8 < 8 := by omega
        have en : ¬ i - 8 < 8 := by omega
        have en' : ¬ i - 8 - 8 < 8 := by omega
        have e' : 24 + (i - 8 - 8 - 8) = i := by omega
        simp [c0, e, en, en', e']

theorem word_setWord_other (b : Block) {w' : Nat} (hw : w' < 128) (hne : w' ≠ w) (v : BitVec 32) :
    (b.setWord w v).word w' = b.word w' := by
  unfold word
  rw [byte_setWord _ (by omega), byte_setWord _ (by omega), byte_setWord _ (by omega),
    byte_setWord _ (by omega), if_neg (by omega), if_neg (by omega), if_neg (by omega),
    if_neg (by omega)]
end Block

/-! ## 2. The disks -/

/-- A sector number the driver can put into its registers. -/
abbrev Lba := Fin (2 ^ 28)

structure Place where
  drive : Bool
  lba : Lba
  deriving DecidableEq

abbrev Disk := Place → Block

structure DiskWrite where
  place : Place
  data : Block

instance : Device Disk DiskWrite where
  write d w := Function.update d w.place w.data

/-! ## 3. Buffers -/

def nbuf : Nat := 10

def rootDev : BitVec 32 := 1

/-- `struct buf` with the flags `B_BUSY`, `B_VALID` and `B_DIRTY`. -/
structure Buf where
  dev : BitVec 32
  sector : BitVec 32
  busy : Bool
  valid : Bool
  dirty : Bool
  data : Block

/-- What `ide_start` writes to the drive's registers: one bit of the device, 28 of the sector. -/
def Buf.place (b : Buf) : Place :=
  ⟨b.dev.getLsbD 0, ⟨b.sector.toNat % 2 ^ 28, Nat.mod_lt _ (by decide)⟩⟩

/-- The buffers and the list through `prev` and `next`, most recently used first. -/
structure Bcache where
  buf : Fin nbuf → Buf
  order : List (Fin nbuf)

def bufcacheInit : Bcache where
  buf := fun _ => ⟨-1, 0, false, false, false, fun _ => 0⟩
  order := (List.finRange nbuf).reverse

def logSize : Nat := 10

/-- `struct logheader`; the array has `LOGSIZE` entries. -/
structure LogHeader where
  n : Int
  sector : Nat → BitVec 32

structure Log where
  start : BitVec 32
  size : Int
  busy : Bool
  dev : BitVec 32
  lh : LogHeader

structure Machine where
  haveDisk1 : Bool
  bcache : Bcache
  log : Log

abbrev FsM := Prog Disk DiskWrite Machine

def Machine.setBuf (s : Machine) (i : Fin nbuf) (b : Buf) : Machine :=
  { s with bcache := { s.bcache with buf := Function.update s.bcache.buf i b } }

def setBuf (i : Fin nbuf) (b : Buf) : FsM Unit := Prog.modify fun s => s.setBuf i b

def getBuf (i : Fin nbuf) : FsM Buf := do
  let s ← Prog.get
  return s.bcache.buf i

/-! ## 4. The driver -/

/-- `ide_rw`, up to the end of the interrupt that answers it. -/
def ideRw (i : Fin nbuf) : FsM Unit := do
  let s ← Prog.get
  let b := s.bcache.buf i
  if !b.busy then Prog.halt
  else if b.valid && !b.dirty then Prog.halt
  else if b.dev ≠ 0 ∧ s.haveDisk1 = false then Prog.halt
  else if b.dirty then
    Prog.emit ⟨b.place, b.data⟩
    setBuf i { b with valid := true, dirty := false }
  else
    let data ← Prog.sense fun d => d b.place
    setBuf i { b with data := data, valid := true, dirty := false }

/-! ## 5. The cache -/

def Buf.holds (b : Buf) (dev sector : BitVec 32) : Bool := b.dev == dev && b.sector == sector

def Buf.idle (b : Buf) : Bool := !b.busy && !b.dirty

/-- A sector that is cached and busy is in use by the only thread, which then sleeps for ever. -/
def bufcacheGet (dev sector : BitVec 32) : FsM (Fin nbuf) := do
  let s ← Prog.get
  let c := s.bcache
  match c.order.find? fun i => (c.buf i).holds dev sector with
  | some i =>
    if (c.buf i).busy then Prog.halt
    else
      setBuf i { c.buf i with busy := true }
      return i
  | none =>
    match c.order.reverse.find? fun i => (c.buf i).idle with
    | some i =>
      setBuf i { c.buf i with dev, sector, busy := true, valid := false, dirty := false }
      return i
    | none => Prog.halt

def bufcacheRead (dev sector : BitVec 32) : FsM (Fin nbuf) := do
  let i ← bufcacheGet dev sector
  let b ← getBuf i
  if !b.valid then ideRw i
  return i

def bufcacheWrite (i : Fin nbuf) : FsM Unit := do
  let b ← getBuf i
  if !b.busy then Prog.halt
  else
    setBuf i { b with dirty := true }
    ideRw i

def bufcacheRelease (i : Fin nbuf) : FsM Unit := do
  let b ← getBuf i
  if !b.busy then Prog.halt
  else
    Prog.modify fun s =>
      { s with bcache := { s.bcache with order := i :: s.bcache.order.erase i } }
    setBuf i { b with busy := false }

def modifyData (i : Fin nbuf) (f : Block → Block) : FsM Unit := do
  let b ← getBuf i
  setBuf i { b with data := f b.data }

end MCertiKOS.Fs
