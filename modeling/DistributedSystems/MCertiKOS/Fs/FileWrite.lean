import DistributedSystems.MCertiKOS.Fs.LogDemand

/-!
# Writing to a file (`file_write` in `kern/fs/file.c`)

`file_write` cuts a write into transactions of at most three blocks.  In a file without holes such a
transaction logs at most `LOGSIZE` sectors: four data blocks, of which the first is there already if
the chunk starts inside it, the bitmap blocks of the three others, the indirect block and its bitmap
block, and last the inode.
-/

namespace MCertiKOS.Fs

open Fallible

/-! ## 1. The function -/

inductive FileType where
  | none
  | pipe
  | inode
  deriving DecidableEq

/-- `struct file`, without what `file_write` does not use. -/
structure File where
  type : FileType
  writable : Bool
  ip : Fin ninode
  off : BitVec 32

namespace Vol

def tFile : BitVec 16 := 2

def maxChunk : Int := ((logSize - 1 - 1 - 2) / 2 * 512 : Nat)

def chunkSize (n i : Int) : Int := if n - i > maxChunk then maxChunk else n - i

def chunkBytes (addr : Nat → UInt8) (n i : Int) : List UInt8 :=
  (List.range (chunkSize n i).toNat).map fun k => addr (i.toNat + k)

def writeChunk (devsw : Devsw) (f : File) (src : List UInt8) (n1 : BitVec 32) :
    FsV (Int × File) := do
  beginTrans
  inodeLock f.ip
  let r ← inodeWrite devsw f.ip src f.off n1
  inodeUnlock f.ip
  return (r, if r > 0 then { f with off := f.off + BitVec.ofInt 32 r } else f)

/-- The loop with `i` bytes written; every round that goes on writes at least one more. -/
def writeChunks (devsw : Devsw) (addr : Nat → UInt8) (n : Int) :
    Nat → Int → File → FsV (Int × File)
  | 0, i, f => pure (i, f)
  | fuel + 1, i, f =>
    if i < n then do
      let r ← writeChunk devsw f (chunkBytes addr n i) (BitVec.ofInt 32 (chunkSize n i))
      commitTrans
      if r.1 < 0 then return (i, r.2)
      else if r.1 ≠ chunkSize n i then throw .shortWrite
      else writeChunks devsw addr n fuel (i + r.1) r.2
    else return (i, f)

def fileWrite (devsw : Devsw) (f : File) (addr : Nat → UInt8) (n : BitVec 32) :
    FsV (Int × File) := do
  if f.writable = false then return (-1, f)
  else if f.type = .inode then
    let r ← writeChunks devsw addr n.toInt n.toInt.toNat 0 f
    return (if r.1 = n.toInt then n.toInt else -1, r.2)
  else throw .fileWrite

/-! ## 2. Files that are open for writing -/

def Solid (f : Files) (inum : Nat) : Prop :=
  ∀ p < (f.inode inum).size.toNat, f.slot (inum, slotOf (p / bsize)) ≠ 0

/-- A regular file without holes, with its offset inside, between two transactions. -/
structure Open (g : Geometry) (v : Volume) (f : File) : Prop where
  consistent : Consistent g v
  ref : 0 < (v.inode f.ip).ref
  dev : (v.inode f.ip).dev = rootDev
  inum : (v.inode f.ip).inum < g.ninodes
  unlocked : (v.inode f.ip).busy = false
  regular : ((v.files g).inode (v.inode f.ip).inum).type = tFile
  solid : Solid (v.files g) (v.inode f.ip).inum
  off : f.off.toNat ≤ ((v.files g).inode (v.inode f.ip).inum).size.toNat
  idle : v.busy = false
  logged : v.logged = []

/-- How a transaction of `file_write` can stop: the disk is full, or the transaction has `LOGSIZE`
sectors, of which the inode's is the last, and takes all buffers. -/
def Ending (g : Geometry) (i : Fin ninode) : Panic → Volume → Prop
  | .outOfBlocks, v => ∀ b < g.size, g.marked v b = true
  | .noBuffers, v =>
    v.held = [iblock (v.inode i).inum] ∧ v.logged.length + 1 = logSize ∨ v.logged.length = logSize
  | _, _ => False

variable {g : Geometry} {v v' : Volume} {i : Fin ninode} {f : File} {s : Nat}
  {Q : Unit → Volume → Prop} {R : Panic → Volume → Prop}

theorem Pins.ending {e : Panic} (h : Pins 9 v) (hl : Limits g e v) : Ending g i e v := by
  have hlogged := h.logged_le
  have hpinned := h.le
  have hroom := h.room
  cases e with
  | tooBig =>
    have hfull : logSize ≤ v.logged.length ∨ v.nlog - 1 ≤ v.logged.length := hl
    unfold logSize at hfull
    omega
  | outsideTrans =>
    have hidle : v.busy = false := hl
    rw [h.busy] at hidle
    exact Bool.noConfusion hidle
  | noBuffers =>
    have hfull : nbuf ≤ v.pinned := hl
    unfold nbuf at hfull
    omega
  | outOfBlocks => exact hl
  | _ => exact hl.elim

/-! ## 3. Locking -/

/-- An entry of the inode cache whose contents are those of the inode. -/
structure Current (v : Volume) (i : Fin ninode) (ip : Inode) : Prop where
  old : 0 < (v.inode i).ref
  ref : 0 < ip.ref
  key : ip.key = (v.inode i).key
  dev : ip.dev = rootDev
  valid : ip.valid = true
  d : ip.d = v.current ip.inum

section Current

variable {ip : Inode} (h : Current v i ip) (hv : Formatted g v)

include h hv

theorem Current.formatted : Formatted g (setEntry v i ip) := by
  apply hv.setEntry
  intro _ j hj href he
  exact hj (hv.unique j i href h.old (he.trans h.key))

theorem Current.current (hinum : ip.inum < g.ninodes) (n : Nat) :
    (setEntry v i ip).current n = v.current n := by
  by_cases hn : n = ip.inum
  · have hvalid : Valid g (setEntry v i ip) i := by
      constructor <;> rw [setEntry_self]
      · exact h.ref
      · exact h.valid
      · exact h.dev
      · exact hinum
    have hself := hvalid.current (h.formatted hv)
    rw [setEntry_self] at hself
    rw [hn, hself, h.d]
  · -- the entry is not that of `n`, neither before nor now
    have hcached : (setEntry v i ip).cached n = v.cached n := by
      unfold Volume.cached
      congr 1
      funext j
      by_cases hj : j = i
      · have hkey : ip.key ≠ (rootDev, n) := fun he => hn (congrArg Prod.snd he).symm
        rw [hj, setEntry_self, ← h.key]
        simp [hkey]
      · rw [setEntry_other v ip hj]
    unfold Volume.current
    rw [hcached]
    cases hc : v.cached n with
    | none => rfl
    | some j =>
      have hj : j ≠ i := by
        rintro rfl
        exact hn (congrArg Prod.snd ((cached_some hc).2.2.symm.trans h.key.symm))
      dsimp only
      rw [setEntry_other v ip hj]

theorem Current.files (hinum : ip.inum < g.ninodes) : (setEntry v i ip).files g = v.files g := by
  apply files_eq
  · intro n hn
    rw [h.current hv hinum, files_inode g v hn]
  · exact fun n hn => files_noInode g v hn
  · exact fun b hb => (files_block g v hb).symm
  · exact fun b hb => files_noBlock g v hb
  · exact fun b hb => (files_used g v hb).symm
  · exact fun b hb => files_unused g v hb

end Current

theorem Current.consistent {ip : Inode} (h : Current v i ip) (hv : Consistent g v)
    (hinum : ip.inum < g.ninodes) : Consistent g (setEntry v i ip) := by
  have hfiles := h.files hv.formatted hinum
  refine ⟨h.formatted hv.formatted, ?_, ?_, hv.held⟩
  · rw [hfiles]
    exact hv.sound
  · rw [hfiles]
    exact hv.size

def lockedEntry (v : Volume) (i : Fin ninode) : Inode :=
  { v.inode i with
    busy := true
    valid := true
    d := v.current (v.inode i).inum }

theorem wp_inodeLock_idle
    (hv : Formatted g v) (href : 0 < (v.inode i).ref) (hdev : (v.inode i).dev = rootDev)
    (hinum : (v.inode i).inum < g.ninodes)
    (hbusy : (v.inode i).busy = false) (htype : (v.current (v.inode i).inum).type ≠ 0)
    (hheld : v.held = []) (hlogged : v.logged = [])
    (hQ : Q () (setEntry v i (lockedEntry v i))) : wp (inodeLock i) Q R v := by
  unfold inodeLock
  rw [wp_bind, wp_get, if_neg (by omega), if_neg (by rw [hbusy]; exact Bool.false_ne_true),
    wp_bind, wp_setInode]
  split
  case isTrue hvalid =>
    have hcurrent := Valid.current ⟨href, hvalid, hdev, hinum⟩ hv
    have hsame : lockedEntry v i = { v.inode i with busy := true } := by
      unfold lockedEntry
      rw [hcurrent, ← hvalid]
    rw [hsame] at hQ
    exact hQ
  case isFalse hvalid =>
    -- no entry is valid for this inode, so the disk has its contents
    have hcurrent : v.current (v.inode i).inum = v.dinode (v.inode i).inum := by
      have hnone : v.cached (v.inode i).inum = none := by
        apply List.find?_eq_none.mpr
        intro j _ hj
        simp only [decide_eq_true_eq] at hj
        rw [hv.unique j i hj.1 href (hj.2.2.trans (Prod.ext hdev.symm rfl))] at hj
        exact hvalid hj.2.1
      unfold Volume.current
      rw [hnone]
    rw [hcurrent] at htype
    have hsame : lockedEntry v i =
        { v.inode i with busy := true, d := v.dinode (v.inode i).inum, valid := true } := by
      unfold lockedEntry
      rw [hcurrent]
    rw [hsame] at hQ
    refine wp_inodeFill hheld (fun hfull => ?_) (fun hzero => absurd hzero htype) fun _ => hQ
    rw [pinned_idle hheld, hlogged] at hfull
    exact absurd hfull (by decide)

theorem wp_inodeUnlock_locked (href : 0 < (v.inode i).ref) (hbusy : (v.inode i).busy = true)
    (hQ : Q () (setEntry v i { v.inode i with busy := false })) : wp (inodeUnlock i) Q R v := by
  unfold inodeUnlock
  rw [wp_bind, wp_get, if_neg]
  · exact hQ
  · rw [hbusy]
    simp only [Bool.true_eq_false, false_or]
    omega

/-! ## 4. One transaction -/

theorem wp_logWrite_last (hheld : v.held = [s]) (hs : s = iblock (v.inode i).inum)
    (hlow : s < g.dataStart) (hstart : v.start = g.logStart) (hnlog : v.nlog = g.nlog)
    (hbusy : v.busy = true) (hroom : 9 < v.nlog - 1) (hnodup : v.logged.Nodup)
    (hlen : v.logged.length ≤ 9) :
    wp (logWrite s) (fun _ v₁ => wp (bufcacheRelease s)
      (fun _ v' => v'.logged.Nodup ∧ v'.logged.length ≤ logSize) (Ending g i) v₁) (Ending g i) v := by
  have hnotInLog : ∀ t ∈ v.held, ¬ g.InLog t := by
    intro t ht
    rw [hheld, List.mem_singleton] at ht
    rw [ht]
    exact g.not_inLog hlow
  apply wp_mono (wp_and
    (wp_logWrite (Q := fun _ _ => True) hstart hnlog hnotInLog fun _ _ _ => True.intro)
    (wp_logWrite_any (s := s) (Q := fun _ v₁ => ∃ sector, v₁ = withLogged v sector s)
      (R := fun _ v₁ => v₁ = v) (fun _ => rfl) fun sector => ⟨sector, rfl⟩))
  · rintro _ v₁ ⟨_, sector, rfl⟩
    apply wp_bufcacheRelease (v := withLogged v sector s) (H := []) hheld
    refine ⟨nodup_withLogged hnodup sector s, ?_⟩
    show (if s ∈ v.logged then v.logged else v.logged ++ [s]).length ≤ 10
    split
    · omega
    · rw [List.length_append, List.length_singleton]
      omega
  · rintro e v₁ ⟨hl, rfl⟩
    cases e with
    | tooBig =>
      have hfull : logSize ≤ v₁.logged.length ∨ v₁.nlog - 1 ≤ v₁.logged.length := hl
      unfold logSize at hfull
      omega
    | outsideTrans =>
      have hidle : v₁.busy = false := hl
      rw [hbusy] at hidle
      exact Bool.noConfusion hidle
    | noBuffers =>
      have hfull : nbuf ≤ v₁.pinned := hl
      have hle := List.length_filter_le (fun t => decide (t ∉ v₁.held)) v₁.logged
      unfold Volume.pinned nbuf at hfull
      rw [hheld, List.length_singleton] at hfull
      rw [hheld] at hle
      left
      rw [← hs]
      refine ⟨hheld, ?_⟩
      unfold logSize
      omega
    | outOfBlocks => exact hl
    | _ => exact hl.elim

variable {off : Nat} {n : Int}

theorem wp_grow_ending {n : Nat} (hv : Good g v i) (hheld : v.held = []) (h : Pins 9 v) :
    wp (grow i n off) (fun _ v' => v'.logged.Nodup ∧ v'.logged.length ≤ logSize) (Ending g i) v := by
  have hlogged := h.logged_le
  unfold grow
  rw [wp_bind, wp_get]
  split
  case isFalse =>
    refine ⟨h.nodup, ?_⟩
    unfold logSize
    omega
  case isTrue =>
    rw [wp_bind, wp_setDinode]
    generalize hd : ({ (v.inode i).d with size := BitVec.ofNat 32 off } : Dinode) = d
    have hnum : ((withDinode v i d).inode i).inum = (v.inode i).inum :=
      congrArg Prod.snd (withDinode_rest v i i d).2.2
    unfold inodeUpdate
    simp only [wp_bind, wp_get]
    rw [hnum]
    obtain ⟨t, ht⟩ : ∃ t, t = iblock (v.inode i).inum := ⟨_, rfl⟩
    have hlow : t < g.dataStart := by
      rw [ht]
      exact g.iblock_lt hv.valid.inum
    rw [← ht]
    apply wp_bufcacheRead_or
    · show t ∉ v.held
      rw [hheld]
      exact List.not_mem_nil
    · intro _ hfull
      have hle := h.le
      have hfull' : nbuf ≤ v.pinned := hfull
      unfold nbuf at hfull'
      omega
    unfold modifyData
    rw [wp_modify]
    refine wp_logWrite_last ?_ ?_ hlow ?_ ?_ ?_ ?_ ?_ ?_
    · show t :: v.held = [t]
      rw [hheld]
    · rw [hnum, ht]
    · exact hv.formatted.start
    · exact hv.formatted.nlog
    · exact h.busy
    · exact h.room
    · exact h.nodup
    · exact hlogged

theorem affords_chunk (len : Nat) (hsolid : Solid (v.files g) (v.inode i).inum)
    (hsize : off ≤ ((v.files g).inode (v.inode i).inum).size.toNat) (hheld : v.held = [])
    (hlogged : v.logged = []) (hlen : len ≤ 1536) : Affords g 9 v i off len := by
  have hpinned : v.pinned = 0 := by
    rw [pinned_idle hheld, hlogged]
    rfl
  have htable := tableCost_le v i
  constructor
  · -- the offset is inside a block, and the block starts below the size
    intro hmod
    have hstart : bsize * (off / bsize) < ((v.files g).inode (v.inode i).inum).size.toNat := by
      unfold bsize at hmod ⊢
      omega
    have hslot := hsolid _ hstart
    rw [Nat.mul_div_cancel_left _ (by decide)] at hslot
    exact if_neg hslot
  · unfold bsize
    split <;> omega

variable {devsw : Devsw} {src : List UInt8}

theorem wp_inodeWrite_ending {off n : BitVec 32} (hv : Good g v i) (hheld : v.held = [])
    (hfile : (v.inode i).d.type ≠ tDev) (hsrc : src.length = n.toNat)
    (h : ¬ Refused (v.inode i).d.size.toNat off.toNat n.toNat) (hpins : Pins 9 v)
    (hafford : Affords g 9 v i off.toNat src.length) :
    wp (inodeWrite devsw i src off n) (fun _ v' => v'.logged.Nodup ∧ v'.logged.length ≤ logSize)
      (Ending g i) v := by
  unfold Refused at h
  have hadd : (off + n).toNat = off.toNat + n.toNat := by
    rw [BitVec.toNat_add]
    omega
  unfold inodeWrite
  rw [wp_bind, wp_get, if_neg hfile, if_neg, if_neg (by omega), wp_bind]
  · apply wp_mono (wp_and
      (wp_writeLoop n.toNat off.toNat src v hv hheld (by omega) (by omega))
      (wp_writeLoop_pins n.toNat off.toNat src v hv hheld (by omega) hpins fun _ => hafford))
    · rintro last v₁ ⟨⟨_, hwritten⟩, hpins₁⟩
      rw [wp_bind]
      exact wp_mono (wp_grow_ending (hwritten.good hv) (hwritten.moved.held.trans hheld) hpins₁)
        (fun _ _ hq => hq) fun _ _ he => he
    · exact fun e v₁ he => he.2.2.ending he.1
  · rintro (hlt | hover)
    · exact h (Or.inl (BitVec.lt_def.mp hlt))
    · exact h (Or.inr (Or.inl ((add_overflows off n).mp hover)))

structure Chunked (g : Geometry) (f : File) (n1 : BitVec 32) (r : Int × File) (v : Volume) :
    Prop where
  held : v.held = []
  nodup : v.logged.Nodup
  fits : v.logged.length ≤ logSize
  ip : r.2.ip = f.ip
  done : r.1 = -1 ∨ r.1 = n1.toNat
  next : Open g { v with logged := [], busy := false } r.2

theorem Saved.solid (h : Saved g v v' i off src) (hv : Good g v i)
    (hsolid : Solid (v.files g) (v.inode i).inum)
    (hoff : off ≤ ((v.files g).inode (v.inode i).inum).size.toNat) :
    Solid (v'.files g) (v.inode i).inum ∧
      off + src.length ≤ ((v'.files g).inode (v.inode i).inum).size.toNat ∧
      ((v'.files g).inode (v.inode i).inum).type = ((v.files g).inode (v.inode i).inum).type := by
  obtain ⟨fs, size, hspliced, hfiles, hsize⟩ := h.files
  have hslots := fs.resize_sameSlots (v.inode i).inum size
  have hd := hv.valid.files_inode hv.formatted
  have hnew : ((v'.files g).inode (v.inode i).inum).size = size := by
    rw [hfiles, Files.inode_resize_self]
  unfold Solid
  rw [hnew, hsize, ← hd]
  refine ⟨?_, by omega, ?_⟩
  · intro p hp
    rw [hfiles, hslots.slot]
    by_cases hold : p < ((v.files g).inode (v.inode i).inum).size.toNat
    · have hslot := hsolid p hold
      rw [hspliced.slot _ hv.live hslot]
      exact hslot
    · exact hspliced.present p (by omega) (by omega)
  · rw [hfiles, Files.inode_resize_self]
    exact hspliced.type _

theorem open_unlocked (hv : Consistent g v) (hi : Valid g v f.ip)
    (htype : ((v.files g).inode (v.inode f.ip).inum).type = tFile)
    (hsolid : Solid (v.files g) (v.inode f.ip).inum)
    (hoff : f.off.toNat ≤ ((v.files g).inode (v.inode f.ip).inum).size.toNat) :
    Open g { setEntry v f.ip { v.inode f.ip with busy := false } with logged := [], busy := false }
      f := by
  have hfresh : Current v f.ip { v.inode f.ip with busy := false } :=
    ⟨hi.ref, hi.ref, rfl, hi.dev, hi.valid, (hi.current hv.formatted).symm⟩
  have hfiles := hfresh.files hv.formatted hi.inum
  have hw := hfresh.consistent hv hi.inum
  have hself := setEntry_self v f.ip { v.inode f.ip with busy := false }
  generalize setEntry v f.ip { v.inode f.ip with busy := false } = w at hfiles hw hself ⊢
  have hinum : (w.inode f.ip).inum = (v.inode f.ip).inum := by rw [hself]
  rw [← hinum, ← hfiles] at htype hsolid hoff
  refine ⟨(kept_setLog hw [] false).consistent, ?_, ?_, ?_, ?_, htype, hsolid, hoff, rfl, rfl⟩
  · rw [hself]
    exact hi.ref
  · rw [hself]
    exact hi.dev
  · rw [hinum]
    exact hi.inum
  · rw [hself]

structure Begun (g : Geometry) (v : Volume) (f : File) (w : Volume) : Prop where
  consistent : Consistent g w
  locked : Locked g w f.ip
  files : w.files g = v.files g
  inum : (w.inode f.ip).inum = (v.inode f.ip).inum
  busy : w.busy = true
  logged : w.logged = []

theorem wp_begun (h : Open g v f) (hQ : ∀ w, Begun g v f w → Q () w) :
    wp beginTrans (fun _ v₀ => wp (inodeLock f.ip) Q R v₀) R v := by
  have hv₀ : Consistent g { v with busy := true } :=
    (kept_setLog h.consistent v.logged true).consistent
  have htype : (v.current (v.inode f.ip).inum).type = tFile := by
    rw [← files_inode g v h.inum]
    exact h.regular
  have hfresh : Current { v with busy := true } f.ip (lockedEntry { v with busy := true } f.ip) :=
    ⟨h.ref, h.ref, rfl, h.dev, rfl, rfl⟩
  have hself := setEntry_self { v with busy := true } f.ip (lockedEntry { v with busy := true } f.ip)
  unfold beginTrans
  rw [wp_bind, wp_get, if_neg (by rw [h.idle]; exact Bool.false_ne_true), wp_set]
  refine wp_inodeLock_idle hv₀.formatted h.ref h.dev h.inum h.unlocked ?_ hv₀.held h.logged ?_
  · show (v.current (v.inode f.ip).inum).type ≠ 0
    rw [htype]
    decide
  apply hQ
  refine ⟨hfresh.consistent hv₀ h.inum, ⟨⟨?_, ?_, ?_, ?_⟩, ?_, ?_, ?_⟩,
    hfresh.files hv₀.formatted h.inum, ?_, rfl, h.logged⟩ <;> rw [hself]
  · exact h.ref
  · rfl
  · exact h.dev
  · exact h.inum
  · rfl
  · show (v.current (v.inode f.ip).inum).type ≠ 0
    rw [htype]
    decide
  · show (v.current (v.inode f.ip).inum).type ≠ tDev
    rw [htype]
    decide
  · rfl

theorem wp_writeChunk {n1 : BitVec 32} (h : Open g v f) (hlog : logSize + 1 ≤ g.nlog)
    (hsrc : src.length = n1.toNat) (hlen : n1.toNat ≤ 1536) :
    wp (writeChunk devsw f src n1) (Chunked g f n1) (Ending g f.ip) v := by
  unfold writeChunk
  rw [wp_bind]
  simp only [wp_bind (m := inodeLock f.ip)]
  apply wp_begun h
  intro w hw
  rw [wp_bind]
  have hgood := hw.locked.good hw.consistent
  have hd := hw.locked.valid.files_inode hw.consistent.formatted
  have htype := h.regular
  have hsolid := h.solid
  have hoff := h.off
  rw [← hw.files, ← hw.inum] at htype hsolid hoff
  by_cases hrefused : Refused (w.inode f.ip).d.size.toNat f.off.toNat n1.toNat
  · apply wp_of_ok (inodeWrite_refused hw.locked.file hrefused)
    rw [wp_bind]
    apply wp_inodeUnlock_locked hw.locked.valid.ref hw.locked.busy
    rw [wp_pure]
    refine ⟨hw.consistent.held, ?_, ?_, rfl, Or.inl rfl,
      open_unlocked hw.consistent hw.locked.valid htype hsolid hoff⟩
    · show w.logged.Nodup
      rw [hw.logged]
      exact List.nodup_nil
    · show w.logged.length ≤ logSize
      rw [hw.logged]
      decide
  · have hpins : Pins 9 w := by
      have hnlog := hw.consistent.formatted.nlog
      refine ⟨?_, ?_, hw.busy, ?_⟩
      · rw [hw.logged]
        exact List.nodup_nil
      · rw [pinned_idle hw.consistent.held, hw.logged]
        decide
      · unfold logSize at hlog
        rw [hnlog]
        omega
    have hafford := affords_chunk src.length hsolid hoff hw.consistent.held hw.logged (by omega)
    apply wp_mono (wp_and
      (wp_inodeWrite hgood hw.consistent.held hw.locked.file hsrc hrefused)
      (wp_inodeWrite_ending hgood hw.consistent.held hw.locked.file hsrc hrefused hpins hafford))
    · rintro r w₁ ⟨⟨rfl, hsaved⟩, hnodup, hfits⟩
      unfold Refused at hrefused
      obtain ⟨addrs, size, hentry⟩ := hsaved.self
      have hinum₁ : (w₁.inode f.ip).inum = (w.inode f.ip).inum := by rw [hentry]
      obtain ⟨hsolid₁, hend, htype₁⟩ := hsaved.solid hgood hsolid hoff
      have hkept := (hsaved.agrees hw.consistent hw.locked (a := (w.files g).contents)
        (fun _ _ => rfl) (by omega) (by omega)).1
      have hlocked₁ := hkept.locked f.ip hw.locked
      rw [wp_bind]
      apply wp_inodeUnlock_locked hlocked₁.valid.ref hlocked₁.busy
      rw [wp_pure]
      have hregular := htype₁.trans htype
      rw [← hinum₁] at hsolid₁ hend hregular
      refine ⟨hkept.consistent.held, hnodup, hfits, ?_, Or.inr rfl, ?_⟩
      · split <;> rfl
      · have hword : f.off + BitVec.ofInt 32 (n1.toNat : Int) = f.off + n1 := by
          rw [BitVec.ofInt_natCast, BitVec.ofNat_toNat, BitVec.setWidth_eq]
        have hadd : (f.off + n1).toNat = f.off.toNat + n1.toNat := by
          rw [BitVec.toNat_add]
          omega
        split
        · apply open_unlocked (f := { f with off := f.off + BitVec.ofInt 32 (n1.toNat : Int) })
            hkept.consistent hlocked₁.valid hregular hsolid₁
          rw [hword, hadd, ← hsrc]
          exact hend
        · exact open_unlocked hkept.consistent hlocked₁.valid hregular hsolid₁ (by omega)
    · exact fun _ _ he => he.2

/-! ## 5. All transactions -/

theorem wp_commitTrans_ending (hheld : v.held = [])
    (hfits : v.logged.length ≤ logSize) (hQ : Q () { v with logged := [], busy := false }) :
    wp commitTrans Q (Ending g i) v := by
  have hfree : ∀ t, t ∉ v.held := by
    intro t
    rw [hheld]
    exact List.not_mem_nil
  have hinstall : wp install (fun _ v' => v' = v) (Ending g i) v := by
    unfold install
    rw [wp_bind, wp_get]
    split
    case isTrue => rfl
    case isFalse =>
      rw [wp_bind]
      apply wp_bufcacheRead_or (hfree _)
      · intro _ hfull
        rw [pinned_idle hheld] at hfull
        unfold nbuf at hfull
        unfold logSize at hfits
        right
        unfold logSize
        omega
      rw [wp_bind]
      apply wp_bufcacheRelease rfl
      apply wp_forM (I := fun _ v' => v' = v) v.logged rfl
      rintro done t rest _ hlogged rfl
      rw [wp_bind]
      apply wp_bufcacheRead_or (hfree t)
      · -- a logged sector is in the cache
        intro hnot _
        rw [hlogged] at hnot
        exact absurd (List.mem_append_right _ List.mem_cons_self) hnot
      exact wp_bufcacheRelease rfl rfl
  unfold commitTrans
  rw [wp_bind]
  apply wp_mono hinstall
  · rintro _ _ rfl
    exact hQ
  · exact fun _ _ he => he

theorem chunkSize_bounds {i : Int} (h : i < n) :
    0 < chunkSize n i ∧ chunkSize n i ≤ 1536 ∧
      (BitVec.ofInt 32 (chunkSize n i)).toNat = (chunkSize n i).toNat := by
  have hmax : maxChunk = 1536 := rfl
  unfold chunkSize
  rw [hmax]
  have hbound : 0 < (if n - i > 1536 then 1536 else n - i) ∧
      (if n - i > 1536 then 1536 else n - i) ≤ 1536 := by
    split <;> omega
  refine ⟨hbound.1, hbound.2, ?_⟩
  rw [BitVec.toNat_ofInt]
  omega

theorem wp_nextChunk (devsw : Devsw) (addr : Nat → UInt8) {k : Int} (h : Open g v f)
    (hlog : logSize + 1 ≤ g.nlog) (hk : k < n) :
    wp (writeChunk devsw f (chunkBytes addr n k) (BitVec.ofInt 32 (chunkSize n k)))
      (Chunked g f (BitVec.ofInt 32 (chunkSize n k))) (Ending g f.ip) v := by
  obtain ⟨hpos, hle, hword⟩ := chunkSize_bounds hk
  apply wp_writeChunk h hlog
  · unfold chunkBytes
    rw [List.length_map, List.length_range, hword]
  · omega

theorem wp_writeChunks {addr : Nat → UInt8} (hlog : logSize + 1 ≤ g.nlog) :
    ∀ fuel k f v, Open g v f → f.ip = i →
      wp (writeChunks devsw addr n fuel k f) (fun r v' => Open g v' r.2 ∧ r.2.ip = i)
        (Ending g i) v := by
  intro fuel
  induction fuel with
  | zero => exact fun _ _ _ h hip => ⟨h, hip⟩
  | succ fuel ih =>
    intro k f v h hip
    unfold writeChunks
    split
    case isFalse => exact ⟨h, hip⟩
    case isTrue hk =>
      obtain ⟨hpos, _, hword⟩ := chunkSize_bounds hk
      rw [wp_bind]
      have hchunk := wp_nextChunk devsw addr h hlog hk
      rw [hip] at hchunk
      apply wp_mono hchunk
      · intro r v₁ hr
        rw [wp_bind]
        apply wp_commitTrans_ending hr.held hr.fits
        split
        case isTrue => exact ⟨hr.next, hr.ip.trans hip⟩
        case isFalse hnonneg =>
          have hall : ¬ r.1 ≠ chunkSize n k := by
            rcases hr.done with hneg | hdone
            · omega
            · rw [hword] at hdone
              omega
          rw [if_neg hall]
          exact ih _ _ _ hr.next (hr.ip.trans hip)
      · exact fun _ _ he => he

/-- Every transaction of `file_write` on a file without holes fits into the log: after any number of
chunks the next one logs at most `LOGSIZE` sectors, none of them twice.  It does not stop in `log_write`
with `too big a transaction`; it can only stop on a full disk, or at its last sector when that is the
`LOGSIZE`-th and no buffer is left. -/
theorem file_write_fits (g : Geometry) (hlog : logSize + 1 ≤ g.nlog) (devsw : Devsw) (v : Volume)
    (f : File) (h : Open g v f) (htype : f.type = .inode) (addr : Nat → UInt8) (n : BitVec 32) :
    (∀ rounds, wp (writeChunks devsw addr n.toInt rounds 0 f)
      (fun r v' => r.1 < n.toInt →
        wp (writeChunk devsw r.2 (chunkBytes addr n.toInt r.1)
            (BitVec.ofInt 32 (chunkSize n.toInt r.1)))
          (fun _ w => w.logged.Nodup ∧ w.logged.length ≤ logSize)
          (fun e w => e ≠ .tooBig ∧ Ending g f.ip e w) v')
      (fun e w => e ≠ .tooBig ∧ Ending g f.ip e w) v) ∧
    wp (fileWrite devsw f addr n) (fun _ _ => True)
      (fun e w => e ≠ .tooBig ∧ Ending g f.ip e w) v := by
  have hending : ∀ e w, Ending g f.ip e w → e ≠ .tooBig ∧ Ending g f.ip e w := by
    intro e w he
    refine ⟨?_, he⟩
    rintro rfl
    exact he
  constructor
  · intro rounds
    apply wp_mono (wp_writeChunks hlog rounds 0 f v h rfl) _ hending
    intro r v' hr hmore
    have hchunk := wp_nextChunk devsw addr hr.1 hlog hmore
    rw [hr.2] at hchunk
    exact wp_mono hchunk (fun _ _ hc => ⟨hc.nodup, hc.fits⟩) hending
  · unfold fileWrite
    by_cases hreadonly : f.writable = false
    · rw [if_pos hreadonly]
      exact True.intro
    · rw [if_neg hreadonly, if_pos htype, wp_bind]
      exact wp_mono (wp_writeChunks hlog _ 0 f v h rfl) (fun _ _ _ => True.intro) hending

def roomy : Geometry := ⟨22, 8, 12, 5, by decide, by decide, by decide⟩

def hundredBytes : Dinode := ⟨tFile, 0, 0, 1, 100, fun k => if k = 0 then 5 else 0⟩

def roomyVolume : Volume where
  sector s :=
    match s with
    | 1 => ((Block.zeros.setWord 0 22).setWord 2 8).setWord 3 12
    | 2 => hundredBytes.store 1 Block.zeros
    | 4 => Block.zeros.setWord 0 0x3FFC3F
    | _ => Block.zeros
  held := []
  logged := []
  start := 10
  nlog := 12
  busy := false
  inode i := if i.val = 0 then ⟨rootDev, 1, 1, false, false, .fresh 0⟩ else idleEntry

def roomyFile : File := ⟨.inode, true, firstInode, 100⟩

theorem roomy_current : ∀ n < 8, (roomyVolume.current n).type ≠ 0 → n = 1 := by decide +kernel

theorem roomy_inode : (roomyVolume.files roomy).inode 1 = hundredBytes := by
  have hnone : roomyVolume.cached 1 = none := by decide +kernel
  rw [files_inode roomy roomyVolume (by decide)]
  unfold Volume.current
  rw [hnone]
  exact Dinode.load_store_same hundredBytes (by decide) Block.zeros

theorem roomy_live {n : Nat} (h : (roomyVolume.files roomy).Live n) : n = 1 := by
  by_cases hn : n < 8
  · apply roomy_current n hn
    rw [← files_inode roomy roomyVolume hn]
    exact h
  · exact absurd (congrArg Dinode.type (files_noInode roomy roomyVolume hn)) h

theorem roomy_uses {u : Nat × Slot} {b : Nat} (h : (roomyVolume.files roomy).uses u b) :
    u = (1, .addr 0) ∧ b = 5 := by
  obtain ⟨n, s⟩ := u
  obtain ⟨hlive, hslot, hpos⟩ := h
  obtain rfl : n = 1 := roomy_live hlive
  have hslot : (roomyVolume.files roomy).target ((roomyVolume.files roomy).inode 1) s = b := hslot
  rw [roomy_inode] at hslot
  cases s with
  | addr k =>
    have haddr : ∀ k, (hundredBytes.addrs k).toNat ≠ 0 →
        k = 0 ∧ (hundredBytes.addrs k).toNat = 5 := by decide
    have hb : (hundredBytes.addrs k).toNat = b := hslot
    rw [← hb] at hpos ⊢
    obtain ⟨rfl, hfive⟩ := haddr k hpos
    exact ⟨rfl, hfive⟩
  | entry j =>
    rw [Files.target_entry_none (by decide)] at hslot
    exact absurd hslot.symm hpos

theorem roomy_open : Open roomy roomyVolume roomyFile where
  consistent := by
    refine ⟨⟨by decide +kernel, by decide, by decide, by decide +kernel, ?_⟩, ?_, ?_, rfl⟩
    · intro i j hi hj _
      have hfirst : ∀ i, 0 < (roomyVolume.inode i).ref → i.val = 0 := by decide +kernel
      exact Fin.ext ((hfirst i hi).trans (hfirst j hj).symm)
    · refine ⟨fun _ _ _ hu hu' => (roomy_uses hu).1.trans (roomy_uses hu').1.symm, ?_⟩
      intro u b hu
      rw [(roomy_uses hu).2]
      decide +kernel
    · intro n hn
      rw [roomy_live hn, roomy_inode]
      decide
  ref := by decide
  dev := by decide
  inum := by decide
  unlocked := by decide
  regular := congrArg Dinode.type roomy_inode
  solid p hp := by
    have hlt : p < hundredBytes.size.toNat := by
      rw [← roomy_inode]
      exact hp
    rw [Nat.div_eq_of_lt (Nat.lt_trans hlt (by decide))]
    decide +kernel
  off := by
    rw [show (roomyVolume.inode roomyFile.ip).inum = 1 from rfl, roomy_inode]
    decide
  idle := rfl
  logged := rfl

/-- Behind the first chunk of a write of 1700 bytes, and the whole write. -/
theorem file_write_fits_twoChunks :
    (answers (fileWrite noDevices roomyFile (fun _ => 7) 1700 roomyVolume)).map Prod.fst =
        some 1700 ∧
      (answers (writeChunks noDevices (fun _ => 7) 1700 1 0 roomyFile roomyVolume)).map Prod.fst =
        some 1536 ∧
      wp (writeChunks noDevices (fun _ => 7) 1700 1 0 roomyFile)
        (fun r v' => r.1 < 1700 →
          wp (writeChunk noDevices r.2 (chunkBytes (fun _ => 7) 1700 r.1)
              (BitVec.ofInt 32 (chunkSize 1700 r.1)))
            (fun _ w => w.logged.Nodup ∧ w.logged.length ≤ logSize)
            (fun e w => e ≠ .tooBig ∧ Ending roomy roomyFile.ip e w) v')
        (fun e w => e ≠ .tooBig ∧ Ending roomy roomyFile.ip e w) roomyVolume ∧
      wp (fileWrite noDevices roomyFile (fun _ => 7) 1700) (fun _ _ => True)
        (fun e w => e ≠ .tooBig ∧ Ending roomy roomyFile.ip e w) roomyVolume := by
  refine ⟨by decide +kernel, by decide +kernel, ?_⟩
  have hopen := roomy_open
  generalize roomyVolume = v at hopen ⊢
  have hfits := file_write_fits roomy (by decide) noDevices v roomyFile hopen rfl (fun _ => 7) 1700
  exact ⟨hfits.1 1, hfits.2⟩

end Vol

end MCertiKOS.Fs
