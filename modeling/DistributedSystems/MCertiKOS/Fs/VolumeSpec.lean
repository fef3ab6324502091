import DistributedSystems.MCertiKOS.Fs.Files

/-!
# What the block functions do

The geometry of a volume, the files that its sectors describe, and for each function of `block.c`
what it changes and which panics it can end in.
-/

namespace MCertiKOS.Fs

open Fallible Vol Function

/-! ## 1. Bits -/

namespace Block

theorem mask_eq (bi : Nat) : mask bi = BitVec.twoPow 8 (bi % 8) := by
  unfold mask
  rw [BitVec.twoPow_eq]

theorem bit_eq (b : Block) (bi : Nat) : b.bit bi = (b.byte (bi / 8)).toBitVec.getLsbD (bi % 8) := by
  have hlt : bi % 8 < 8 := Nat.mod_lt _ (by decide)
  unfold bit
  rw [mask_eq, BitVec.and_twoPow]
  cases hx : (b.byte (bi / 8)).toBitVec.getLsbD (bi % 8) with
  | false => rfl
  | true =>
    simp only [if_true, bne_iff_ne, ne_eq]
    intro he
    have hbit := congrArg (fun y => y.getLsbD (bi % 8)) he
    rw [BitVec.getLsbD_twoPow] at hbit
    simp [hlt] at hbit

theorem byte_setBit (b : Block) (bi : Nat) {k : Nat} (hk : k < 512) :
    (b.setBit bi).byte k =
      if k = bi / 8 then UInt8.ofBitVec ((b.byte k).toBitVec ||| mask bi) else b.byte k := by
  unfold byte setBit
  rw [dif_pos hk, dif_pos hk]

theorem byte_clearBit (b : Block) (bi : Nat) {k : Nat} (hk : k < 512) :
    (b.clearBit bi).byte k =
      if k = bi / 8 then UInt8.ofBitVec ((b.byte k).toBitVec &&& ~~~ mask bi) else b.byte k := by
  unfold byte clearBit
  rw [dif_pos hk, dif_pos hk]

theorem bit_setBit (b : Block) {bi bj : Nat} (hj : bj < bpb) :
    (b.setBit bi).bit bj = if bj = bi then true else b.bit bj := by
  have hk : bj / 8 < 512 := by
    unfold bpb bsize at hj
    omega
  have hlt : bi % 8 < 8 := Nat.mod_lt _ (by decide)
  rw [bit_eq, bit_eq, byte_setBit b bi hk]
  by_cases hbyte : bj / 8 = bi / 8
  · rw [if_pos hbyte, UInt8.toBitVec_ofBitVec, BitVec.getLsbD_or, mask_eq, BitVec.getLsbD_twoPow]
    by_cases he : bj = bi
    · rw [if_pos he, he]
      simp [hlt]
    · have hmod : ¬ bi % 8 = bj % 8 := by omega
      rw [if_neg he]
      simp [hmod]
  · rw [if_neg hbyte, if_neg (by rintro rfl; exact hbyte rfl)]

theorem bit_clearBit (b : Block) {bi bj : Nat} (hj : bj < bpb) :
    (b.clearBit bi).bit bj = if bj = bi then false else b.bit bj := by
  have hk : bj / 8 < 512 := by
    unfold bpb bsize at hj
    omega
  have hlt : bj % 8 < 8 := Nat.mod_lt _ (by decide)
  rw [bit_eq, bit_eq, byte_clearBit b bi hk]
  by_cases hbyte : bj / 8 = bi / 8
  · rw [if_pos hbyte, UInt8.toBitVec_ofBitVec, BitVec.getLsbD_and, BitVec.getLsbD_not, mask_eq,
      BitVec.getLsbD_twoPow]
    by_cases he : bj = bi
    · rw [if_pos he, he]
      simp [Nat.mod_lt]
    · have hmod : ¬ bi % 8 = bj % 8 := by omega
      rw [if_neg he]
      simp [hmod, hlt]
  · rw [if_neg hbyte, if_neg (by rintro rfl; exact hbyte rfl)]

end Block

/-! ## 2. Geometry -/

/-- Boot block, super block, inodes, bitmap, data and log, in this order. -/
structure Geometry where
  size : Nat
  ninodes : Nat
  nlog : Nat
  dataStart : Nat
  bitmap : ninodes / ipb + 3 + (size + bpb - 1) / bpb ≤ dataStart
  data : dataStart + nlog ≤ size
  /-- The drive has 28-bit sector numbers. -/
  small : size ≤ 2 ^ 28

namespace Geometry

variable (g : Geometry)

def logStart : Nat := g.size - g.nlog

def IsData (b : Nat) : Prop := g.dataStart ≤ b ∧ b < g.logStart

def InLog (s : Nat) : Prop := g.logStart ≤ s ∧ s < g.size

instance (b : Nat) : Decidable (g.IsData b) := inferInstanceAs (Decidable (_ ∧ _))

def marked (v : Volume) (b : Nat) : Bool := (v.sector (bblock b g.ninodes)).bit (b % bpb)

theorem bitmap_le : g.ninodes / 8 + 3 + (g.size + 4095) / 4096 ≤ g.dataStart := g.bitmap

theorem bblock_eq (b : Nat) : bblock b g.ninodes = b / 4096 + g.ninodes / 8 + 3 := rfl

variable {b : Nat}

theorem bblock_lt (hb : b < g.size) : bblock b g.ninodes < g.dataStart := by
  have hbit := g.bitmap_le
  rw [bblock_eq]
  omega

theorem iblock_lt {inum : Nat} (h : inum < g.ninodes) : iblock inum < g.dataStart := by
  have hbit := g.bitmap_le
  unfold iblock ipb
  omega

theorem iblock_ne_bblock {inum : Nat} (h : inum < g.ninodes) (b : Nat) :
    iblock inum ≠ bblock b g.ninodes := by
  rw [bblock_eq]
  unfold iblock ipb
  omega

theorem super_lt : 1 < g.dataStart := by
  have hbit := g.bitmap_le
  omega

theorem not_inLog {s : Nat} (h : s < g.dataStart) : ¬ g.InLog s := by
  have hdata := g.data
  unfold InLog logStart
  omega

theorem IsData.not_inLog (h : g.IsData b) : ¬ g.InLog b := by
  unfold IsData at h
  unfold InLog
  omega

theorem IsData.lt_size (h : g.IsData b) : b < g.size := by
  unfold IsData logStart at h
  omega

theorem IsData.pos (h : g.IsData b) : b ≠ 0 := by
  have hbit := g.bitmap_le
  unfold IsData at h
  omega

theorem IsData.word (h : g.IsData b) : b < 2 ^ 32 := by
  have hlt := IsData.lt_size g h
  have hsmall := g.small
  omega

theorem bit_inj {b' : Nat} (h : bblock b g.ninodes = bblock b' g.ninodes)
    (hbit : b % bpb = b' % bpb) : b = b' := by
  unfold bblock at h
  have hdiv : b / bpb = b' / bpb := by omega
  rw [← Nat.div_add_mod b bpb, ← Nat.div_add_mod b' bpb, hdiv, hbit]

end Geometry

/-! ## 3. The files of a volume -/

namespace Volume

def dinode (v : Volume) (inum : Nat) : Dinode :=
  Dinode.load (v.sector (iblock inum)) (inum % ipb)

def cached (v : Volume) (inum : Nat) : Option (Fin ninode) :=
  (List.finRange ninode).find? fun i =>
    0 < (v.inode i).ref ∧ (v.inode i).valid = true ∧ (v.inode i).key = (rootDev, inum)

def current (v : Volume) (inum : Nat) : Dinode :=
  match v.cached inum with
  | some i => (v.inode i).d
  | none => v.dinode inum

def files (g : Geometry) (v : Volume) : Files where
  inode inum := if inum < g.ninodes then v.current inum else Dinode.fresh 0
  block b := if g.IsData b then v.sector b else Block.zeros
  used b := decide (g.IsData b) && g.marked v b

end Volume

namespace Vol

/-- The parts of a volume that never change, and the inode cache without duplicates. -/
structure Formatted (g : Geometry) (v : Volume) : Prop where
  super : (Super.load (v.sector 1)).size = g.size ∧ (Super.load (v.sector 1)).ninodes = g.ninodes
  start : v.start = g.logStart
  nlog : v.nlog = g.nlog
  metadata : ∀ b < g.size, ¬ g.IsData b → g.marked v b = true
  unique : ∀ i j, 0 < (v.inode i).ref → 0 < (v.inode j).ref →
    (v.inode i).key = (v.inode j).key → i = j

/-- The super block and the variables of the log describe the geometry. -/
structure Laid (g : Geometry) (v : Volume) : Prop where
  super : (Super.load (v.sector 1)).size = g.size ∧ (Super.load (v.sector 1)).ninodes = g.ninodes
  start : v.start = g.logStart
  nlog : v.nlog = g.nlog

theorem Formatted.laid {g : Geometry} {v : Volume} (h : Formatted g v) : Laid g v :=
  ⟨h.super, h.start, h.nlog⟩

structure FirstFree (g : Geometry) (v : Volume) (b : Nat) : Prop where
  lt_size : b < g.size
  free : g.marked v b = false
  least : ∀ b' < b, g.marked v b' = true

/-- The panics of a full disk, a full log or a full cache, and of a caller outside a transaction. -/
def Limits (g : Geometry) : Panic → Volume → Prop
  | .tooBig, v => logSize ≤ v.logged.length ∨ v.nlog - 1 ≤ v.logged.length
  | .outsideTrans, v => v.busy = false
  | .noBuffers, v => nbuf ≤ v.pinned
  | .outOfBlocks, v => ∀ b < g.size, g.marked v b = true
  | _, _ => False

variable {g : Geometry} {v v' : Volume} {s : Nat} {Q : Unit → Volume → Prop}
  {R : Panic → Volume → Prop}

theorem current_congr (hsector : ∀ t < g.dataStart, v'.sector t = v.sector t)
    (hinode : v'.inode = v.inode) {inum : Nat} (hn : inum < g.ninodes) :
    v'.current inum = v.current inum := by
  have hdinode : v'.dinode inum = v.dinode inum := by
    unfold Volume.dinode
    rw [hsector _ (g.iblock_lt hn)]
  unfold Volume.current Volume.cached
  rw [hinode, hdinode]

variable {b : Nat} {x : Block}

theorem marked_congr (hsector : ∀ t < g.dataStart, v'.sector t = v.sector t) (hb : b < g.size) :
    g.marked v' b = g.marked v b := by
  unfold Geometry.marked
  rw [hsector _ (g.bblock_lt hb)]

theorem files_eq {f : Files} (hinode : ∀ n < g.ninodes, v.current n = f.inode n)
    (hnone : ∀ n, ¬ n < g.ninodes → f.inode n = Dinode.fresh 0)
    (hblock : ∀ b, g.IsData b → v.sector b = f.block b)
    (hzeros : ∀ b, ¬ g.IsData b → f.block b = Block.zeros)
    (hused : ∀ b, g.IsData b → g.marked v b = f.used b)
    (hunused : ∀ b, ¬ g.IsData b → f.used b = false) : v.files g = f := by
  apply Files.ext
  · funext n
    show (if n < g.ninodes then v.current n else Dinode.fresh 0) = f.inode n
    split
    case isTrue hn => exact hinode n hn
    case isFalse hn => exact (hnone n hn).symm
  · funext b
    show (if g.IsData b then v.sector b else Block.zeros) = f.block b
    split
    case isTrue hb => exact hblock b hb
    case isFalse hb => exact (hzeros b hb).symm
  · funext b
    show (decide (g.IsData b) && g.marked v b) = f.used b
    by_cases hb : g.IsData b
    · rw [decide_eq_true hb, Bool.true_and]
      exact hused b hb
    · rw [decide_eq_false hb, Bool.false_and]
      exact (hunused b hb).symm

section Parts

variable (g : Geometry) (v : Volume)

theorem files_inode {n : Nat} (hn : n < g.ninodes) : (v.files g).inode n = v.current n := if_pos hn

theorem files_noInode {n : Nat} (hn : ¬ n < g.ninodes) : (v.files g).inode n = Dinode.fresh 0 :=
  if_neg hn

variable {b : Nat}

theorem files_block (hb : g.IsData b) : (v.files g).block b = v.sector b := if_pos hb

theorem files_noBlock (hb : ¬ g.IsData b) : (v.files g).block b = Block.zeros := if_neg hb

theorem files_used (hb : g.IsData b) : (v.files g).used b = g.marked v b := by
  show (decide (g.IsData b) && g.marked v b) = _
  rw [decide_eq_true hb, Bool.true_and]

theorem files_unused (hb : ¬ g.IsData b) : (v.files g).used b = false := by
  show (decide (g.IsData b) && g.marked v b) = _
  rw [decide_eq_false hb, Bool.false_and]

end Parts

theorem isData_of_used (h : (v.files g).used b = true) : g.IsData b := by
  by_cases hb : g.IsData b
  · exact hb
  · rw [files_unused g v hb] at h
    exact Bool.noConfusion h

/-! ## 4. Buffers and log -/

structure Frame (v v' : Volume) : Prop where
  held : v'.held = v.held
  busy : v'.busy = v.busy
  start : v'.start = v.start
  nlog : v'.nlog = v.nlog
  inode : v'.inode = v.inode

theorem Frame.refl (v : Volume) : Frame v v := ⟨rfl, rfl, rfl, rfl, rfl⟩

theorem Frame.trans {v'' : Volume} (h : Frame v v') (h' : Frame v' v'') : Frame v v'' :=
  ⟨h'.held.trans h.held, h'.busy.trans h.busy, h'.start.trans h.start, h'.nlog.trans h.nlog,
    h'.inode.trans h.inode⟩

structure Stored (g : Geometry) (s : Nat) (x : Block) (v v' : Volume) : Prop where
  frame : Frame v v'
  self : v'.sector s = x
  others : ∀ t, t ≠ s → ¬ g.InLog t → v'.sector t = v.sector t

theorem wp_bufcacheRead_or (hs : s ∉ v.held) (hR : s ∉ v.logged → nbuf ≤ v.pinned → R .noBuffers v)
    (hQ : Q () { v with held := s :: v.held }) : wp (bufcacheRead s) Q R v := by
  unfold bufcacheRead
  rw [wp_bind, wp_get, if_neg hs]
  split
  case isTrue hfull => exact hR hfull.1 hfull.2
  case isFalse => exact hQ

theorem wp_bufcacheRead (hs : s ∉ v.held)
    (hQ : Q () { v with held := s :: v.held }) : wp (bufcacheRead s) Q (Limits g) v :=
  wp_bufcacheRead_or hs (fun _ hfull => hfull) hQ

theorem wp_bufcacheRelease {H : List Nat} (hheld : v.held = s :: H)
    (hQ : Q () { v with held := H }) : wp (bufcacheRelease s) Q R v := by
  unfold bufcacheRelease
  rw [wp_bind, wp_get, hheld, if_pos List.mem_cons_self, List.erase_cons_head]
  exact hQ

theorem logBlock_inLog (hstart : v.start = g.logStart) (hnlog : v.nlog = g.nlog)
    (hroom : ¬ (v.nlog - 1 ≤ v.logged.length)) : g.InLog (v.start + v.logged.idxOf s + 1) := by
  have hidx := List.idxOf_le_length (a := s) (l := v.logged)
  have hdata := g.data
  unfold Geometry.InLog
  rw [hstart]
  rw [hnlog] at hroom
  unfold Geometry.logStart
  omega

theorem wp_logWrite (hstart : v.start = g.logStart)
    (hnlog : v.nlog = g.nlog) (hheld : ∀ t ∈ v.held, ¬ g.InLog t)
    (hQ : ∀ v', Frame v v' → (∀ t, ¬ g.InLog t → v'.sector t = v.sector t) → Q () v') :
    wp (logWrite s) Q (Limits g) v := by
  unfold logWrite
  rw [wp_bind, wp_get]
  split
  case isTrue hfull => exact hfull
  case isFalse hroom =>
    split
    case isTrue hbusy =>
      rw [wp_throw]
      simpa [Limits] using hbusy
    case isFalse =>
      have hin : g.InLog (v.start + v.logged.idxOf s + 1) :=
        logBlock_inLog hstart hnlog fun h => hroom (Or.inr h)
      obtain ⟨t, ht⟩ : ∃ t, t = v.start + v.logged.idxOf s + 1 := ⟨_, rfl⟩
      rw [← ht] at hin ⊢
      rw [wp_bind]
      apply wp_bufcacheRead (fun hm => hheld t hm hin)
      unfold modifyData addLogged
      rw [wp_bind, wp_modify, wp_bind]
      apply wp_bufcacheRelease rfl
      rw [wp_modify]
      apply hQ
      · exact ⟨rfl, rfl, rfl, rfl, rfl⟩
      · intro t' ht'
        apply update_of_ne
        rintro rfl
        exact ht' hin

theorem wp_writeBack {H : List Nat} {f : Block → Block}
    (hheld : v.held = s :: H) (hstart : v.start = g.logStart) (hnlog : v.nlog = g.nlog)
    (hs : ¬ g.InLog s) (hH : ∀ t ∈ H, ¬ g.InLog t)
    (hQ : ∀ v', Stored g s (f (v.sector s)) { v with held := H } v' → Q () v') :
    wp (modifyData s f) (fun _ v₁ => wp (logWrite s)
      (fun _ v₂ => wp (bufcacheRelease s) Q (Limits g) v₂) (Limits g) v₁) (Limits g) v := by
  unfold modifyData
  rw [wp_modify]
  refine wp_logWrite ?_ ?_ ?_ ?_
  · exact hstart
  · exact hnlog
  · intro t ht
    have ht : t ∈ v.held := ht
    rw [hheld] at ht
    rcases List.mem_cons.mp ht with rfl | hm
    · exact hs
    · exact hH t hm
  intro v' hframe hsector
  apply wp_bufcacheRelease (H := H) (hframe.held.trans hheld)
  apply hQ
  refine ⟨⟨rfl, hframe.busy, hframe.start, hframe.nlog, hframe.inode⟩, ?_, ?_⟩
  · exact (hsector s hs).trans (update_self _ _ _)
  · exact fun t hne ht => (hsector t ht).trans (update_of_ne hne _ _)

/-! ## 5. Superblock, allocation and release of blocks -/

theorem wp_readSuperblock {Q : Super → Volume → Prop} (h : Laid g v) (hs : 1 ∉ v.held)
    (hQ : ∀ sb : Super, sb.size = g.size → sb.ninodes = g.ninodes → Q sb v) :
    wp readSuperblock Q (Limits g) v := by
  unfold readSuperblock
  rw [wp_bind]
  apply wp_bufcacheRead hs
  rw [wp_bind, wp_get, wp_bind]
  apply wp_bufcacheRelease rfl
  exact hQ _ h.super.1 h.super.2

theorem Laid.congr (h : Laid g v) (hframe : Frame v v') (hsuper : v'.sector 1 = v.sector 1) :
    Laid g v' where
  super := by
    rw [hsuper]
    exact h.super
  start := hframe.start.trans h.start
  nlog := hframe.nlog.trans h.nlog

theorem Formatted.congr (h : Formatted g v) (hframe : Frame v v')
    (hsuper : v'.sector 1 = v.sector 1)
    (hmarked : ∀ b < g.size, ¬ g.IsData b → g.marked v' b = true) : Formatted g v' where
  super := by
    rw [hsuper]
    exact h.super
  start := hframe.start.trans h.start
  nlog := hframe.nlog.trans h.nlog
  metadata := hmarked
  unique := by
    rw [hframe.inode]
    exact h.unique

theorem Formatted.keep (h : Formatted g v) (hframe : Frame v v')
    (hsector : ∀ t < g.dataStart, v'.sector t = v.sector t) : Formatted g v' := by
  apply h.congr hframe (hsector 1 g.super_lt)
  intro b hb hd
  rw [marked_congr hsector hb]
  exact h.metadata b hb hd

theorem Stored.below (h : Stored g s x v v') (hs : g.IsData s) :
    ∀ t < g.dataStart, v'.sector t = v.sector t := by
  intro t ht
  apply h.others t _ (g.not_inLog ht)
  rintro rfl
  exact Nat.not_lt.mpr hs.1 ht

/-- The common end of most functions: a sector that was just read is stored into, logged and
released. -/
theorem wp_storeRead {f : Block → Block} (hv : Laid g v)
    (hs : ¬ g.InLog s) (hheld : ∀ t ∈ v.held, ¬ g.InLog t)
    (hQ : ∀ v', Stored g s (f (v.sector s)) v v' → Q () v') :
    wp (modifyData s f) (fun _ v₁ => wp (logWrite s)
      (fun _ v₂ => wp (bufcacheRelease s) Q (Limits g) v₂) (Limits g) v₁) (Limits g)
      { v with held := s :: v.held } := by
  refine wp_writeBack (H := v.held) ?_ ?_ ?_ hs hheld hQ
  · rfl
  · exact hv.start
  · exact hv.nlog

theorem Stored.data (h : Stored g s x v v') (hs : g.IsData s) :
    v'.files g = (v.files g).fill s x := by
  have hbelow := h.below hs
  apply files_eq
  · intro n hn
    rw [current_congr hbelow h.frame.inode hn]
    exact (files_inode g v hn).symm
  · exact fun n hn => files_noInode g v hn
  · intro b hb
    show v'.sector b = update (v.files g).block s x b
    by_cases he : b = s
    · rw [he, update_self, h.self]
    · rw [update_of_ne he, files_block g v hb]
      exact h.others b he (Geometry.IsData.not_inLog g hb)
  · intro b hb
    have hne : b ≠ s := fun he => hb (he ▸ hs)
    exact (update_of_ne hne _ _).trans (files_noBlock g v hb)
  · intro b hb
    rw [marked_congr hbelow (Geometry.IsData.lt_size g hb)]
    exact (files_used g v hb).symm
  · exact fun b hb => files_unused g v hb

theorem Stored.data_dinode (h : Stored g s x v v') (hs : g.IsData s) {n : Nat} (hn : n < g.ninodes) :
    v'.dinode n = v.dinode n := by
  unfold Volume.dinode
  rw [h.below hs _ (g.iblock_lt hn)]

theorem Stored.data_formatted (h : Stored g s x v v') (hs : g.IsData s) (hv : Formatted g v) :
    Formatted g v' :=
  hv.keep h.frame (h.below hs)

structure Marked (g : Geometry) (b : Nat) (x : Bool) (v v' : Volume) : Prop where
  frame : Frame v v'
  bits : ∀ b' < g.size, g.marked v' b' = if b' = b then x else g.marked v b'
  others : ∀ t, t ≠ bblock b g.ninodes → ¬ g.InLog t → v'.sector t = v.sector t

theorem bblock_range (g : Geometry) (b : Nat) : bblock b g.ninodes ≠ 1 := by
  rw [g.bblock_eq]
  omega

theorem Stored.marked {value : Bool} (h : Stored g (bblock b g.ninodes) x v v')
    (hx : ∀ bj < bpb, x.bit bj = if bj = b % bpb then value else
      (v.sector (bblock b g.ninodes)).bit bj) : Marked g b value v v' := by
  refine ⟨h.frame, ?_, h.others⟩
  intro b' hb'
  unfold Geometry.marked
  by_cases hblock : bblock b' g.ninodes = bblock b g.ninodes
  · rw [hblock, h.self, hx _ (Nat.mod_lt _ (by decide))]
    by_cases he : b' = b
    · rw [he, if_pos rfl, if_pos rfl]
    · rw [if_neg he, if_neg fun hbit => he (g.bit_inj hblock hbit)]
  · rw [h.others _ hblock (g.not_inLog (g.bblock_lt hb')), if_neg]
    rintro rfl
    exact hblock rfl

section Marked

variable {b : Nat} {x : Bool} (h : Marked g b x v v') (hb : g.IsData b)

include h

theorem Marked.laid (hv : Laid g v) : Laid g v' :=
  hv.congr h.frame (h.others 1 (bblock_range g b).symm (g.not_inLog g.super_lt))

theorem Marked.dinode {n : Nat} (hn : n < g.ninodes) : v'.dinode n = v.dinode n := by
  unfold Volume.dinode
  rw [h.others _ (g.iblock_ne_bblock hn b) (g.not_inLog (g.iblock_lt hn))]

include hb

theorem Marked.formatted (hv : Formatted g v) : Formatted g v' := by
  apply hv.congr h.frame
  · exact h.others 1 (bblock_range g b).symm (g.not_inLog g.super_lt)
  · intro b' hb' hd
    have hne : b' ≠ b := fun he => hd (he ▸ hb)
    rw [h.bits b' hb', if_neg hne]
    exact hv.metadata b' hb' hd

theorem Marked.files : v'.files g =
    { v.files g with used := update (v.files g).used b x } := by
  apply files_eq
  · intro n hn
    have hcurrent : v'.current n = v.current n := by
      unfold Volume.current Volume.cached
      rw [h.frame.inode, h.dinode hn]
    rw [hcurrent]
    exact (files_inode g v hn).symm
  · exact fun n hn => files_noInode g v hn
  · intro t ht
    have hne : t ≠ bblock b g.ninodes := by
      have hlt := g.bblock_lt (Geometry.IsData.lt_size g hb)
      have hge := ht.1
      omega
    rw [h.others t hne (Geometry.IsData.not_inLog g ht)]
    exact (files_block g v ht).symm
  · exact fun t ht => files_noBlock g v ht
  · intro t ht
    show g.marked v' t = update (v.files g).used b x t
    rw [h.bits t (Geometry.IsData.lt_size g ht)]
    by_cases he : t = b
    · rw [he, if_pos rfl, update_self]
    · rw [if_neg he, update_of_ne he, files_used g v ht]
  · intro t ht
    have hne : t ≠ b := fun he => ht (he ▸ hb)
    exact (update_of_ne hne _ _).trans (files_unused g v ht)

end Marked

def HoldsData (g : Geometry) (v : Volume) : Prop := ∀ t ∈ v.held, (v.files g).used t = true

theorem HoldsData.notMem (h : HoldsData g v) {t : Nat} (ht : t < g.dataStart) : t ∉ v.held := by
  intro hm
  have hd := isData_of_used (h t hm)
  exact Nat.not_lt.mpr hd.1 ht

theorem HoldsData.notInLog (h : HoldsData g v) : ∀ t ∈ v.held, ¬ g.InLog t :=
  fun t hm => Geometry.IsData.not_inLog g (isData_of_used (h t hm))

theorem wp_blockZero (hv : Laid g v) (hb : g.IsData b)
    (hfree : b ∉ v.held) (hheld : ∀ t ∈ v.held, ¬ g.InLog t)
    (hQ : ∀ v', Stored g b Block.zeros v v' → Q () v') : wp (blockZero b) Q (Limits g) v := by
  unfold blockZero
  simp only [wp_bind]
  apply wp_bufcacheRead hfree
  exact wp_storeRead hv (Geometry.IsData.not_inLog g hb) hheld hQ

structure Allocated (g : Geometry) (v v' : Volume) (b : Nat) : Prop where
  free : (v.files g).used b = false
  data : g.IsData b
  files : v'.files g = (v.files g).claim b
  formatted : Formatted g v'
  frame : Frame v v'
  dinode : ∀ n < g.ninodes, v'.dinode n = v.dinode n

theorem freeBit_some {data : Block} {limit bi : Nat} (h : freeBit data limit = some bi) :
    bi < bpb ∧ bi < limit ∧ data.bit bi = false ∧ ∀ bj < bi, data.bit bj = true := by
  obtain ⟨hbit, hlt, hbefore⟩ := List.find?_range_eq_some.mp h
  rw [List.mem_range] at hlt
  refine ⟨by omega, by omega, by simpa using hbit, fun bj hbj => ?_⟩
  simpa using hbefore bj hbj

theorem freeBit_none {data : Block} {limit : Nat} (h : freeBit data limit = none) {bi : Nat}
    (hb : bi < bpb) (hl : bi < limit) : data.bit bi = true := by
  have hbit := List.find?_eq_none.mp h bi (List.mem_range.mpr (by omega))
  simpa using hbit

theorem wp_allocFrom {sb : Super} {Q : Nat → Volume → Prop} (hsize : sb.size = g.size)
    (hninodes : sb.ninodes = g.ninodes) (hv : Laid g v) (hheld : HoldsData g v)
    (hdata : ∀ b, FirstFree g v b → g.IsData b)
    (hQ : ∀ b v₁ v₂, FirstFree g v b → Marked g b true v v₁ → Stored g b Block.zeros v₁ v₂ →
      Q b v₂) :
    ∀ n c, g.size ≤ (c + n) * bpb → (c + n) * bpb < g.size + bpb →
      (∀ b < c * bpb, b < g.size → g.marked v b = true) →
      wp (allocFrom sb n (c * bpb)) Q (Limits g) v := by
  intro n
  induction n with
  | zero =>
    intro c hle _ hdone
    exact fun b hb => hdone b (by rw [Nat.add_zero] at hle; omega) hb
  | succ n ih =>
    intro c hle hlt hdone
    have hc : c * bpb < g.size := by
      rw [Nat.add_mul, Nat.add_mul] at hlt
      omega
    have hbb := g.bblock_lt hc
    unfold allocFrom
    rw [hninodes, hsize, wp_bind]
    apply wp_bufcacheRead (hheld.notMem hbb)
    rw [wp_bind, wp_get]
    -- the bit `bi` of this bitmap block belongs to block `c * bpb + bi`
    have hplace : ∀ bi < bpb, bblock (c * bpb + bi) g.ninodes = bblock (c * bpb) g.ninodes ∧
        (c * bpb + bi) % bpb = bi := by
      intro bi hbi
      have hpos : 0 < bpb := by decide
      constructor
      · unfold bblock
        rw [Nat.mul_comm c bpb, Nat.mul_add_div hpos, Nat.div_eq_of_lt hbi,
          Nat.mul_div_cancel_left c hpos]
        rfl
      · rw [Nat.mul_comm c bpb, Nat.mul_add_mod, Nat.mod_eq_of_lt hbi]
    cases hfind : freeBit (v.sector (bblock (c * bpb) g.ninodes)) (g.size - c * bpb) with
    | some bi =>
      obtain ⟨hbi, hlimit, hclear, hleast⟩ := freeBit_some hfind
      obtain ⟨hblock, hmod⟩ := hplace bi hbi
      have hfirst : FirstFree g v (c * bpb + bi) := by
        refine ⟨by omega, ?_, fun b hb => ?_⟩
        · unfold Geometry.marked
          rw [hblock, hmod]
          exact hclear
        · by_cases hold : b < c * bpb
          · exact hdone b hold (by omega)
          · obtain ⟨hblock', hmod'⟩ := hplace (b - c * bpb) (by omega)
            rw [show c * bpb + (b - c * bpb) = b by omega] at hblock' hmod'
            unfold Geometry.marked
            rw [hblock', hmod']
            exact hleast _ (by omega)
      have hisData := hdata _ hfirst
      simp only [wp_bind]
      apply wp_storeRead hv (g.not_inLog hbb) hheld.notInLog
      intro v₁ hstored
      have hmarked : Marked g (c * bpb + bi) true v v₁ := by
        have hstored' : Stored g (bblock (c * bpb + bi) g.ninodes)
            (Block.setBit bi (v.sector (bblock (c * bpb) g.ninodes))) v v₁ := by
          rw [hblock]
          exact hstored
        apply hstored'.marked
        intro bj hbj
        rw [hmod, hblock]
        exact Block.bit_setBit _ hbj
      have hnotHeld : c * bpb + bi ∉ v.held := by
        intro hm
        have hused := hheld _ hm
        rw [files_used g v hisData, hfirst.free] at hused
        exact Bool.noConfusion hused
      apply wp_blockZero (hmarked.laid hv) hisData
      · rw [hmarked.frame.held]
        exact hnotHeld
      · rw [hmarked.frame.held]
        exact hheld.notInLog
      intro v₂ hzero
      rw [wp_pure]
      exact hQ _ v₁ v₂ hfirst hmarked hzero
    | none =>
      dsimp only
      rw [wp_bind]
      apply wp_bufcacheRelease rfl
      have hnext : c * bpb + bpb = (c + 1) * bpb := by
        rw [Nat.add_mul, Nat.one_mul]
      rw [hnext]
      apply ih (c + 1)
      · rw [show c + 1 + n = c + (n + 1) by omega]
        exact hle
      · rw [show c + 1 + n = c + (n + 1) by omega]
        exact hlt
      · intro b hb hbs
        by_cases hold : b < c * bpb
        · exact hdone b hold hbs
        · have hbi : b - c * bpb < bpb := by
            rw [← hnext] at hb
            omega
          obtain ⟨hblock, hmod⟩ := hplace _ hbi
          rw [show c * bpb + (b - c * bpb) = b by omega] at hblock hmod
          unfold Geometry.marked
          rw [hblock, hmod]
          exact freeBit_none hfind hbi (by omega)

theorem wp_blockAlloc_first {Q : Nat → Volume → Prop} (hv : Laid g v) (hheld : HoldsData g v)
    (hdata : ∀ b, FirstFree g v b → g.IsData b)
    (hQ : ∀ b v₁ v₂, FirstFree g v b → Marked g b true v v₁ → Stored g b Block.zeros v₁ v₂ →
      Q b v₂) : wp blockAlloc Q (Limits g) v := by
  unfold blockAlloc
  rw [wp_bind]
  apply wp_readSuperblock hv (hheld.notMem g.super_lt)
  intro sb hsize hninodes
  have hloop := wp_allocFrom hsize hninodes hv hheld hdata hQ ((sb.size + bpb - 1) / bpb) 0
  rw [Nat.zero_mul, Nat.zero_add, hsize] at hloop
  have hceil : g.size ≤ (g.size + bpb - 1) / bpb * bpb ∧
      (g.size + bpb - 1) / bpb * bpb < g.size + bpb := by
    unfold bpb bsize
    omega
  rw [hsize]
  exact hloop hceil.1 hceil.2 (fun b hb => absurd hb (Nat.not_lt_zero b))

theorem Formatted.isData_of_firstFree (hv : Formatted g v) (hb : FirstFree g v b) : g.IsData b := by
  by_contra hd
  have hmarked := hv.metadata b hb.lt_size hd
  rw [hb.free] at hmarked
  exact Bool.noConfusion hmarked

theorem wp_blockAlloc {Q : Nat → Volume → Prop} (hv : Formatted g v) (hheld : HoldsData g v)
    (hQ : ∀ b v', Allocated g v v' b → Q b v') : wp blockAlloc Q (Limits g) v := by
  apply wp_blockAlloc_first hv.laid hheld fun b hb => hv.isData_of_firstFree hb
  intro b v₁ v₂ hfirst hmarked hzero
  have hdata := hv.isData_of_firstFree hfirst
  have hfree : (v.files g).used b = false := by
    rw [files_used g v hdata]
    exact hfirst.free
  refine hQ _ _ ⟨hfree, hdata, ?_, hzero.data_formatted hdata (hmarked.formatted hdata hv),
    hmarked.frame.trans hzero.frame,
    fun n hn => (hzero.data_dinode hdata hn).trans (hmarked.dinode hn)⟩
  rw [hzero.data hdata, hmarked.files hdata]
  rfl

theorem wp_blockFree_marked (hv : Laid g v) (hheld : HoldsData g v)
    (hb : (v.files g).used b = true) (hQ : ∀ v', Marked g b false v v' → Q () v') :
    wp (blockFree b) Q (Limits g) v := by
  have hdata := isData_of_used hb
  have hbb := g.bblock_lt (Geometry.IsData.lt_size g hdata)
  have hset : (v.sector (bblock b g.ninodes)).bit (b % bpb) = true := by
    rw [files_used g v hdata] at hb
    exact hb
  unfold blockFree
  rw [wp_bind]
  apply wp_readSuperblock hv (hheld.notMem g.super_lt)
  intro sb _ hninodes
  rw [hninodes, wp_bind]
  apply wp_bufcacheRead (hheld.notMem hbb)
  rw [wp_bind, wp_get, if_pos hset]
  simp only [wp_bind]
  apply wp_storeRead hv (g.not_inLog hbb) hheld.notInLog
  intro v₁ hstored
  exact hQ v₁ (hstored.marked fun bj hbj => Block.bit_clearBit _ hbj)

theorem wp_blockFree (hv : Formatted g v) (hheld : HoldsData g v) (hb : (v.files g).used b = true)
    (hQ : ∀ v', Formatted g v' → Frame v v' → v'.files g = (v.files g).unmark b →
      (∀ n < g.ninodes, v'.dinode n = v.dinode n) → Q () v') :
    wp (blockFree b) Q (Limits g) v := by
  have hdata := isData_of_used hb
  apply wp_blockFree_marked hv.laid hheld hb
  intro v₁ hmarked
  exact hQ v₁ (hmarked.formatted hdata hv) hmarked.frame (hmarked.files hdata)
    fun n hn => hmarked.dinode hn

end Vol

end MCertiKOS.Fs
