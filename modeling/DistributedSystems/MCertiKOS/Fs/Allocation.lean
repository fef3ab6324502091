import DistributedSystems.Library.Runs
import DistributedSystems.MCertiKOS.Fs.Truncation
import DistributedSystems.MCertiKOS.Fs.Contents

/-!
# Where blocks are allocated (`kern/fs/block.c`, `kern/fs/log.c`)

`log_init` puts the log behind the data, into the last `nlog` blocks of the image; `block_alloc`
goes through the bits of the whole image.  What keeps it out of the log is only that some block
before the log is free: the bits of the log need not be set, and once all blocks before it are in
use the first block of the log is given away.
-/

namespace MCertiKOS.Fs

open Fallible

namespace Vol

/-! ## 1. Calls of the allocator -/

inductive BlockCall where
  | begin
  | commit
  | alloc
  | free (b : Nat)
  deriving DecidableEq

def logInit (v : Volume) : Volume :=
  { v with
    start := (Super.load (v.sector 1)).size - (Super.load (v.sector 1)).nlog
    nlog := (Super.load (v.sector 1)).nlog }

/-- The blocks in `owned` were returned by `block_alloc` and not freed since. -/
structure Owner where
  v : Volume
  owned : List Nat

/-- The super block describes the layout, and boot block, super block, inodes and bitmap are marked.
Nothing is assumed about the bits of data and log. -/
structure Documented (g : Geometry) (v : Volume) : Prop where
  super : Super.load (v.sector 1) = ⟨g.size, g.logStart - g.dataStart, g.ninodes, g.nlog⟩
  held : v.held = []
  metadata : ∀ b < g.dataStart, g.marked v b = true

namespace Owner

/-- A call that does not return ends the run; only blocks that are owned are freed. -/
def perform (c : Owner) : BlockCall → Option Owner
  | .begin =>
    match beginTrans c.v with
    | .ok _ v => some { c with v := v }
    | .error _ _ => none
  | .commit =>
    match commitTrans c.v with
    | .ok _ v => some { c with v := v }
    | .error _ _ => none
  | .alloc =>
    match blockAlloc c.v with
    | .ok b v => some ⟨v, b :: c.owned⟩
    | .error _ _ => none
  | .free b =>
    if b ∈ c.owned then
      match blockFree b c.v with
      | .ok _ v => some ⟨v, c.owned.erase b⟩
      | .error _ _ => none
    else none

def Reaches (g : Geometry) : List (Owner × BlockCall) → Owner → Prop :=
  Transition.Run (fun c => ∃ v, Documented g v ∧ c = ⟨logInit v, []⟩)
    fun c a c' => c.perform a = some c'

end Owner

/-- All blocks before the log are in use and a bit of the log is clear. -/
def OnlyLogFree (g : Geometry) (v : Volume) : Prop :=
  (∀ b < g.logStart, g.marked v b = true) ∧ ∃ b < g.size, g.marked v b = false

instance (g : Geometry) (v : Volume) : Decidable (OnlyLogFree g v) :=
  inferInstanceAs (Decidable (_ ∧ ∃ b < g.size, _))

/-! ## 2. One call -/

structure Fresh (g : Geometry) (v : Volume) : Prop where
  laid : Laid g v
  held : v.held = []
  metadata : ∀ b < g.dataStart, g.marked v b = true

variable {g : Geometry} {v v' : Volume} {b : Nat}

theorem Documented.fresh (h : Documented g v) : Fresh g (logInit v) where
  laid := by
    refine ⟨?_, ?_, ?_⟩
    · show (Super.load (v.sector 1)).size = _ ∧ (Super.load (v.sector 1)).ninodes = _
      rw [h.super]
      exact ⟨rfl, rfl⟩
    · show (Super.load (v.sector 1)).size - (Super.load (v.sector 1)).nlog = _
      rw [h.super]
      rfl
    · show ((Super.load (v.sector 1)).nlog : Int) = _
      rw [h.super]
  held := h.held
  metadata := h.metadata

namespace Fresh

theorem isData (h : Fresh g v) (hroom : ¬ OnlyLogFree g v) (hb : FirstFree g v b) : g.IsData b := by
  constructor
  · by_contra hlt
    have hmarked := h.metadata b (by omega)
    rw [hb.free] at hmarked
    exact Bool.noConfusion hmarked
  · by_contra hge
    exact hroom ⟨fun b' hb' => hb.least b' (by omega), b, hb.lt_size, hb.free⟩

theorem of_stored (h : Fresh g v) {x : Block} (hs : g.IsData b) (hstored : Stored g b x v v') :
    Fresh g v' where
  laid := h.laid.congr hstored.frame (hstored.below hs 1 g.super_lt)
  held := hstored.frame.held.trans h.held
  metadata b' hb' := by
    have hdata := g.data
    rw [marked_congr (hstored.below hs) (by omega)]
    exact h.metadata b' hb'

theorem of_marked (h : Fresh g v) {x : Bool} (hb : g.IsData b) (hmarked : Marked g b x v v') :
    Fresh g v' where
  laid := hmarked.laid h.laid
  held := hmarked.frame.held.trans h.held
  metadata b' hb' := by
    have hdata := g.data
    have hne : b' ≠ b := by
      rintro rfl
      exact absurd hb.1 (by omega)
    rw [hmarked.bits b' (by omega), if_neg hne]
    exact h.metadata b' hb'

end Fresh

/-! ## 3. Runs -/

/-- What holds between two calls: the owned blocks are data blocks and marked. -/
structure Owner.Inv (g : Geometry) (c : Owner) : Prop where
  fresh : Fresh g c.v
  nodup : c.owned.Nodup
  owned : ∀ b ∈ c.owned, g.IsData b ∧ g.marked c.v b = true

namespace Owner.Inv

variable {c c' : Owner}

theorem used (h : c.Inv g) (hb : b ∈ c.owned) : (c.v.files g).used b = true := by
  obtain ⟨hdata, hmarked⟩ := h.owned b hb
  rw [files_used g c.v hdata]
  exact hmarked

theorem alloc (h : c.Inv g) (hroom : ¬ OnlyLogFree g c.v) :
    wp blockAlloc (fun b v' => (g.IsData b ∧ b ∉ c.owned) ∧ Inv g ⟨v', b :: c.owned⟩) (Limits g)
      c.v := by
  apply wp_blockAlloc_first h.fresh.laid (holdsData_nil h.fresh.held)
    fun b hb => h.fresh.isData hroom hb
  intro b v₁ v₂ hfirst hmarked hzero
  have hdata := h.fresh.isData hroom hfirst
  have hnew : b ∉ c.owned := by
    intro hb
    have hset := (h.owned b hb).2
    rw [hfirst.free] at hset
    exact Bool.noConfusion hset
  have hbits : ∀ b', g.IsData b' → g.marked v₂ b' = if b' = b then true else g.marked c.v b' := by
    intro b' hb'
    have hlt := Geometry.IsData.lt_size g hb'
    rw [marked_congr (hzero.below hdata) hlt, hmarked.bits b' hlt]
  refine ⟨⟨hdata, hnew⟩, ?_⟩
  refine ⟨(h.fresh.of_marked hdata hmarked).of_stored hdata hzero,
    List.nodup_cons.mpr ⟨hnew, h.nodup⟩, fun b' hb' => ?_⟩
  rcases List.mem_cons.mp hb' with rfl | hb'
  · exact ⟨hdata, by rw [hbits _ hdata, if_pos rfl]⟩
  · obtain ⟨hdata', hset⟩ := h.owned b' hb'
    refine ⟨hdata', ?_⟩
    rw [hbits b' hdata', hset, ite_self]

theorem free (h : c.Inv g) (hb : b ∈ c.owned) :
    wp (blockFree b) (fun _ v' => Inv g ⟨v', c.owned.erase b⟩) (Limits g) c.v := by
  apply wp_blockFree_marked h.fresh.laid (holdsData_nil h.fresh.held) (h.used hb)
  intro v' hmarked
  obtain ⟨hdata, _⟩ := h.owned b hb
  refine ⟨h.fresh.of_marked hdata hmarked, h.nodup.erase b, fun b' hb' => ?_⟩
  obtain ⟨hne, hmem⟩ := (List.Nodup.mem_erase_iff h.nodup).mp hb'
  obtain ⟨hdata', hset⟩ := h.owned b' hmem
  rw [hmarked.bits b' (Geometry.IsData.lt_size g hdata'), if_neg hne]
  exact ⟨hdata', hset⟩

theorem setLog (h : c.Inv g) (logged : List Nat) (busy : Bool) :
    Inv g { c with v := { c.v with logged := logged, busy := busy } } :=
  ⟨⟨⟨h.fresh.laid.super, h.fresh.laid.start, h.fresh.laid.nlog⟩, h.fresh.held, h.fresh.metadata⟩,
    h.nodup, h.owned⟩

theorem perform (h : c.Inv g) {a : BlockCall} (hroom : a = .alloc → ¬ OnlyLogFree g c.v)
    (hstep : c.perform a = some c') : c'.Inv g := by
  unfold Owner.perform at hstep
  cases a with
  | begin =>
    dsimp only at hstep
    split at hstep
    case h_1 v hbegin =>
      obtain rfl := Option.some.inj hstep
      exact wp_ok (Q := fun _ v => Inv g { c with v := v })
        (wp_beginTrans (g := g) (h.setLog c.v.logged true)) hbegin
    case h_2 => contradiction
  | commit =>
    dsimp only at hstep
    split at hstep
    case h_1 v hcommit =>
      obtain rfl := Option.some.inj hstep
      exact wp_ok (Q := fun _ v => Inv g { c with v := v })
        (wp_commitTrans (g := g) h.fresh.held (h.setLog [] false)) hcommit
    case h_2 => contradiction
  | alloc =>
    dsimp only at hstep
    split at hstep
    case h_1 b v halloc =>
      obtain rfl := Option.some.inj hstep
      exact (wp_ok (h.alloc (hroom rfl)) halloc).2
    case h_2 => contradiction
  | free b =>
    dsimp only at hstep
    split at hstep
    case isTrue hb =>
      split at hstep
      case h_1 v hfree =>
        obtain rfl := Option.some.inj hstep
        exact wp_ok (h.free hb) hfree
      case h_2 => contradiction
    case isFalse => contradiction

end Owner.Inv

/-- **Allocation stays out of the log.**  In every run whose calls of `block_alloc` all find the
disk with a free block before the log, or with no free block at all: a call returns a data block
that is not owned, or ends in a full disk, log or cache or outside a transaction. -/
theorem alloc_outside_log {c : Owner} {past : List (Owner × BlockCall)}
    (hrun : Owner.Reaches g past c)
    (hroom : ∀ x ∈ past, x.2 = .alloc → ¬ OnlyLogFree g x.1.v) (hnow : ¬ OnlyLogFree g c.v) :
    wp blockAlloc (fun b _ => ¬ g.InLog b ∧ g.dataStart ≤ b ∧ b ∉ c.owned) (Limits g) c.v := by
  have hinv : c.Inv g := by
    apply Transition.Run.invariant_of (I := Owner.Inv g) (C := fun c a => a = .alloc →
      ¬ OnlyLogFree g c.v) _ _ hrun hroom
    · rintro c ⟨v, hv, rfl⟩
      exact ⟨hv.fresh, List.nodup_nil, fun b hb => absurd hb List.not_mem_nil⟩
    · exact fun c a c' h hC hstep => h.perform hC hstep
  apply wp_mono (hinv.alloc hnow) _ fun _ _ h => h
  rintro b v' ⟨⟨hdata, hnew⟩, _⟩
  exact ⟨Geometry.IsData.not_inLog g hdata, hdata.1, hnew⟩

def bitmapSector (bits : BitVec 32) : Nat → Block
  | 1 => (((Block.zeros.setWord 0 16).setWord 1 5).setWord 2 8).setWord 3 6
  | 4 => Block.zeros.setWord 0 bits
  | _ => Block.zeros

def bitmapVolume (bits : BitVec 32) : Volume where
  sector := bitmapSector bits
  held := []
  logged := []
  start := 0
  nlog := 0
  busy := false
  inode _ := idleEntry

def allocRun (bits : BitVec 32) (calls : List BlockCall) : List (Owner × BlockCall) × Owner :=
  Transition.replay Owner.perform [] ⟨logInit (bitmapVolume bits), []⟩ calls

theorem alloc_outside_log_second :
    (allocRun 0x1f [.begin, .alloc]).2.owned = [5] ∧
      wp blockAlloc (fun b _ => ¬ tiny.InLog b ∧ tiny.dataStart ≤ b ∧
        b ∉ (allocRun 0x1f [.begin, .alloc]).2.owned) (Limits tiny)
        (allocRun 0x1f [.begin, .alloc]).2.v :=
  ⟨by decide +kernel,
    alloc_outside_log (Transition.replay_run (fun _ _ _ h => h) _ _ _
      (Transition.Run.start ⟨bitmapVolume 0x1f, ⟨by decide +kernel, rfl, by decide +kernel⟩, rfl⟩))
      (by decide +kernel) (by decide +kernel)⟩

/-- All blocks before the log are in use: the header of the log is given away. -/
theorem alloc_returns_log :
    Documented tiny (bitmapVolume 0x3ff) ∧ (allocRun 0x3ff [.begin, .alloc]).2.owned = [10] ∧
      tiny.InLog 10 :=
  ⟨⟨by decide +kernel, rfl, by decide +kernel⟩, by decide +kernel, by decide, by decide⟩

end Vol

end MCertiKOS.Fs
