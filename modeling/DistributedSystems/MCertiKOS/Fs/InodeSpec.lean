import DistributedSystems.MCertiKOS.Fs.VolumeSpec

/-!
# What the inode functions do

`bmap` and the loops of `inode_read` and `inode_write`, and the copy of an inode to the disk, as
changes of the files.
-/

namespace MCertiKOS.Fs

open Fallible Function

/-! ## 1. Inodes on the disk -/

namespace Dinode

variable {n : Nat}

theorem word_foldl (d : Dinode) (b : Block) {w : Nat} (hw : w < 128) :
    ∀ m ≤ 16, ((List.range m).foldl (fun b k => b.setWord (16 * n + k) (d.toWord k)) b).word w =
      if 16 * n ≤ w ∧ w < 16 * n + m then d.toWord (w - 16 * n) else b.word w := by
  intro m
  induction m with
  | zero =>
    intro _
    rw [if_neg (by omega)]
    rfl
  | succ m ih =>
    intro hm
    rw [List.range_succ, List.foldl_append, List.foldl_cons, List.foldl_nil]
    by_cases he : w = 16 * n + m
    · rw [he, Block.word_setWord_same _ (by omega), if_pos (by omega)]
      congr 1
      omega
    · rw [Block.word_setWord_other _ hw he, ih (by omega)]
      by_cases hin : 16 * n ≤ w ∧ w < 16 * n + m
      · rw [if_pos hin, if_pos (by omega)]
      · rw [if_neg hin, if_neg (by omega)]

theorem word_store (d : Dinode) (b : Block) {w : Nat} (hw : w < 128) :
    (d.store n b).word w = if w / 16 = n then d.toWord (w % 16) else b.word w := by
  unfold store
  rw [word_foldl d b hw 16 (Nat.le_refl 16)]
  by_cases h : w / 16 = n
  · rw [if_pos (by omega), if_pos h]
    congr 1
    omega
  · rw [if_neg (by omega), if_neg h]

theorem low_append (a b : BitVec 16) : ((a ++ b : BitVec 32)).extractLsb' 0 16 = b := by
  apply BitVec.eq_of_getLsbD_eq
  intro i hi
  simp only [BitVec.getLsbD_extractLsb', BitVec.getLsbD_append]
  simp [hi]

theorem high_append (a b : BitVec 16) : ((a ++ b : BitVec 32)).extractLsb' 16 16 = a := by
  apply BitVec.eq_of_getLsbD_eq
  intro i hi
  simp only [BitVec.getLsbD_extractLsb', BitVec.getLsbD_append]
  simp [hi]

theorem load_store_same (d : Dinode) (hn : n < 8) (b : Block) : load (d.store n b) n = d := by
  have hword : ∀ k < 16, (d.store n b).word (16 * n + k) = d.toWord k := by
    intro k hk
    rw [word_store d b (by omega), if_pos (by omega)]
    congr 1
    omega
  have h0 := hword 0 (by omega)
  rw [Nat.add_zero] at h0
  unfold load
  rw [h0, hword 1 (by omega), hword 2 (by omega)]
  apply Dinode.ext
  · exact low_append _ _
  · exact high_append _ _
  · exact low_append _ _
  · exact high_append _ _
  · rfl
  · funext k
    show (d.store n b).word (16 * n + 3 + k.val) = d.addrs k
    rw [Nat.add_assoc, hword _ (by omega), Nat.add_comm 3 k.val]
    show (if h : k.val < 13 then d.addrs ⟨k.val, h⟩ else 0) = d.addrs k
    rw [dif_pos k.isLt]

theorem load_store_other (d : Dinode) {n' : Nat} (hn' : n' < 8) (hne : n' ≠ n) (b : Block) :
    load (d.store n b) n' = load b n' := by
  have hword : ∀ k < 16, (d.store n b).word (16 * n' + k) = b.word (16 * n' + k) := by
    intro k hk
    rw [word_store d b (by omega), if_neg (by omega)]
  have h0 := hword 0 (by omega)
  rw [Nat.add_zero] at h0
  unfold load
  rw [h0, hword 1 (by omega), hword 2 (by omega)]
  apply Dinode.ext
  · rfl
  · rfl
  · rfl
  · rfl
  · rfl
  · funext k
    show (d.store n b).word (16 * n' + 3 + k.val) = b.word (16 * n' + 3 + k.val)
    rw [Nat.add_assoc, hword _ (by omega)]

end Dinode

namespace Vol

variable {g : Geometry} {v v' : Volume} {i : Fin ninode}

/-! ## 2. The inode cache -/

structure Valid (g : Geometry) (v : Volume) (i : Fin ninode) : Prop where
  ref : 0 < (v.inode i).ref
  valid : (v.inode i).valid = true
  dev : (v.inode i).dev = rootDev
  inum : (v.inode i).inum < g.ninodes

theorem Valid.key (hi : Valid g v i) : (v.inode i).key = (rootDev, (v.inode i).inum) := by
  rw [← hi.dev]
  rfl

theorem Valid.congr (hi : Valid g v i) {d : Dinode} {busy : Bool}
    (h : v'.inode i = { v.inode i with d := d, busy := busy }) : Valid g v' i := by
  constructor <;> rw [h]
  · exact hi.ref
  · exact hi.valid
  · exact hi.dev
  · exact hi.inum

theorem cached_some {n : Nat} {j : Fin ninode} (h : v.cached n = some j) :
    0 < (v.inode j).ref ∧ (v.inode j).valid = true ∧ (v.inode j).key = (rootDev, n) := by
  have hp := List.find?_some h
  simpa using hp

theorem Valid.cached (hi : Valid g v i) (hv : Formatted g v) :
    v.cached (v.inode i).inum = some i := by
  cases hc : v.cached (v.inode i).inum with
  | none =>
    have hnot := List.find?_eq_none.mp hc i (List.mem_finRange i)
    simp [hi.ref, hi.valid, hi.key] at hnot
  | some j =>
    obtain ⟨href, _, hkey⟩ := cached_some hc
    rw [hv.unique j i href hi.ref (hkey.trans hi.key.symm)]

theorem Valid.current (hi : Valid g v i) (hv : Formatted g v) :
    v.current (v.inode i).inum = (v.inode i).d := by
  unfold Volume.current
  rw [hi.cached hv]

theorem Valid.files_inode (hi : Valid g v i) (hv : Formatted g v) :
    (v.files g).inode (v.inode i).inum = (v.inode i).d := by
  rw [Vol.files_inode g v hi.inum]
  exact hi.current hv

def withDinode (v : Volume) (i : Fin ninode) (d : Dinode) : Volume :=
  { v with inode := update v.inode i { v.inode i with d := d } }

theorem withDinode_self (v : Volume) (i : Fin ninode) (d : Dinode) :
    (withDinode v i d).inode i = { v.inode i with d := d } := update_self _ _ _

theorem withDinode_other (v : Volume) {j : Fin ninode} (d : Dinode) (h : j ≠ i) :
    (withDinode v i d).inode j = v.inode j := update_of_ne h _ _

@[simp] theorem wp_setDinode {f : Dinode → Dinode} {Q : PUnit → Volume → Prop}
    {R : Panic → Volume → Prop} :
    wp (setDinode i f) Q R v ↔ Q ⟨⟩ (withDinode v i (f (v.inode i).d)) := Iff.rfl

theorem withDinode_rest (v : Volume) (i j : Fin ninode) (d : Dinode) :
    ((withDinode v i d).inode j).ref = (v.inode j).ref ∧
      ((withDinode v i d).inode j).valid = (v.inode j).valid ∧
      ((withDinode v i d).inode j).key = (v.inode j).key := by
  by_cases h : j = i
  · rw [h, withDinode_self]
    exact ⟨rfl, rfl, rfl⟩
  · rw [withDinode_other v d h]
    exact ⟨rfl, rfl, rfl⟩

theorem withDinode_cached (v : Volume) (i : Fin ninode) (d : Dinode) (n : Nat) :
    (withDinode v i d).cached n = v.cached n := by
  unfold Volume.cached
  congr 1
  funext j
  obtain ⟨href, hvalid, hkey⟩ := withDinode_rest v i j d
  rw [href, hvalid, hkey]

theorem Formatted.withDinode (hv : Formatted g v) (i : Fin ninode) (d : Dinode) :
    Formatted g (withDinode v i d) where
  super := hv.super
  start := hv.start
  nlog := hv.nlog
  metadata := hv.metadata
  unique j k := by
    obtain ⟨href, _, hkey⟩ := withDinode_rest v i j d
    obtain ⟨href', _, hkey'⟩ := withDinode_rest v i k d
    rw [href, href', hkey, hkey']
    exact hv.unique j k

theorem files_withDinode (hv : Formatted g v) (hi : Valid g v i) (d : Dinode) :
    (withDinode v i d).files g = (v.files g).setInode (v.inode i).inum d := by
  apply files_eq
  · intro n hn
    show (withDinode v i d).current n = update (v.files g).inode (v.inode i).inum d n
    unfold Volume.current
    rw [withDinode_cached]
    by_cases he : n = (v.inode i).inum
    · rw [he, update_self, hi.cached hv]
      dsimp only
      rw [withDinode_self]
    · rw [update_of_ne he, Vol.files_inode g v hn]
      unfold Volume.current
      cases hc : v.cached n with
      | none => rfl
      | some j =>
        have hj : j ≠ i := by
          rintro rfl
          exact he (congrArg Prod.snd (cached_some hc).2.2).symm
        dsimp only
        rw [withDinode_other v d hj]
  · intro n hn
    have hne : n ≠ (v.inode i).inum := by
      rintro rfl
      exact hn hi.inum
    exact (update_of_ne hne _ _).trans (files_noInode g v hn)
  · exact fun b hb => (files_block g v hb).symm
  · exact fun b hb => files_noBlock g v hb
  · exact fun b hb => (files_used g v hb).symm
  · exact fun b hb => files_unused g v hb

structure InodeStored (g : Geometry) (n₀ : Nat) (d : Dinode) (v v' : Volume) : Prop where
  formatted : Formatted g v'
  frame : Frame v v'
  self : v'.dinode n₀ = d
  others : ∀ n < g.ninodes, n ≠ n₀ → v'.dinode n = v.dinode n
  marked : ∀ b < g.size, g.marked v' b = g.marked v b
  data : ∀ b, g.IsData b → v'.sector b = v.sector b

theorem Stored.inode {n₀ : Nat} {d : Dinode} (hv : Formatted g v) (hn : n₀ < g.ninodes)
    (h : Stored g (iblock n₀) (d.store (n₀ % ipb) (v.sector (iblock n₀))) v v') :
    InodeStored g n₀ d v v' := by
  have hplace : n₀ % ipb < 8 := Nat.mod_lt _ (by decide)
  have hmarked : ∀ b < g.size, g.marked v' b = g.marked v b := by
    intro b hb
    unfold Geometry.marked
    rw [h.others _ (g.iblock_ne_bblock hn b).symm (g.not_inLog (g.bblock_lt hb))]
  refine ⟨?_, h.frame, ?_, ?_, hmarked, ?_⟩
  · apply hv.congr h.frame
    · apply h.others 1 _ (g.not_inLog g.super_lt)
      unfold iblock ipb
      omega
    · intro b hb hd
      rw [hmarked b hb]
      exact hv.metadata b hb hd
  · unfold Volume.dinode
    rw [h.self]
    exact Dinode.load_store_same _ hplace _
  · intro n hn' hne
    unfold Volume.dinode
    by_cases hblock : iblock n = iblock n₀
    · rw [hblock, h.self]
      apply Dinode.load_store_other _ (Nat.mod_lt _ (by decide))
      intro hmod
      apply hne
      unfold iblock ipb at hblock
      unfold ipb at hmod
      omega
    · rw [h.others _ hblock (g.not_inLog (g.iblock_lt hn'))]
  · intro b hb
    apply h.others b _ (Geometry.IsData.not_inLog g hb)
    have hib := g.iblock_lt hn
    have hge := hb.1
    omega

theorem InodeStored.files_eq {n₀ : Nat} {d : Dinode} {f : Files} (h : InodeStored g n₀ d v v')
    (hinode : ∀ n < g.ninodes, v'.current n = f.inode n)
    (hnone : ∀ n, ¬ n < g.ninodes → f.inode n = Dinode.fresh 0)
    (hblock : f.block = (v.files g).block) (hused : f.used = (v.files g).used) :
    v'.files g = f := by
  apply Vol.files_eq hinode hnone
  · intro b hb
    rw [h.data b hb, hblock]
    exact (files_block g v hb).symm
  · intro b hb
    rw [hblock]
    exact files_noBlock g v hb
  · intro b hb
    rw [h.marked b (Geometry.IsData.lt_size g hb), hused]
    exact (files_used g v hb).symm
  · intro b hb
    rw [hused]
    exact files_unused g v hb

theorem wp_inodeUpdate {Q : Unit → Volume → Prop} (hv : Formatted g v) (hi : Valid g v i)
    (hheld : HoldsData g v)
    (hQ : ∀ v', Formatted g v' → Frame v v' → v'.files g = v.files g →
      v'.dinode (v.inode i).inum = (v.inode i).d →
      (∀ n < g.ninodes, n ≠ (v.inode i).inum → v'.dinode n = v.dinode n) → Q () v') :
    wp (inodeUpdate i) Q (Limits g) v := by
  have hib := g.iblock_lt hi.inum
  unfold inodeUpdate
  simp only [wp_bind, wp_get]
  apply wp_bufcacheRead (hheld.notMem hib)
  apply wp_storeRead hv.laid (g.not_inLog hib) hheld.notInLog
  intro v₁ hstored
  have h := hstored.inode hv hi.inum
  apply hQ v₁ h.formatted h.frame _ h.self h.others
  apply h.files_eq _ (fun n hn => files_noInode g v hn) rfl rfl
  intro n hn
  rw [Vol.files_inode g v hn]
  unfold Volume.current Volume.cached
  rw [h.frame.inode]
  by_cases he : n = (v.inode i).inum
  · have hc := hi.cached hv
    unfold Volume.cached at hc
    rw [he, hc]
  · rw [h.others n hn he]

/-! ## 3. `bmap` -/

/-- Between two states only the addresses of inode `i` in memory, data blocks, bitmap and log have
changed. -/
structure Moved (g : Geometry) (v v' : Volume) (i : Fin ninode) : Prop where
  formatted : Formatted g v'
  held : v'.held = v.held
  busy : v'.busy = v.busy
  others : ∀ j ≠ i, v'.inode j = v.inode j
  self : ∃ addrs, v'.inode i = { v.inode i with d := { (v.inode i).d with addrs := addrs } }
  dinode : ∀ n < g.ninodes, v'.dinode n = v.dinode n

theorem Moved.refl (hv : Formatted g v) (i : Fin ninode) : Moved g v v i :=
  ⟨hv, rfl, rfl, fun _ _ => rfl, ⟨(v.inode i).d.addrs, rfl⟩, fun _ _ => rfl⟩

theorem Moved.trans {v'' : Volume} (h : Moved g v v' i) (h' : Moved g v' v'' i) :
    Moved g v v'' i where
  formatted := h'.formatted
  held := h'.held.trans h.held
  busy := h'.busy.trans h.busy
  others j hj := (h'.others j hj).trans (h.others j hj)
  self := by
    obtain ⟨addrs, ha⟩ := h.self
    obtain ⟨addrs', ha'⟩ := h'.self
    refine ⟨addrs', ?_⟩
    rw [ha', ha]
  dinode n hn := (h'.dinode n hn).trans (h.dinode n hn)

theorem Moved.inum (h : Moved g v v' i) : (v'.inode i).inum = (v.inode i).inum := by
  obtain ⟨addrs, ha⟩ := h.self
  rw [ha]

theorem Moved.size (h : Moved g v v' i) : (v'.inode i).d.size = (v.inode i).d.size := by
  obtain ⟨addrs, ha⟩ := h.self
  rw [ha]

theorem Moved.valid (h : Moved g v v' i) (hi : Valid g v i) : Valid g v' i := by
  obtain ⟨addrs, ha⟩ := h.self
  exact hi.congr ha

structure Mapped (g : Geometry) (v v' : Volume) (i : Fin ninode) (s : Slot) (addr : Nat) :
    Prop where
  moved : Moved g v v' i
  grown : Grown (v.files g) (v'.files g) (v.inode i).inum
  slot : (v'.files g).slot ((v.inode i).inum, s) = addr
  pos : addr ≠ 0
  holds : HoldsData g v'
  same : (v.files g).slot ((v.inode i).inum, s) ≠ 0 → v'.inode = v.inode ∧ v'.files g = v.files g

structure Good (g : Geometry) (v : Volume) (i : Fin ninode) : Prop where
  formatted : Formatted g v
  valid : Valid g v i
  sound : (v.files g).Sound
  live : (v.files g).Live (v.inode i).inum

variable {addr : Nat}

theorem Mapped.good {s : Slot} (h : Mapped g v v' i s addr) (hv : Good g v i) : Good g v' i := by
  refine ⟨h.moved.formatted, h.moved.valid hv.valid, h.grown.sound hv.sound, ?_⟩
  rw [h.moved.inum]
  exact (h.grown.live _).mpr hv.live

theorem Mapped.uses {s : Slot} (h : Mapped g v v' i s addr) (hv : Good g v i) :
    (v'.files g).uses ((v.inode i).inum, s) addr :=
  ⟨(h.grown.live _).mpr hv.live, h.slot, h.pos⟩

theorem wp_bmapDirect {k : Fin 13} {Q : Nat → Volume → Prop} (hv : Good g v i)
    (hheld : HoldsData g v) (hQ : ∀ addr v', Mapped g v v' i (.addr k) addr → Q addr v') :
    wp (bmapDirect i k) Q (Limits g) v := by
  have hd := hv.valid.files_inode hv.formatted
  unfold bmapDirect
  rw [wp_bind, wp_get]
  split
  case isTrue hempty =>
    rw [wp_bind]
    apply wp_blockAlloc hv.formatted hheld
    intro b v₁ halloc
    rw [wp_bind, wp_setDinode, wp_pure]
    rw [← hd] at hempty
    have hlinked := linked_addr hv.sound hv.live hempty halloc.free
      (Geometry.IsData.pos g halloc.data) (Geometry.IsData.word g halloc.data)
    have hi₁ : Valid g v₁ i := hv.valid.congr (congrFun halloc.frame.inode i)
    obtain ⟨d, hdef⟩ : ∃ d, d = { (v₁.inode i).d with
        addrs := update (v₁.inode i).d.addrs k (BitVec.ofNat 32 b) } := ⟨_, rfl⟩
    have hd' : d = { (v.files g).inode (v.inode i).inum with
        addrs := update ((v.files g).inode (v.inode i).inum).addrs k (BitVec.ofNat 32 b) } := by
      rw [hdef, halloc.frame.inode, hd]
    have hfiles : (withDinode v₁ i d).files g =
        ((v.files g).claim b).setInode (v.inode i).inum d := by
      rw [files_withDinode halloc.formatted hi₁ d, halloc.files, halloc.frame.inode]
    rw [← hd', ← hfiles] at hlinked
    have hmoved : Moved g v (withDinode v₁ i d) i := by
      refine ⟨halloc.formatted.withDinode i d, halloc.frame.held, halloc.frame.busy, ?_, ?_,
        halloc.dinode⟩
      · intro j hj
        rw [withDinode_other v₁ d hj, halloc.frame.inode]
      · refine ⟨update (v.inode i).d.addrs k (BitVec.ofNat 32 b), ?_⟩
        rw [withDinode_self, hdef, halloc.frame.inode]
    rw [← hdef]
    refine hQ b (withDinode v₁ i d) ⟨hmoved, ?_, hlinked.slot_self, hlinked.pos, ?_, ?_⟩
    · apply hlinked.grown
      intro n hn
      rw [hfiles]
      exact update_of_ne hn _ _
    · intro t ht
      rw [hlinked.used]
      have ht' : t ∈ v.held := by
        rw [← halloc.frame.held]
        exact ht
      by_cases he : t = b
      · rw [he, update_self]
      · rw [update_of_ne he]
        exact hheld t ht'
    · exact fun hpos => absurd hlinked.empty hpos
  case isFalse hpos =>
    rw [wp_pure]
    have hslot : (v.files g).slot ((v.inode i).inum, .addr k) = ((v.inode i).d.addrs k).toNat := by
      show (((v.files g).inode (v.inode i).inum).addrs k).toNat = _
      rw [hd]
    exact hQ _ v ⟨Moved.refl hv.formatted i, Grown.refl _ _, hslot, Files.toNat_ne_zero hpos, hheld,
      fun _ => ⟨rfl, rfl⟩⟩

theorem Formatted.setHeld (hv : Formatted g v) (H : List Nat) : Formatted g { v with held := H } :=
  ⟨hv.super, hv.start, hv.nlog, hv.metadata, hv.unique⟩

theorem wp_bmapEntry {j : Fin 128} {Q : Nat → Volume → Prop} (hv : Good g v i)
    (hheld : HoldsData g v) (htable : (v.inode i).d.addrs indirect ≠ 0)
    (hfree : ((v.inode i).d.addrs indirect).toNat ∉ v.held)
    (hQ : ∀ addr v', Mapped g v v' i (.entry j) addr → Q addr v') :
    wp (bmapEntry ((v.inode i).d.addrs indirect).toNat j.val) Q (Limits g) v := by
  have hd := hv.valid.files_inode hv.formatted
  have htable' : ((v.files g).inode (v.inode i).inum).addrs indirect ≠ 0 := by
    rw [hd]
    exact htable
  obtain ⟨t, ht⟩ : ∃ t, t = ((v.inode i).d.addrs indirect).toNat := ⟨_, rfl⟩
  have huse : (v.files g).uses ((v.inode i).inum, .addr indirect) t := by
    rw [ht, ← hd]
    exact Files.uses_table hv.live htable'
  have hused : (v.files g).used t = true := hv.sound.backed _ _ huse
  have hdata : g.IsData t := isData_of_used hused
  have hslot : (v.files g).slot ((v.inode i).inum, .entry j) = ((v.sector t).word j.val).toNat := by
    show (v.files g).target ((v.files g).inode (v.inode i).inum) (.entry j) = _
    rw [Files.target_entry htable', hd, ← ht, files_block g v hdata]
  rw [← ht] at hfree ⊢
  unfold bmapEntry
  rw [wp_bind]
  apply wp_bufcacheRead hfree
  rw [wp_bind, wp_get]
  have hholds : HoldsData g { v with held := t :: v.held } := by
    intro t' ht'
    rcases List.mem_cons.mp ht' with rfl | hm
    · exact hused
    · exact hheld t' hm
  split
  case isTrue hempty =>
    rw [wp_bind]
    apply wp_blockAlloc (hv.formatted.setHeld _) hholds
    intro b v₂ halloc
    simp only [wp_bind]
    apply wp_writeBack (H := v.held) halloc.frame.held halloc.formatted.start halloc.formatted.nlog
      (Geometry.IsData.not_inLog g hdata) hheld.notInLog
    intro v₃ hstored
    rw [wp_pure]
    -- the table is not the new block
    have hfresh : (v.files g).used b = false := halloc.free
    have htb : t ≠ b := by
      rintro rfl
      rw [hused] at hfresh
      exact Bool.noConfusion hfresh
    have hfiles₂ : v₂.files g = (v.files g).claim b := halloc.files
    have hsector : v₂.sector t = (v.files g).block t := by
      rw [← files_block g v₂ hdata, hfiles₂]
      exact update_of_ne htb _ _
    have hfiles₃ : v₃.files g = ((v.files g).claim b).fill t
        (((v.files g).block t).setWord j.val (BitVec.ofNat 32 b)) := by
      rw [hstored.data hdata, ← hsector, ← hfiles₂]
      rfl
    have hempty' : ((v.files g).block (((v.files g).inode (v.inode i).inum).addrs indirect).toNat).word
        j.val = 0 := by
      rw [hd, ← ht, files_block g v hdata]
      exact hempty
    have hlinked := linked_entry hv.sound hv.live htable' hempty' hfresh
      (Geometry.IsData.pos g halloc.data) (Geometry.IsData.word g halloc.data)
    rw [hd, ← ht, ← hfiles₃] at hlinked
    have hinode : v₃.inode = v.inode := hstored.frame.inode.trans halloc.frame.inode
    have hmoved : Moved g v v₃ i := by
      refine ⟨hstored.data_formatted hdata (halloc.formatted.setHeld _), hstored.frame.held,
        hstored.frame.busy.trans halloc.frame.busy, fun _ _ => by rw [hinode],
        ⟨(v.inode i).d.addrs, by rw [hinode]⟩, ?_⟩
      exact fun n hn => (hstored.data_dinode hdata hn).trans (halloc.dinode n hn)
    apply hQ b v₃ ⟨hmoved, ?_, hlinked.slot_self, hlinked.pos, ?_,
      fun hpos => absurd hlinked.empty hpos⟩
    · apply hlinked.grown
      intro n _
      rw [hfiles₃]
      rfl
    · intro t' ht'
      rw [hmoved.held] at ht'
      rw [hlinked.used]
      by_cases he : t' = b
      · rw [he, update_self]
      · rw [update_of_ne he]
        exact hheld t' ht'
  case isFalse hpos =>
    rw [wp_bind]
    apply wp_bufcacheRelease rfl
    rw [wp_pure]
    exact hQ _ v ⟨Moved.refl hv.formatted i, Grown.refl _ _, hslot, Files.toNat_ne_zero hpos, hheld,
      fun _ => ⟨rfl, rfl⟩⟩

theorem wp_bmap {bn : Nat} {Q : Nat → Volume → Prop} (hv : Good g v i) (hheld : v.held = [])
    (hbn : bn < maxfile) (hQ : ∀ addr v', Mapped g v v' i (slotOf bn) addr → Q addr v') :
    wp (bmap i bn) Q (Limits g) v := by
  have hholds : HoldsData g v := by
    intro t ht
    rw [hheld] at ht
    exact absurd ht List.not_mem_nil
  unfold bmap
  split
  case isTrue hdirect =>
    have hslot : slotOf bn = .addr ⟨bn, Nat.lt_trans hdirect (by decide)⟩ := dif_pos hdirect
    rw [hslot] at hQ
    exact wp_bmapDirect hv hholds hQ
  case isFalse hdirect =>
    have hentry : bn - ndirect < nindirect := by
      unfold maxfile at hbn
      omega
    have hmod : (bn - ndirect) % 128 = bn - ndirect := Nat.mod_eq_of_lt hentry
    have hslot : slotOf bn = .entry ⟨bn - ndirect, hentry⟩ := by
      unfold slotOf
      rw [dif_neg hdirect]
      congr 1
      exact Fin.ext hmod
    rw [hslot] at hQ
    rw [if_pos hentry, wp_bind]
    apply wp_bmapDirect hv hholds
    intro table v₁ htable
    have hv₁ := htable.good hv
    have hd₁ := hv₁.valid.files_inode hv₁.formatted
    -- the address that was returned is the one in memory
    have hat : ((v₁.inode i).d.addrs indirect).toNat = table := by
      rw [← hd₁, htable.moved.inum]
      exact htable.slot
    have hne : (v₁.inode i).d.addrs indirect ≠ 0 := by
      intro hz
      rw [hz] at hat
      exact htable.pos hat.symm
    have hnone : ((v₁.inode i).d.addrs indirect).toNat ∉ v₁.held := by
      rw [htable.moved.held, hheld]
      exact List.not_mem_nil
    have hstep := wp_bmapEntry (j := ⟨bn - ndirect, hentry⟩) hv₁ htable.holds hne hnone
      (Q := Q) (fun addr v₂ hmapped => ?_)
    · rw [hat] at hstep
      exact hstep
    · have hinum := htable.moved.inum
      refine hQ addr v₂ ⟨htable.moved.trans hmapped.moved, ?_, ?_, hmapped.pos, hmapped.holds, ?_⟩
      · exact htable.grown.trans (hinum ▸ hmapped.grown)
      · rw [← hinum]
        exact hmapped.slot
      · intro hpos
        have hindirect : (v.files g).slot ((v.inode i).inum, .addr indirect) ≠ 0 := by
          intro hz
          apply hpos
          apply Files.target_entry_none
          exact BitVec.eq_of_toNat_eq hz
        obtain ⟨hinode, hfiles⟩ := htable.same hindirect
        have hpos' : (v₁.files g).slot ((v₁.inode i).inum, .entry ⟨bn - ndirect, hentry⟩) ≠ 0 := by
          rw [hfiles, hinum]
          exact hpos
        obtain ⟨hinode', hfiles'⟩ := hmapped.same hpos'
        exact ⟨hinode'.trans hinode, hfiles'.trans hfiles⟩

/-! ## 4. Reading -/

theorem slice_eq {off m : Nat} (hdata : g.IsData addr) {inum : Nat}
    (hslot : (v.files g).slot (inum, slotOf (off / bsize)) = addr) (hpos : addr ≠ 0)
    (hm : off % bsize + m ≤ bsize) :
    (v.sector addr).slice (off % bsize) m =
      (List.range m).map fun k => (v.files g).byte inum (off + k) := by
  apply List.map_congr_left
  intro k hk
  have hk' : k < m := List.mem_range.mp hk
  have hblock : (off + k) / bsize = off / bsize := by
    unfold bsize at hm ⊢
    omega
  have hplace : (off + k) % bsize = off % bsize + k := by
    unfold bsize at hm ⊢
    omega
  unfold Files.byte
  rw [hblock, hslot, if_neg hpos, hplace, files_block g v hdata]

theorem range_append_map {α : Type} (h : Nat → α) (m n : Nat) :
    (List.range (m + n)).map h = (List.range m).map h ++ (List.range n).map fun k => h (m + k) := by
  rw [List.range_add, List.map_append, List.map_map]
  rfl

structure Fetched (g : Geometry) (v v' : Volume) (i : Fin ninode) (off len : Nat) : Prop where
  moved : Moved g v v' i
  grown : Grown (v.files g) (v'.files g) (v.inode i).inum
  same : (∀ p, off ≤ p → p < off + len →
      (v.files g).slot ((v.inode i).inum, slotOf (p / bsize)) ≠ 0) →
    v'.inode = v.inode ∧ v'.files g = v.files g

theorem Fetched.refl (hv : Formatted g v) (i : Fin ninode) (off len : Nat) :
    Fetched g v v i off len :=
  ⟨Moved.refl hv i, Grown.refl _ _, fun _ => ⟨rfl, rfl⟩⟩

variable {src : List UInt8} {v₁ : Volume} {devsw : Devsw} {off n : BitVec 32}

theorem Fetched.after_mapped {off m len : Nat} (hpos : 0 < m + len)
    (hmapped : Mapped g v v₁ i (slotOf (off / bsize)) addr) (h : Fetched g v₁ v' i (off + m) len) :
    Fetched g v v' i off (m + len) := by
  have hinum := hmapped.moved.inum
  refine ⟨hmapped.moved.trans h.moved, hmapped.grown.trans (hinum ▸ h.grown), ?_⟩
  intro hpresent
  obtain ⟨hinode, hfiles⟩ := hmapped.same (hpresent off (Nat.le_refl _) (by omega))
  obtain ⟨hinode', hfiles'⟩ := h.same fun p hle hlt => by
    rw [hfiles, hinum]
    exact hpresent p (by omega) (by omega)
  exact ⟨hinode'.trans hinode, hfiles'.trans hfiles⟩

theorem wp_readLoop :
    ∀ fuel off left v, Good g v i → v.held = [] → left ≤ fuel → off + left ≤ maxfile * bsize →
      wp (readLoop i fuel off left) (fun bytes v' => Fetched g v v' i off left ∧
          bytes = (List.range left).map fun k => (v.files g).byte (v.inode i).inum (off + k))
        (Limits g) v := by
  intro fuel
  induction fuel with
  | zero =>
    intro off left v hv _ hfuel _
    obtain rfl : left = 0 := by omega
    exact ⟨Fetched.refl hv.formatted i off 0, rfl⟩
  | succ fuel ih =>
    intro off left v hv hheld hfuel hend
    unfold readLoop
    split
    case isTrue hzero =>
      subst hzero
      exact ⟨Fetched.refl hv.formatted i off 0, rfl⟩
    case isFalse hpos =>
      have hmod : off % bsize < bsize := Nat.mod_lt _ (by decide)
      obtain ⟨m, hm⟩ : ∃ m, m = min left (bsize - off % bsize) := ⟨_, rfl⟩
      have hbn : off / bsize < maxfile := by
        unfold bsize at hend ⊢
        omega
      rw [wp_bind]
      apply wp_bmap hv hheld hbn
      intro addr v₁ hmapped
      have hv₁ := hmapped.good hv
      have hheld₁ : v₁.held = [] := hmapped.moved.held.trans hheld
      have hdata := isData_of_used (hv₁.sound.backed _ _ (hmapped.uses hv))
      rw [wp_bind]
      apply wp_bufcacheRead (by rw [hheld₁]; exact List.not_mem_nil)
      rw [wp_bind, wp_get, wp_bind]
      apply wp_bufcacheRelease rfl
      rw [wp_bind, ← hm]
      have hrest := ih (off + m) (left - m) v₁ hv₁ hheld₁ (by omega) (by omega)
      apply wp_mono hrest
      · rintro rest v₂ ⟨hfetched, hbytes⟩
        rw [hmapped.moved.inum] at hbytes
        have hleft : left = m + (left - m) := by omega
        constructor
        · rw [hleft]
          exact hfetched.after_mapped (by omega) hmapped
        · -- this block, and then the rest
          have hslice := slice_eq (m := m) hdata hmapped.slot hmapped.pos (by omega)
          have hbyte : ∀ p, (v₁.files g).byte (v.inode i).inum p =
              (v.files g).byte (v.inode i).inum p := fun p => hmapped.grown.byte _ p hv.live
          rw [hslice, hbytes]
          rw [hleft, range_append_map, show m + (left - m) - m = left - m by omega]
          simp only [hbyte, Nat.add_assoc]
      · exact fun _ _ h => h

def readSpec (c : List UInt8) (off n : BitVec 32) : Int × List UInt8 :=
  if c.length < off.toNat ∨ 2 ^ 32 ≤ off.toNat + n.toNat then (-1, [])
  else (((c.drop off.toNat).take n.toNat).length, (c.drop off.toNat).take n.toNat)

theorem add_overflows (off n : BitVec 32) : off + n < off ↔ 2 ^ 32 ≤ off.toNat + n.toNat := by
  have h1 := off.isLt
  have h2 := n.isLt
  rw [BitVec.lt_def, BitVec.toNat_add]
  omega

theorem toInt_small (h : n.toNat ≤ maxfile * bsize) : n.toInt = n.toNat := by
  have hnum : maxfile * bsize = 71680 := rfl
  rw [hnum] at h
  apply BitVec.toInt_eq_toNat_of_lt
  omega

theorem take_drop_contents (f : Files) (inum off m : Nat)
    (h : off + m ≤ (f.inode inum).size.toNat) :
    ((f.contents inum).drop off).take m = (List.range m).map fun k => f.byte inum (off + k) := by
  apply List.ext_getElem?
  intro k
  rw [List.getElem?_take, List.getElem?_drop, Files.getElem?_contents, List.getElem?_map]
  by_cases hk : k < m
  · rw [if_pos hk, if_pos (by omega), List.getElem?_range hk]
    rfl
  · rw [if_neg hk, List.getElem?_eq_none (by rw [List.length_range]; omega)]
    rfl

theorem wp_inodeRead (hv : Good g v i) (hheld : v.held = []) (hfile : (v.inode i).d.type ≠ tDev)
    (hsize : (v.inode i).d.size.toNat ≤ maxfile * bsize) :
    wp (inodeRead devsw i off n) (fun r v' => Fetched g v v' i 0 (v.inode i).d.size.toNat ∧
        r = readSpec ((v.files g).contents (v.inode i).inum) off n) (Limits g) v := by
  have hd := hv.valid.files_inode hv.formatted
  have hlen : ((v.files g).contents (v.inode i).inum).length = (v.inode i).d.size.toNat := by
    rw [Files.length_contents, hd]
  unfold inodeRead
  rw [wp_bind, wp_get, if_neg hfile]
  unfold readSpec
  rw [hlen]
  split
  case isTrue hbad =>
    rw [wp_pure, if_pos]
    · exact ⟨Fetched.refl hv.formatted i _ _, rfl⟩
    · rcases hbad with hlt | hover
      · exact Or.inl (BitVec.lt_def.mp hlt)
      · exact Or.inr ((add_overflows off n).mp hover)
  case isFalse hok =>
    obtain ⟨hle, hover⟩ := not_or.mp hok
    have hle' : off.toNat ≤ (v.inode i).d.size.toNat := Nat.not_lt.mp fun h => hle (BitVec.lt_def.mpr h)
    have hsum : off.toNat + n.toNat < 2 ^ 32 :=
      Nat.not_le.mp fun h => hover ((add_overflows off n).mpr h)
    have haccept : ¬ ((v.inode i).d.size.toNat < off.toNat ∨ 2 ^ 32 ≤ off.toNat + n.toNat) := by
      omega
    simp only [if_neg haccept]
    -- the number of bytes, cut at the end of the file
    obtain ⟨m, hmdef⟩ : ∃ m, m = if off + n > (v.inode i).d.size then (v.inode i).d.size - off else n :=
      ⟨_, rfl⟩
    have hm : m.toNat = min n.toNat ((v.inode i).d.size.toNat - off.toNat) := by
      have hadd : (off + n).toNat = off.toNat + n.toNat := by
        rw [BitVec.toNat_add]
        omega
      rw [hmdef]
      split
      case isTrue hgt =>
        have hgt' := BitVec.lt_def.mp hgt
        rw [BitVec.toNat_sub_of_le (BitVec.le_def.mpr hle')]
        omega
      case isFalse hngt =>
        have hngt' : ¬ (v.inode i).d.size.toNat < (off + n).toNat := fun h => hngt (BitVec.lt_def.mpr h)
        omega
    rw [← hmdef, wp_bind]
    apply wp_mono (wp_readLoop m.toNat off.toNat m.toNat v hv hheld (Nat.le_refl _) (by omega))
    · rintro bytes v' ⟨hfetched, hbytes⟩
      have hall : Fetched g v v' i 0 (v.inode i).d.size.toNat :=
        ⟨hfetched.moved, hfetched.grown,
          fun hpresent => hfetched.same fun p _ hlt => hpresent p (by omega) (by omega)⟩
      refine ⟨hall, ?_⟩
      have htake : (((v.files g).contents (v.inode i).inum).drop off.toNat).take n.toNat = bytes := by
        rw [hbytes, ← take_drop_contents _ _ _ _ (by rw [hd]; omega), hm]
        by_cases hcut : n.toNat ≤ (v.inode i).d.size.toNat - off.toNat
        · rw [Nat.min_eq_left hcut]
        · have hrest : (((v.files g).contents (v.inode i).inum).drop off.toNat).length =
              (v.inode i).d.size.toNat - off.toNat := by
            rw [List.length_drop, hlen]
          rw [Nat.min_eq_right (by omega), List.take_of_length_le (by omega),
            List.take_of_length_le (by omega)]
      have hcount : bytes.length = m.toNat := by
        rw [hbytes, List.length_map, List.length_range]
      rw [htake, hcount, toInt_small (by omega)]
    · exact fun _ _ h => h

/-! ## 5. Writing -/

theorem Stored.moved {a : Nat} {x : Block} (h : Stored g a x v v') (ha : g.IsData a)
    (hv : Formatted g v) : Moved g v v' i where
  formatted := h.data_formatted ha hv
  held := h.frame.held
  busy := h.frame.busy
  others j _ := by rw [h.frame.inode]
  self := ⟨(v.inode i).d.addrs, by rw [h.frame.inode]⟩
  dinode _ hn := h.data_dinode ha hn

structure Written (g : Geometry) (v v' : Volume) (i : Fin ninode) (off : Nat) (src : List UInt8) :
    Prop where
  moved : Moved g v v' i
  spliced : Spliced (v.files g) (v'.files g) (v.inode i).inum off src
  same : (∀ p, off ≤ p → p < off + src.length →
    (v.files g).slot ((v.inode i).inum, slotOf (p / bsize)) ≠ 0) → v'.inode = v.inode

theorem Written.good {off : Nat} (h : Written g v v' i off src) (hv : Good g v i) :
    Good g v' i := by
  refine ⟨h.moved.formatted, h.moved.valid hv.valid, h.spliced.sound hv.sound, ?_⟩
  rw [h.moved.inum]
  exact (h.spliced.live _).mpr hv.live

theorem written_block {off : Nat} (hv : Good g v i)
    (hmapped : Mapped g v v₁ i (slotOf (off / bsize)) addr)
    (hstored : Stored g addr (Block.splice (off % bsize) src (v₁.sector addr)) v₁ v')
    (hoff : off < maxfile * bsize) (hpos : 0 < src.length) (hfit : off % bsize + src.length ≤ bsize) :
    Written g v v' i off src := by
  have hv₁ := hmapped.good hv
  have huse := hmapped.uses hv
  have hdata := isData_of_used (hv₁.sound.backed _ _ huse)
  have hfiles : v'.files g = (v₁.files g).fill addr
      (Block.splice (off % bsize) src ((v₁.files g).block addr)) := by
    rw [hstored.data hdata, files_block g v₁ hdata]
  refine ⟨hmapped.moved.trans (hstored.moved hdata hmapped.moved.formatted), ?_, ?_⟩
  · rw [hfiles]
    exact Spliced.after_grown hmapped.grown
      (spliced_fill hv₁.sound huse.1 hoff hmapped.slot hmapped.pos hfit)
  · intro hpresent
    rw [hstored.frame.inode]
    exact (hmapped.same (hpresent off (Nat.le_refl _) (by omega))).1

theorem Written.append {off : Nat} {src' : List UInt8} (hv : Good g v i)
    (h : Written g v v₁ i off src) (h' : Written g v₁ v' i (off + src.length) src') :
    Written g v v' i off (src ++ src') := by
  have hinum := h.moved.inum
  refine ⟨h.moved.trans h'.moved, h.spliced.append (hinum ▸ h'.spliced) hv.live, ?_⟩
  intro hpresent
  rw [List.length_append] at hpresent
  have hfirst := h.same fun p hle hlt => hpresent p hle (by omega)
  rw [h'.same, hfirst]
  intro p hle hlt
  rw [hinum]
  have hp := hpresent p (by omega) (by omega)
  rw [h.spliced.slot _ hv.live hp]
  exact hp

theorem wp_writeLoop :
    ∀ fuel off src v, Good g v i → v.held = [] → src.length ≤ fuel →
      off + src.length ≤ maxfile * bsize →
      wp (writeLoop i fuel off src)
        (fun last v' => last = off + src.length ∧ Written g v v' i off src) (Limits g) v := by
  intro fuel
  induction fuel with
  | zero =>
    intro off src v hv _ hfuel _
    obtain rfl := List.length_eq_zero_iff.mp (Nat.le_zero.mp hfuel)
    exact ⟨rfl, Moved.refl hv.formatted i, Spliced.nil _ _ _, fun _ => rfl⟩
  | succ fuel ih =>
    intro off src v hv hheld hfuel hend
    unfold writeLoop
    split
    case isTrue hzero =>
      obtain rfl := List.length_eq_zero_iff.mp hzero
      exact ⟨rfl, Moved.refl hv.formatted i, Spliced.nil _ _ _, fun _ => rfl⟩
    case isFalse hpos =>
      have hmod : off % bsize < bsize := Nat.mod_lt _ (by decide)
      obtain ⟨m, hm⟩ : ∃ m, m = min src.length (bsize - off % bsize) := ⟨_, rfl⟩
      have hbn : off / bsize < maxfile := by
        unfold bsize at hend ⊢
        omega
      have htake : (src.take m).length = m := by
        rw [List.length_take]
        omega
      rw [wp_bind, ← hm]
      apply wp_bmap hv hheld hbn
      intro addr v₁ hmapped
      have hv₁ := hmapped.good hv
      have hheld₁ : v₁.held = [] := hmapped.moved.held.trans hheld
      have hdata := isData_of_used (hv₁.sound.backed _ _ (hmapped.uses hv))
      simp only [wp_bind]
      apply wp_bufcacheRead (by rw [hheld₁]; exact List.not_mem_nil)
      apply wp_storeRead hmapped.moved.formatted.laid (Geometry.IsData.not_inLog g hdata)
        hmapped.holds.notInLog
      intro v₂ hstored
      have hround : Written g v v₂ i off (src.take m) :=
        written_block hv hmapped hstored (by omega) (by omega) (by omega)
      have hrest := ih (off + m) (src.drop m) v₂ (hround.good hv)
        (hround.moved.held.trans hheld) (by rw [List.length_drop]; omega)
        (by rw [List.length_drop]; omega)
      apply wp_mono hrest
      · rintro last v₃ ⟨hlast, hwritten⟩
        rw [List.length_drop] at hlast
        have happend := hround.append hv (by rw [htake]; exact hwritten)
        rw [List.take_append_drop] at happend
        exact ⟨by omega, happend⟩
      · exact fun _ _ h => h

structure Saved (g : Geometry) (v v' : Volume) (i : Fin ninode) (off : Nat) (src : List UInt8) :
    Prop where
  formatted : Formatted g v'
  held : v'.held = v.held
  busy : v'.busy = v.busy
  others : ∀ j ≠ i, v'.inode j = v.inode j
  self : ∃ addrs size,
    v'.inode i = { v.inode i with d := { (v.inode i).d with addrs := addrs, size := size } }
  files : ∃ f size, Spliced (v.files g) f (v.inode i).inum off src ∧
    v'.files g = f.resize (v.inode i).inum size ∧
    size.toNat = max (v.inode i).d.size.toNat (off + src.length)
  dinode : ∀ n < g.ninodes, n ≠ (v.inode i).inum → v'.dinode n = v.dinode n
  /-- If no block is missing, the inode is on the disk as it is in memory. -/
  synced : v.dinode (v.inode i).inum = (v.inode i).d →
    (∀ p < (v.inode i).d.size.toNat, (v.files g).slot ((v.inode i).inum, slotOf (p / bsize)) ≠ 0) →
    v'.dinode (v.inode i).inum = (v'.inode i).d

theorem wp_grow {off : Nat} (hv : Good g v i) (hheld : v.held = []) (h : Written g v v₁ i off src)
    (hoff : off ≤ (v.inode i).d.size.toNat) (hend : off + src.length ≤ maxfile * bsize) :
    wp (grow i src.length (off + src.length)) (fun _ v' => Saved g v v' i off src) (Limits g) v₁ := by
  have hv₁ := h.good hv
  have hinum := h.moved.inum
  have hsize := h.moved.size
  have hd := hv₁.valid.files_inode hv₁.formatted
  rw [hinum] at hd
  obtain ⟨addrs, haddrs⟩ := h.moved.self
  unfold grow
  rw [wp_bind, wp_get, hsize]
  split
  case isTrue hgrow =>
    have hword : (BitVec.ofNat 32 (off + src.length)).toNat = off + src.length := by
      have hnum : maxfile * bsize = 71680 := rfl
      rw [BitVec.toNat_ofNat]
      omega
    rw [wp_bind, wp_setDinode]
    obtain ⟨d, hdef⟩ : ∃ d : Dinode, d = { (v₁.inode i).d with
        size := BitVec.ofNat 32 (off + src.length) } := ⟨_, rfl⟩
    rw [← hdef]
    have hvalid : Valid g (withDinode v₁ i d) i := hv₁.valid.congr (withDinode_self v₁ i d)
    have hholds : HoldsData g (withDinode v₁ i d) := by
      intro t ht
      have ht' : t ∈ v₁.held := ht
      rw [h.moved.held, hheld] at ht'
      exact absurd ht' List.not_mem_nil
    have hnum : ((withDinode v₁ i d).inode i).inum = (v.inode i).inum := by
      rw [withDinode_self]
      exact hinum
    apply wp_inodeUpdate (hv₁.formatted.withDinode i d) hvalid hholds
    intro v' hformatted hframe hfiles hdisk hothers
    rw [hnum] at hdisk hothers
    have hself : v'.inode i = { v.inode i with d := { (v.inode i).d with
        addrs := addrs, size := BitVec.ofNat 32 (off + src.length) } } := by
      rw [hframe.inode, withDinode_self, hdef, haddrs]
    refine ⟨hformatted, hframe.held.trans h.moved.held, hframe.busy.trans h.moved.busy, ?_,
      ⟨_, _, hself⟩, ?_, ?_, ?_⟩
    · intro j hj
      rw [hframe.inode, withDinode_other v₁ d hj, h.moved.others j hj]
    · refine ⟨v₁.files g, BitVec.ofNat 32 (off + src.length), h.spliced, ?_, by omega⟩
      rw [hfiles, files_withDinode hv₁.formatted hv₁.valid d, hinum, hdef, ← hd]
      rfl
    · intro n hn hne
      rw [hothers n hn hne]
      exact h.moved.dinode n hn
    · intro _ _
      rw [hdisk, hframe.inode]
  case isFalse hkeep =>
    have hinside : off + src.length ≤ (v.inode i).d.size.toNat := by omega
    refine ⟨hv₁.formatted, h.moved.held, h.moved.busy, h.moved.others,
      ⟨addrs, (v.inode i).d.size, haddrs⟩, ?_, fun n hn _ => h.moved.dinode n hn, ?_⟩
    · refine ⟨v₁.files g, (v.inode i).d.size, h.spliced, ?_, by omega⟩
      have hself := (v₁.files g).resize_self (v.inode i).inum
      rw [hd, hsize] at hself
      exact hself.symm
    · -- all blocks of the store lie below the size, so none was new
      intro hsync hpresent
      have hsame := h.same fun p _ hlt => hpresent p (by omega)
      rw [h.moved.dinode _ hv.valid.inum, hsync, hsame]

/-- `inode_write` refuses an offset behind the end and an end that is out of range. -/
def Refused (size off n : Nat) : Prop :=
  size < off ∨ 2 ^ 32 ≤ off + n ∨ maxfile * bsize < off + n

instance (size off n : Nat) : Decidable (Refused size off n) :=
  inferInstanceAs (Decidable (_ ∨ _ ∨ _))

theorem inodeWrite_refused (hfile : (v.inode i).d.type ≠ tDev)
    (h : Refused (v.inode i).d.size.toNat off.toNat n.toNat) :
    (inodeWrite devsw i src off n).run v = .ok (-1) v := by
  show (if (v.inode i).d.type = tDev then _ else _ : FsV Int) v = _
  rw [if_neg hfile]
  split
  case isTrue => rfl
  case isFalse hok =>
    obtain ⟨hle, hover⟩ := not_or.mp hok
    have hsum : off.toNat + n.toNat < 2 ^ 32 :=
      Nat.not_le.mp fun hc => hover ((add_overflows off n).mpr hc)
    have hle' : ¬ (v.inode i).d.size.toNat < off.toNat := fun hc => hle (BitVec.lt_def.mpr hc)
    have hadd : (off + n).toNat = off.toNat + n.toNat := by
      rw [BitVec.toNat_add]
      omega
    rw [if_pos]
    · rfl
    · unfold Refused at h
      omega

theorem wp_inodeWrite (hv : Good g v i) (hheld : v.held = []) (hfile : (v.inode i).d.type ≠ tDev)
    (hsrc : src.length = n.toNat) (h : ¬ Refused (v.inode i).d.size.toNat off.toNat n.toNat) :
    wp (inodeWrite devsw i src off n) (fun r v' => r = n.toNat ∧ Saved g v v' i off.toNat src)
      (Limits g) v := by
  unfold Refused at h
  have hadd : (off + n).toNat = off.toNat + n.toNat := by
    rw [BitVec.toNat_add]
    omega
  unfold inodeWrite
  rw [wp_bind, wp_get, if_neg hfile, if_neg, if_neg (by omega), wp_bind]
  · apply wp_mono (wp_writeLoop n.toNat off.toNat src v hv hheld (by omega) (by omega))
    · rintro last v₁ ⟨rfl, hwritten⟩
      rw [wp_bind, ← hsrc]
      apply wp_mono (wp_grow hv hheld hwritten (by omega) (by omega))
      · intro _ v' hsaved
        exact ⟨by rw [hsrc]; exact toInt_small (by omega), hsaved⟩
      · exact fun _ _ h => h
    · exact fun _ _ h => h
  · rintro (hlt | hover)
    · exact h (Or.inl (BitVec.lt_def.mp hlt))
    · exact h (Or.inr (Or.inl ((add_overflows off n).mp hover)))

end Vol

end MCertiKOS.Fs
