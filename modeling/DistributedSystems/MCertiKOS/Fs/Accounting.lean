import DistributedSystems.MCertiKOS.Fs.Contents
import DistributedSystems.MCertiKOS.Fs.Truncation

/-!
# Disk block accounting

Every data block that is marked in the bitmap is referenced by one slot of one allocated inode, and
every referenced block is marked, whatever inodes are allocated, written, linked, unlinked and put.
Between two operations a valid inode in memory is the one on the disk, so references that are only in
memory exist within one operation alone.
-/

namespace MCertiKOS.Fs

open Fallible Ownership Function

variable {f f' : Files} {inum : Nat}

/-! ## 1. Inodes without blocks -/

namespace Files

def Present (f : Files) : Prop :=
  ∀ n, f.Live n → (f.inode n).size.toNat ≤ maxfile * bsize ∧
    ∀ p < (f.inode n).size.toNat, f.slot (n, slotOf (p / bsize)) ≠ 0

theorem slot_bare (h : (f.inode inum).addrs = fun _ => 0) (s : Slot) : f.slot (inum, s) = 0 := by
  cases s with
  | addr k =>
    show ((f.inode inum).addrs k).toNat = 0
    rw [h]
    rfl
  | entry j => exact target_entry_none (by rw [h]) j

section Bare

variable {d : Dinode} (hbefore : ∀ s x, ¬ f.uses (inum, s) x) (hafter : d.addrs = fun _ => 0)

include hbefore hafter

theorem uses_setInode_bare (u : Nat × Slot) (x : Nat) :
    (f.setInode inum d).uses u x ↔ f.uses u x := by
  obtain ⟨n, s⟩ := u
  by_cases h : n = inum
  · subst h
    constructor
    · rintro ⟨_, hslot, hpos⟩
      have hself : (f.setInode n d).inode n = d := update_self _ _ _
      rw [slot_bare (by rw [hself]; exact hafter) s] at hslot
      exact absurd hslot.symm hpos
    · exact fun hu => absurd hu (hbefore s x)
  · have hother : (f.setInode inum d).inode n = f.inode n := update_of_ne h _ _
    unfold uses Live
    rw [slot_other s hother rfl, hother]

theorem Sound.setInode_bare (hf : f.Sound) : (f.setInode inum d).Sound :=
  Exclusive.shrink hf (fun u x hu => (uses_setInode_bare hbefore hafter u x).mp hu)
    fun _ _ _ hx => hx

theorem Covered.setInode_bare (hf : f.Covered) : (f.setInode inum d).Covered := by
  intro x hx
  obtain ⟨u, hu⟩ := hf x hx
  exact ⟨u, (uses_setInode_bare hbefore hafter u x).mpr hu⟩

end Bare

theorem Present.setInode_bare {d : Dinode} (hsize : d.type ≠ 0 → d.size = 0) (hf : f.Present) :
    (f.setInode inum d).Present := by
  intro n hn
  by_cases h : n = inum
  · subst h
    have hself : (f.setInode n d).inode n = d := update_self _ _ _
    unfold Live at hn
    rw [hself] at hn ⊢
    have hzero : d.size.toNat = 0 := by
      rw [hsize hn]
      rfl
    exact ⟨by omega, fun p hp => by omega⟩
  · have hother : (f.setInode inum d).inode n = f.inode n := update_of_ne h _ _
    unfold Live at hn
    rw [hother] at hn ⊢
    refine ⟨(hf n hn).1, ?_⟩
    intro p hp
    rw [slot_other _ hother rfl]
    exact (hf n hn).2 p hp

/-- No inode is freed or truncated. -/
structure Keeps (f f' : Files) : Prop where
  live : ∀ n, f.Live n → f'.Live n
  size : ∀ n, f.Live n → (f.inode n).size.toNat ≤ (f'.inode n).size.toNat
  slot : ∀ u, f.Live u.1 → f.slot u ≠ 0 → f'.slot u = f.slot u

theorem keeps_of_eq (h : f' = f) : f.Keeps f' := by
  rw [h]
  exact ⟨fun _ hn => hn, fun _ _ => Nat.le_refl _, fun _ _ _ => rfl⟩

theorem Keeps.trans {f'' : Files} (h : f.Keeps f') (h' : f'.Keeps f'') : f.Keeps f'' where
  live n hn := h'.live n (h.live n hn)
  size n hn := Nat.le_trans (h.size n hn) (h'.size n (h.live n hn))
  slot u hu hpos := by
    have hslot := h.slot u hu hpos
    rw [h'.slot u (h.live u.1 hu) (by rw [hslot]; exact hpos), hslot]

theorem keeps_setInode_dead {d : Dinode} (h : ¬ f.Live inum) : f.Keeps (f.setInode inum d) := by
  have hother : ∀ n, f.Live n → (f.setInode inum d).inode n = f.inode n := by
    intro n hn
    have hne : n ≠ inum := by
      rintro rfl
      exact h hn
    exact update_of_ne hne _ _
  refine ⟨fun n hn => ?_, fun n hn => ?_, fun u hu _ => slot_other u.2 (hother u.1 hu) rfl⟩
  · unfold Live
    rw [hother n hn]
    exact hn
  · exact Nat.le_of_eq (by rw [hother n hn])

end Files

theorem SameSlots.keeps (h : SameSlots f f')
    (hsize : ∀ n, (f.inode n).size.toNat ≤ (f'.inode n).size.toNat) : f.Keeps f' where
  live n hn := (h.live n).mpr hn
  size n _ := hsize n
  slot u _ _ := h.slot u

namespace Vol

variable {g : Geometry} {v v' : Volume} {i : Fin ninode}

/-! ## 2. The invariant -/

/-- An entry of the inode cache that is referenced; if it is valid, it is the inode on the disk. -/
structure EntryOk (g : Geometry) (v : Volume) (ip : Inode) : Prop where
  inum : ip.dev = rootDev → ip.inum < g.ninodes
  dev : ip.valid = true → ip.dev = rootDev
  disk : ip.valid = true → v.dinode ip.inum = ip.d
  typed : ip.valid = true → ip.d.type ≠ 0
  locked : ip.busy = true → ip.valid = true

structure Accounted (g : Geometry) (v : Volume) : Prop where
  formatted : Formatted g v
  sound : (v.files g).Sound
  covered : (v.files g).Covered
  present : (v.files g).Present
  held : v.held = []
  cache : ∀ i, 0 < (v.inode i).ref → EntryOk g v (v.inode i)

theorem current_eq (h : ∀ i, 0 < (v.inode i).ref → EntryOk g v (v.inode i)) (n : Nat) :
    v.current n = v.dinode n := by
  unfold Volume.current
  cases hc : v.cached n with
  | none => rfl
  | some j =>
    obtain ⟨href, hvalid, hkey⟩ := cached_some hc
    rw [← show (v.inode j).inum = n from congrArg Prod.snd hkey]
    exact ((h j href).disk hvalid).symm

variable {devsw : Devsw} {n : Nat} {ip : Inode} {type : BitVec 16}

theorem Accounted.inode (hv : Accounted g v) (hn : n < g.ninodes) :
    (v.files g).inode n = v.dinode n := by
  rw [files_inode g v hn]
  exact current_eq hv.cache n

theorem files_recache (h : ∀ i, 0 < (v.inode i).ref → EntryOk g v (v.inode i))
    (h' : ∀ i, 0 < (v'.inode i).ref → EntryOk g v' (v'.inode i)) (hsector : v'.sector = v.sector) :
    v'.files g = v.files g := by
  apply files_eq
  · intro n hn
    rw [files_inode g v hn, current_eq h n, current_eq h' n]
    unfold Volume.dinode
    rw [hsector]
  · exact fun n hn => files_noInode g v hn
  · intro b hb
    rw [hsector]
    exact (files_block g v hb).symm
  · exact fun b hb => files_noBlock g v hb
  · intro b hb
    unfold Geometry.marked
    rw [hsector]
    exact (files_used g v hb).symm
  · exact fun b hb => files_unused g v hb

def setEntry (v : Volume) (i : Fin ninode) (ip : Inode) : Volume :=
  { v with inode := update v.inode i ip }

theorem setEntry_self (v : Volume) (i : Fin ninode) (ip : Inode) :
    (setEntry v i ip).inode i = ip := update_self _ _ _

theorem setEntry_other (v : Volume) {j : Fin ninode} (ip : Inode) (h : j ≠ i) :
    (setEntry v i ip).inode j = v.inode j := update_of_ne h _ _

theorem setEntry_setEntry (v : Volume) (i : Fin ninode) (ip ip' : Inode) :
    setEntry (setEntry v i ip) i ip' = setEntry v i ip' := by
  unfold setEntry
  rw [update_idem]

@[simp] theorem wp_setInode {h : Inode → Inode} {Q : PUnit → Volume → Prop}
    {R : Panic → Volume → Prop} :
    wp (setInode i h) Q R v ↔ Q ⟨⟩ (setEntry v i (h (v.inode i))) := Iff.rfl

theorem Formatted.setEntry (hv : Formatted g v)
    (hip : 0 < ip.ref → ∀ j ≠ i, 0 < (v.inode j).ref → (v.inode j).key ≠ ip.key) :
    Formatted g (setEntry v i ip) where
  super := hv.super
  start := hv.start
  nlog := hv.nlog
  metadata := hv.metadata
  unique j k hj hk he := by
    by_cases hji : j = i
    · by_cases hki : k = i
      · rw [hji, hki]
      · rw [hji, setEntry_self] at hj he
        rw [setEntry_other v ip hki] at hk he
        exact absurd he.symm (hip hj k hki hk)
    · rw [setEntry_other v ip hji] at hj he
      by_cases hki : k = i
      · rw [hki, setEntry_self] at hk he
        exact absurd he (hip hk j hji hj)
      · rw [setEntry_other v ip hki] at hk he
        exact hv.unique j k hj hk he

theorem Accounted.setEntry (hv : Accounted g v) (hip : 0 < ip.ref → EntryOk g v ip ∧
      ∀ j ≠ i, 0 < (v.inode j).ref → (v.inode j).key ≠ ip.key) :
    Accounted g (setEntry v i ip) := by
  have hcache : ∀ j, 0 < ((Vol.setEntry v i ip).inode j).ref →
      EntryOk g (Vol.setEntry v i ip) ((Vol.setEntry v i ip).inode j) := by
    intro j hj
    by_cases hji : j = i
    · rw [hji, setEntry_self] at hj ⊢
      have hok := (hip hj).1
      exact ⟨hok.inum, hok.dev, hok.disk, hok.typed, hok.locked⟩
    · rw [setEntry_other v ip hji] at hj ⊢
      have hok := hv.cache j hj
      exact ⟨hok.inum, hok.dev, hok.disk, hok.typed, hok.locked⟩
  have hfiles : (Vol.setEntry v i ip).files g = v.files g := files_recache hv.cache hcache rfl
  refine ⟨hv.formatted.setEntry fun h => (hip h).2, ?_, ?_, ?_, hv.held, hcache⟩
  · rw [hfiles]
    exact hv.sound
  · rw [hfiles]
    exact hv.covered
  · rw [hfiles]
    exact hv.present

theorem Accounted.touch (hv : Accounted g v) (hkey : ip.key = (v.inode i).key)
    (hvalid : ip.valid = (v.inode i).valid) (hd : ip.d = (v.inode i).d)
    (href : 0 < ip.ref → 0 < (v.inode i).ref)
    (hbusy : ip.busy = true → (v.inode i).busy = true ∨ ip.valid = true) :
    Accounted g (Vol.setEntry v i ip) := by
  apply hv.setEntry
  intro hpos
  have hok := hv.cache i (href hpos)
  have hdev : ip.dev = (v.inode i).dev := congrArg Prod.fst hkey
  have hinum : ip.inum = (v.inode i).inum := congrArg Prod.snd hkey
  constructor
  · refine ⟨by rw [hdev, hinum]; exact hok.inum, by rw [hvalid, hdev]; exact hok.dev, ?_, ?_, ?_⟩
    · rw [hinum, hvalid, hd]
      exact hok.disk
    · rw [hvalid, hd]
      exact hok.typed
    · intro hb
      rcases hbusy hb with hold | hnew
      · rw [hvalid]
        exact hok.locked hold
      · exact hnew
  · intro j hj hrefj he
    exact hj (hv.formatted.unique j i hrefj (href hpos) (he.trans hkey))

/-! ## 3. The inode cache -/

/-- Entry `i` counts `n` references more, and no entry in use changes its inode. -/
structure Recounted (i : Fin ninode) (n : Int) (v v' : Volume) : Prop where
  key : 0 < (v.inode i).ref → (v'.inode i).key = (v.inode i).key
  ref : (v'.inode i).ref = (v.inode i).ref + n
  others : ∀ j ≠ i, v'.inode j = v.inode j

theorem recounted_same (i : Fin ninode) (h : v'.inode = v.inode) : Recounted i 0 v v' :=
  ⟨fun _ => by rw [h], by rw [h, Int.add_zero], fun _ _ => by rw [h]⟩

theorem recounted_setEntry {n : Int} (hkey : 0 < (v.inode i).ref → ip.key = (v.inode i).key)
    (href : ip.ref = (v.inode i).ref + n) : Recounted i n v (setEntry v i ip) where
  key := by
    rw [setEntry_self]
    exact hkey
  ref := by
    rw [setEntry_self]
    exact href
  others _ hj := setEntry_other v ip hj

/-- A call that changes the count of entry `i` by `n` and frees no inode. -/
structure Handled (g : Geometry) (i : Fin ninode) (n : Int) (v v' : Volume) : Prop where
  accounted : Accounted g v'
  table : Recounted i n v v'
  kept : (v.files g).Keeps (v'.files g)

theorem Accounted.handled {n : Int} (hv : Accounted g v) (hv' : Accounted g (Vol.setEntry v i ip))
    (hkey : 0 < (v.inode i).ref → ip.key = (v.inode i).key)
    (href : ip.ref = (v.inode i).ref + n) : Handled g i n v (Vol.setEntry v i ip) :=
  ⟨hv', recounted_setEntry hkey href, Files.keeps_of_eq (files_recache hv.cache hv'.cache rfl)⟩

theorem Accounted.recount {r n : Int} (hv : Accounted g v) (hi : 0 < (v.inode i).ref)
    (hr : r = (v.inode i).ref + n) : Handled g i n v (Vol.setEntry v i { v.inode i with ref := r }) :=
  hv.handled (hv.touch rfl rfl rfl (fun _ => hi) fun hb => Or.inl hb) (fun _ => rfl) hr

theorem Handled.after {n : Int} {v₁ : Volume} (h : Handled g i n v₁ v') (hinode : v₁.inode = v.inode)
    (hkept : (v.files g).Keeps (v₁.files g)) : Handled g i n v v' := by
  refine ⟨h.accounted, ⟨?_, ?_, ?_⟩, hkept.trans h.kept⟩ <;> rw [← hinode]
  · exact h.table.key
  · exact h.table.ref
  · exact h.table.others

/-- The panics that no sequence of operations reaches are `freeing free block`, `bmap: out of range`
and `brelse`. -/
def Ends (p : Panic) (_ : Volume) : Prop :=
  p ≠ .freeingFree ∧ p ≠ .outOfRange ∧ p ≠ .notHeld

theorem Limits.ends {p : Panic} (h : Limits g p v) : Ends p v := by
  cases p <;> first | exact h.elim | exact ⟨by decide, by decide, by decide⟩

theorem wp_ends {α : Type} {m : FsV α} {Q : α → Volume → Prop} (h : wp m Q (Limits g) v) :
    wp m Q Ends v :=
  wp_mono h (fun _ _ hQ => hQ) fun _ _ hR => hR.ends

theorem wp_storeRead_ends {s : Nat} {Q : Unit → Volume → Prop} {f : Block → Block}
    (hv : Formatted g v) (hs : ¬ g.InLog s) (hheld : v.held = [])
    (hQ : ∀ v', Stored g s (f (v.sector s)) v v' → Q () v') :
    wp (modifyData s f) (fun _ v₁ => wp (logWrite s)
      (fun _ v₂ => wp (bufcacheRelease s) Q Ends v₂) Ends v₁) Ends
      { v with held := s :: v.held } := by
  simp only [← wp_bind]
  apply wp_ends (g := g)
  simp only [wp_bind]
  exact wp_storeRead hv.laid hs (holdsData_nil hheld).notInLog hQ

theorem wp_inodeGet {dev : BitVec 32} (hn : dev = rootDev → n < g.ninodes) (hv : Accounted g v) :
    wp (inodeGet dev n) (fun i v' => Handled g i 1 v v') Ends v := by
  unfold inodeGet
  rw [wp_bind, wp_get]
  split
  case h_1 i hfound =>
    have hi := List.find?_some hfound
    simp only [decide_eq_true_eq] at hi
    rw [wp_bind, wp_setInode, wp_pure]
    exact hv.handled (hv.touch rfl rfl rfl (fun _ => hi.1) fun hb => Or.inl hb) (fun _ => rfl) rfl
  case h_2 hnone =>
    split
    case h_1 i hfree =>
      have hzero := List.find?_some hfree
      simp only [decide_eq_true_eq] at hzero
      rw [wp_bind, wp_setInode, wp_pure]
      refine hv.handled (hv.setEntry fun _ => ?_) (fun hpos => absurd hpos (by omega))
        (by rw [hzero]; rfl)
      refine ⟨⟨hn, fun hc => Bool.noConfusion hc, fun hc => Bool.noConfusion hc,
        fun hc => Bool.noConfusion hc, fun hc => Bool.noConfusion hc⟩, ?_⟩
      intro j _ hj he
      have hother := List.find?_eq_none.mp hnone j (List.mem_finRange j)
      simp only [decide_eq_true_eq, not_and] at hother
      exact hother hj he
    case h_2 => exact ⟨by decide, by decide, by decide⟩

theorem wp_inodeFill {ip : Inode} {Q : Unit → Volume → Prop} {R : Panic → Volume → Prop}
    (hheld : v.held = []) (hR : nbuf ≤ v.pinned → R .noBuffers (setEntry v i ip))
    (hnone : (v.dinode ip.inum).type = 0 →
      R .noType (setEntry v i { ip with d := v.dinode ip.inum, valid := true }))
    (hQ : (v.dinode ip.inum).type ≠ 0 →
      Q () (setEntry v i { ip with d := v.dinode ip.inum, valid := true })) :
    wp (inodeFill i) Q R (setEntry v i ip) := by
  unfold inodeFill
  rw [wp_bind, wp_get, setEntry_self, wp_bind]
  apply wp_bufcacheRead_or
  · show iblock ip.inum ∉ v.held
    rw [hheld]
    exact List.not_mem_nil
  · exact fun _ => hR
  rw [wp_bind, wp_setInode, wp_bind]
  apply wp_bufcacheRelease rfl
  -- the entry as it is now
  have hread : setEntry (setEntry v i ip) i { (setEntry v i ip).inode i with
      d := v.dinode ip.inum } = setEntry v i { ip with d := v.dinode ip.inum } := by
    rw [setEntry_setEntry, setEntry_self]
  show wp _ _ R (setEntry (setEntry v i ip) i { (setEntry v i ip).inode i with
    d := v.dinode ip.inum })
  rw [hread, wp_bind, wp_setInode, setEntry_setEntry, setEntry_self, wp_bind, wp_get, setEntry_self]
  split
  case isTrue hzero => exact hnone hzero
  case isFalse htype => exact hQ htype

theorem wp_inodeLock (hv : Accounted g v) (hdev : (v.inode i).dev = rootDev) :
    wp (inodeLock i) (fun _ v' => Handled g i 0 v v') Ends v := by
  unfold inodeLock
  rw [wp_bind, wp_get]
  split
  case isTrue => exact ⟨by decide, by decide, by decide⟩
  case isFalse href =>
    split
    case isTrue => exact ⟨by decide, by decide, by decide⟩
    case isFalse =>
      have hpos : 0 < (v.inode i).ref := by omega
      rw [wp_bind, wp_setInode]
      split
      case isTrue hvalid =>
        rw [wp_pure]
        exact hv.handled (hv.touch rfl rfl rfl (fun h => h) fun _ => Or.inr hvalid) (fun _ => rfl)
          (Int.add_zero _).symm
      case isFalse =>
        have hok := hv.cache i hpos
        refine wp_inodeFill hv.held (fun _ => ⟨by decide, by decide, by decide⟩)
          (fun _ => ⟨by decide, by decide, by decide⟩) fun htype =>
            hv.handled (hv.setEntry fun _ => ?_) (fun _ => rfl) (Int.add_zero _).symm
        refine ⟨⟨hok.inum, fun _ => hdev, fun _ => rfl, fun _ => htype, fun _ => rfl⟩, ?_⟩
        exact fun j hj hrefj he => hj (hv.formatted.unique j i hrefj hpos he)

theorem wp_inodeUnlock (hv : Accounted g v) :
    wp (inodeUnlock i) (fun _ v' => Handled g i 0 v v') Ends v := by
  unfold inodeUnlock
  rw [wp_bind, wp_get]
  split
  case isTrue => exact ⟨by decide, by decide, by decide⟩
  case isFalse =>
    rw [wp_setInode]
    exact hv.handled (hv.touch rfl rfl rfl (fun h => h) fun hb => Bool.noConfusion hb) (fun _ => rfl)
      (Int.add_zero _).symm

/-! ## 4. Allocation of inodes -/

theorem Accounted.allocated (hv : Accounted g v) (hn : n < g.ninodes)
    (hfree : (v.dinode n).type = 0) (h : InodeStored g n (Dinode.fresh type) v v') :
    Accounted g v' ∧ (v.files g).Keeps (v'.files g) := by
  -- no valid entry of the cache has this number
  have hcache : ∀ j, 0 < (v'.inode j).ref → EntryOk g v' (v'.inode j) := by
    rw [h.frame.inode]
    intro j hj
    have hok := hv.cache j hj
    refine ⟨hok.inum, hok.dev, ?_, hok.typed, hok.locked⟩
    intro hvalid
    have hne : (v.inode j).inum ≠ n := by
      intro he
      apply hok.typed hvalid
      rw [← hok.disk hvalid, he]
      exact hfree
    rw [h.others _ (hok.inum (hok.dev hvalid)) hne]
    exact hok.disk hvalid
  have hfiles : v'.files g = (v.files g).setInode n (Dinode.fresh type) := by
    apply h.files_eq (f := (v.files g).setInode n (Dinode.fresh type)) _ _ rfl rfl
    · intro m hm
      rw [current_eq hcache m]
      show _ = update (v.files g).inode n (Dinode.fresh type) m
      by_cases he : m = n
      · rw [he, update_self, h.self]
      · rw [update_of_ne he, h.others m hm he, hv.inode hm]
    · intro m hm
      have hne : m ≠ n := by
        rintro rfl
        exact hm hn
      exact (update_of_ne hne _ _).trans (files_noInode g v hm)
  have hdead : ¬ (v.files g).Live n := by
    unfold Files.Live
    rw [hv.inode hn]
    exact fun h => h hfree
  have hunused : ∀ s x, ¬ (v.files g).uses (n, s) x := fun s x hu => hdead hu.1
  refine ⟨⟨h.formatted, ?_, ?_, ?_, h.frame.held.trans hv.held, hcache⟩, ?_⟩ <;> rw [hfiles]
  · exact hv.sound.setInode_bare hunused rfl
  · exact hv.covered.setInode_bare hunused rfl
  · exact hv.present.setInode_bare fun _ => rfl
  · exact Files.keeps_setInode_dead hdead

theorem wp_inodeAllocFrom (hv : Accounted g v) :
    ∀ m n, n + m ≤ g.ninodes →
      wp (inodeAllocFrom type m n) (fun i v' => Handled g i 1 v v') Ends v := by
  intro m
  induction m with
  | zero =>
    intro n _
    exact ⟨by decide, by decide, by decide⟩
  | succ m ih =>
    intro n hn
    have hlt : n < g.ninodes := by omega
    have hib := g.iblock_lt hlt
    have hnone : iblock n ∉ v.held := by
      rw [hv.held]
      exact List.not_mem_nil
    unfold inodeAllocFrom
    rw [wp_bind]
    apply wp_ends (g := g)
    apply wp_bufcacheRead hnone
    rw [wp_bind, wp_get]
    split
    case isTrue hfree =>
      simp only [wp_bind]
      apply wp_storeRead_ends hv.formatted (g.not_inLog hib) hv.held
      intro v₁ hstored
      obtain ⟨hv₁, hkept⟩ := hv.allocated hlt hfree (hstored.inode hv.formatted hlt)
      apply wp_mono (wp_inodeGet (fun _ => hlt) hv₁) _ fun _ _ h => h
      exact fun _ _ h => h.after hstored.frame.inode hkept
    case isFalse =>
      rw [wp_bind]
      apply wp_ends (g := g)
      apply wp_bufcacheRelease rfl
      exact ih (n + 1) (by omega)

theorem wp_inodeAlloc (hv : Accounted g v) :
    wp (inodeAlloc type) (fun i v' => Handled g i 1 v v') Ends v := by
  unfold inodeAlloc
  rw [wp_bind]
  apply wp_ends (g := g)
  apply wp_readSuperblock hv.formatted.laid
  · rw [hv.held]
    exact List.not_mem_nil
  · intro sb _ hninodes
    by_cases hzero : g.ninodes = 0
    · rw [hninodes, hzero]
      exact ⟨by decide, by decide, by decide⟩
    · exact wp_inodeAllocFrom hv _ 1 (by omega)

/-! ## 5. Reading, writing and linking -/

def Holding (v : Volume) (i : Fin ninode) : Prop :=
  0 < (v.inode i).ref ∧ (v.inode i).busy = true ∧ (v.inode i).d.type ≠ tDev

instance (v : Volume) (i : Fin ninode) : Decidable (Holding v i) :=
  inferInstanceAs (Decidable (_ ∧ _ ∧ _))

theorem Accounted.valid (hv : Accounted g v) (hi : Holding v i) : Valid g v i := by
  have hok := hv.cache i hi.1
  have hdev := hok.dev (hok.locked hi.2.1)
  exact ⟨hi.1, hok.locked hi.2.1, hdev, hok.inum hdev⟩

theorem Accounted.good (hv : Accounted g v) (hi : Valid g v i) : Good g v i := by
  refine ⟨hv.formatted, hi, hv.sound, ?_⟩
  unfold Files.Live
  rw [hi.files_inode hv.formatted]
  exact (hv.cache i hi.ref).typed hi.valid

theorem Accounted.presentSelf (hv : Accounted g v) (hi : Valid g v i) :
    (v.inode i).d.size.toNat ≤ maxfile * bsize ∧ ∀ p < (v.inode i).d.size.toNat,
      (v.files g).slot ((v.inode i).inum, slotOf (p / bsize)) ≠ 0 := by
  have h := hv.present _ (hv.good hi).live
  rw [hi.files_inode hv.formatted] at h
  exact h

theorem Accounted.cacheOthers (hv : Accounted g v) (hi : Valid g v i)
    (hothers : ∀ j ≠ i, v'.inode j = v.inode j)
    (hdisk : ∀ n < g.ninodes, n ≠ (v.inode i).inum → v'.dinode n = v.dinode n) {j : Fin ninode}
    (hj : j ≠ i) (hpos : 0 < (v'.inode j).ref) : EntryOk g v' (v'.inode j) := by
  rw [hothers j hj] at hpos ⊢
  have hok := hv.cache j hpos
  refine ⟨hok.inum, hok.dev, ?_, hok.typed, hok.locked⟩
  intro hvalid
  have hdev := hok.dev hvalid
  rw [hdisk _ (hok.inum hdev) fun he => hj (hv.formatted.unique j i hpos hi.ref
    (Prod.ext (hdev.trans hi.dev.symm) he))]
  exact hok.disk hvalid

theorem wp_read_accounted {off n : BitVec 32} (hv : Accounted g v) (hi : Holding v i) :
    wp (inodeRead devsw i off n) (fun _ v' => Handled g i 0 v v') Ends v := by
  have hvalid := hv.valid hi
  obtain ⟨hsize, hpresent⟩ := hv.presentSelf hvalid
  apply wp_ends (g := g)
  apply wp_mono (wp_inodeRead (hv.good hvalid) hv.held hi.2.2 hsize) _ fun _ _ h => h
  rintro _ v' ⟨hfetched, _⟩
  -- no block is missing, so none was allocated
  obtain ⟨hinode, hfiles⟩ := hfetched.same fun p _ hlt => hpresent p (by omega)
  refine ⟨?_, recounted_same i hinode, Files.keeps_of_eq hfiles⟩
  refine ⟨hfetched.moved.formatted, ?_, ?_, ?_, hfetched.moved.held.trans hv.held, ?_⟩
  · rw [hfiles]
    exact hv.sound
  · rw [hfiles]
    exact hv.covered
  · rw [hfiles]
    exact hv.present
  · rw [hinode]
    intro j hj
    have hok := hv.cache j hj
    refine ⟨hok.inum, hok.dev, ?_, hok.typed, hok.locked⟩
    intro hvalid
    rw [hfetched.moved.dinode _ (hok.inum (hok.dev hvalid))]
    exact hok.disk hvalid

theorem Saved.accounted {off : Nat} {src : List UInt8} (h : Saved g v v' i off src)
    (hv : Accounted g v) (hi : Valid g v i) (hoff : off ≤ (v.inode i).d.size.toNat)
    (hend : off + src.length ≤ maxfile * bsize) : Accounted g v' := by
  obtain ⟨f, size, hspliced, hfiles, hsize⟩ := h.files
  have hslots := f.resize_sameSlots (v.inode i).inum size
  have hlive := (hv.good hi).live
  obtain ⟨hle, hpresent⟩ := hv.presentSelf hi
  refine ⟨h.formatted, ?_, ?_, ?_, h.held.trans hv.held, ?_⟩
  · rw [hfiles]
    exact hslots.sound (hspliced.sound hv.sound)
  · rw [hfiles]
    exact hslots.covered (hspliced.covered hv.covered)
  · rw [hfiles]
    intro n hn
    have hn' : (v.files g).Live n := (hspliced.live n).mp ((hslots.live n).mp hn)
    by_cases he : n = (v.inode i).inum
    · subst he
      rw [Files.inode_resize_self]
      refine ⟨by show size.toNat ≤ _; omega, ?_⟩
      intro p hp
      have hp' : p < max (v.inode i).d.size.toNat (off + src.length) := by
        rw [← hsize]
        exact hp
      rw [hslots.slot]
      -- a block below the old size is still there, the others were stored
      by_cases hold : p < (v.inode i).d.size.toNat
      · rw [hspliced.slot _ hlive (hpresent p hold)]
        exact hpresent p hold
      · exact hspliced.present p (by omega) (by omega)
    · rw [Files.inode_resize_other _ _ he, hspliced.size]
      refine ⟨(hv.present n hn').1, ?_⟩
      intro p hp
      have hpos := (hv.present n hn').2 p hp
      rw [hslots.slot, hspliced.slot _ hn' hpos]
      exact hpos
  · intro j hpos
    by_cases hj : j = i
    · subst hj
      have hok := hv.cache j hi.ref
      have hsynced := h.synced (hok.disk hi.valid) hpresent
      obtain ⟨addrs, size', hself⟩ := h.self
      rw [hself] at hsynced ⊢
      exact ⟨hok.inum, hok.dev, fun _ => hsynced, hok.typed, hok.locked⟩
    · exact hv.cacheOthers hi h.others h.dinode hj hpos

theorem Saved.handled {off : Nat} {src : List UInt8} (h : Saved g v v' i off src)
    (hv' : Accounted g v') (hi : Valid g v i) (hv : Formatted g v) : Handled g i 0 v v' := by
  obtain ⟨f, size, hspliced, hfiles, hsize⟩ := h.files
  have hslots := f.resize_sameSlots (v.inode i).inum size
  refine ⟨hv', ⟨?_, ?_, h.others⟩, ?_⟩
  · obtain ⟨addrs, size', hself⟩ := h.self
    rw [hself]
    exact fun _ => rfl
  · obtain ⟨addrs, size', hself⟩ := h.self
    rw [hself]
    exact (Int.add_zero _).symm
  · rw [hfiles]
    have hspliceKeeps : (v.files g).Keeps f :=
      ⟨fun n hn => (hspliced.live n).mpr hn, fun n _ => Nat.le_of_eq (by rw [hspliced.size]),
        hspliced.slot⟩
    apply hspliceKeeps.trans (hslots.keeps _)
    intro n
    by_cases he : n = (v.inode i).inum
    · rw [he, Files.inode_resize_self, hspliced.size, hi.files_inode hv]
      show (v.inode i).d.size.toNat ≤ size.toNat
      omega
    · exact Nat.le_of_eq (by rw [Files.inode_resize_other _ _ he])

theorem wp_write_accounted {off n : BitVec 32} {src : List UInt8} (hsrc : src.length = n.toNat)
    (hv : Accounted g v) (hi : Holding v i) :
    wp (inodeWrite devsw i src off n) (fun _ v' => Handled g i 0 v v') Ends v := by
  have hvalid := hv.valid hi
  by_cases hrefused : Refused (v.inode i).d.size.toNat off.toNat n.toNat
  · unfold wp
    rw [show inodeWrite devsw i src off n v = .ok (-1) v from inodeWrite_refused hi.2.2 hrefused]
    exact ⟨hv, recounted_same i rfl, Files.keeps_of_eq rfl⟩
  · apply wp_ends (g := g)
    apply wp_mono (wp_inodeWrite (hv.good hvalid) hv.held hi.2.2 hsrc hrefused) _ fun _ _ h => h
    rintro _ v' ⟨_, hsaved⟩
    unfold Refused at hrefused
    exact hsaved.handled (hsaved.accounted hv hvalid (by omega) (by omega)) hvalid hv.formatted

/-- `ip->nlink = nlink; inode_update(ip);` -/
def setNlink (i : Fin ninode) (nlink : BitVec 16) : FsV Unit := do
  setDinode i fun d => { d with nlink := nlink }
  inodeUpdate i

theorem wp_setNlink {nlink : BitVec 16} (hv : Accounted g v) (hi : Holding v i) :
    wp (setNlink i nlink) (fun _ v' => Handled g i 0 v v') Ends v := by
  have hvalid := hv.valid hi
  have hd := hvalid.files_inode hv.formatted
  obtain ⟨d, hdef⟩ : ∃ d : Dinode, d = { (v.inode i).d with nlink := nlink } := ⟨_, rfl⟩
  unfold setNlink
  rw [wp_bind, wp_setDinode, ← hdef]
  have hfiles := files_withDinode hv.formatted hvalid d
  have hslots : SameSlots (v.files g) ((withDinode v i d).files g) := by
    rw [hfiles]
    apply sameSlots_setInode
    · rw [hd, hdef]
    · rw [hd, hdef]
  have hsize : ∀ n, (((withDinode v i d).files g).inode n).size = ((v.files g).inode n).size := by
    intro n
    rw [hfiles]
    by_cases he : n = (v.inode i).inum
    · subst he
      refine (congrArg Dinode.size (update_self _ _ _)).trans ?_
      rw [hd, hdef]
    · exact congrArg Dinode.size (update_of_ne he _ _)
  have hinum : ((withDinode v i d).inode i).inum = (v.inode i).inum :=
    congrArg Prod.snd (withDinode_rest v i i d).2.2
  have hself : ((withDinode v i d).inode i).d = d := by rw [withDinode_self]
  apply wp_ends (g := g)
  apply wp_inodeUpdate (hv.formatted.withDinode i d) (hvalid.withDinode d) (holdsData_nil hv.held)
  intro v' hv' hframe hfiles' hdisk hothers
  rw [hinum] at hdisk hothers
  have htable : Recounted i 0 v (withDinode v i d) := recounted_setEntry (fun _ => rfl)
    (Int.add_zero _).symm
  refine ⟨?_, ⟨?_, ?_, ?_⟩, ?_⟩
  rotate_left
  · rw [hframe.inode]
    exact htable.key
  · rw [hframe.inode]
    exact htable.ref
  · rw [hframe.inode]
    exact htable.others
  · rw [hfiles']
    exact hslots.keeps fun n => Nat.le_of_eq (by rw [hsize])
  refine ⟨hv', ?_, ?_, ?_, hframe.held.trans hv.held, ?_⟩
  · rw [hfiles']
    exact hslots.sound hv.sound
  · rw [hfiles']
    exact hslots.covered hv.covered
  · rw [hfiles']
    intro n hn
    have h := hv.present n ((hslots.live n).mp hn)
    rw [hsize]
    refine ⟨h.1, ?_⟩
    intro p hp
    rw [hslots.slot]
    exact h.2 p hp
  · intro j hpos
    by_cases hj : j = i
    · subst hj
      have hok := hv.cache j hvalid.ref
      rw [hframe.inode, withDinode_self]
      refine ⟨hok.inum, hok.dev, fun _ => by rw [hdisk, hself], ?_, hok.locked⟩
      intro hval
      rw [hdef]
      exact hok.typed hval
    · apply hv.cacheOthers hvalid _ hothers hj hpos
      intro k hk
      rw [hframe.inode, withDinode_other v d hk]

/-! ## 6. `inode_put` -/

theorem Emptied.good (h : Emptied g v v' i) (hv : Good g v i) : Good g v' i := by
  refine ⟨h.formatted, hv.valid.congr h.self, h.sound, ?_⟩
  rw [h.self]
  exact (h.live _).mpr hv.live

/-- An inode is truncated and freed on the disk. -/
structure Wiped (g : Geometry) (v v' : Volume) (n : Nat) : Prop where
  self : v'.dinode n = { v.dinode n with type := 0, size := 0, addrs := fun _ => 0 }
  others : ∀ m < g.ninodes, m ≠ n → v'.dinode m = v.dinode m
  block : (v'.files g).block = (v.files g).block

theorem wp_inodeFree (hv : Accounted g v) (hi : Valid g v i) :
    wp (inodeFree i) (fun _ v' => Recounted i 0 v v' ∧ Wiped g v v' (v.inode i).inum ∧
      ∀ ip : Inode, ip.ref = 0 → Accounted g (setEntry v' i ip)) Ends v := by
  unfold inodeFree
  rw [wp_bind, wp_get]
  split
  case isTrue => exact ⟨by decide, by decide, by decide⟩
  case isFalse =>
    rw [wp_bind, wp_setInode]
    obtain ⟨v₁, hv₁def⟩ : ∃ v₁, v₁ = setEntry v i { v.inode i with busy := true } := ⟨_, rfl⟩
    rw [← hv₁def]
    have hentry : v₁.inode i = { v.inode i with busy := true } := by
      rw [hv₁def, setEntry_self]
    have hv₁ : Accounted g v₁ := by
      rw [hv₁def]
      exact hv.touch rfl rfl rfl (fun h => h) fun _ => Or.inr hi.valid
    have hi₁ : Valid g v₁ i := hi.congr hentry
    rw [wp_bind]
    apply wp_ends (g := g)
    apply wp_mono (wp_inodeTrunc (hv₁.good hi₁) hv₁.covered hv₁.held) _ fun _ _ h => h
    intro _ v₂ hempty
    have hgood₂ := hempty.good (hv₁.good hi₁)
    have hinum₂ : (v₂.inode i).inum = (v₁.inode i).inum := by rw [hempty.self]
    have hd₂ := hgood₂.valid.files_inode hgood₂.formatted
    rw [wp_bind, wp_setDinode, wp_bind]
    obtain ⟨d, hdef⟩ : ∃ d : Dinode, d = { (v₂.inode i).d with type := 0 } := ⟨_, rfl⟩
    rw [← hdef]
    have haddrs : d.addrs = fun _ => 0 := by
      rw [hdef, hempty.self]
    have hinum₃ : ((withDinode v₂ i d).inode i).inum = (v₁.inode i).inum :=
      (congrArg Prod.snd (withDinode_rest v₂ i i d).2.2).trans hinum₂
    apply wp_ends (g := g)
    apply wp_inodeUpdate (hgood₂.formatted.withDinode i d) (hgood₂.valid.withDinode d)
      (holdsData_nil (hempty.held.trans hv₁.held))
    intro v₃ hv₃ hframe hfiles₃ hdisk hothers
    rw [hinum₃] at hdisk hothers
    rw [wp_setInode]
    have hold : v.dinode (v.inode i).inum = (v.inode i).d := (hv.cache i hi.ref).disk hi.valid
    have hself : v₃.inode i = { v.inode i with busy := true, d := d } := by
      rw [hframe.inode, withDinode_self, hempty.self, hentry]
    refine ⟨⟨fun _ => ?_, ?_, fun j hj => ?_⟩, ⟨?_, fun m hm hne => ?_, ?_⟩, ?_⟩
    · rw [setEntry_self, hself]
      rfl
    · rw [setEntry_self, hself]
      exact (Int.add_zero _).symm
    · rw [setEntry_other v₃ _ hj, hframe.inode, withDinode_other v₂ d hj, hempty.others j hj, hv₁def,
        setEntry_other v _ hj]
    · show v₃.dinode (v.inode i).inum = _
      rw [hentry] at hdisk
      rw [hdisk, withDinode_self, hold]
      show d = _
      rw [hdef, hempty.self, hentry]
    · rw [hentry] at hothers
      have hdisk₂ := hempty.disk m hm (by rw [hentry]; exact hne)
      rw [hv₁def] at hdisk₂
      exact (hothers m hm hne).trans hdisk₂
    · show (v₃.files g).block = _
      rw [hfiles₃]
      show (v₂.files g).block = _
      rw [hempty.block, hv₁def]
      rfl
    intro ip hip
    rw [setEntry_setEntry]
    -- of the inode cache only entries of other inodes count
    have hcache : ∀ j, 0 < ((setEntry v₃ i ip).inode j).ref →
        EntryOk g (setEntry v₃ i ip) ((setEntry v₃ i ip).inode j) := by
      intro j hj
      have hne : j ≠ i := by
        rintro rfl
        rw [setEntry_self, hip] at hj
        exact absurd hj (by decide)
      apply hv₁.cacheOthers hi₁ _ _ hne hj
      · intro k hk
        rw [setEntry_other v₃ ip hk, hframe.inode, withDinode_other v₂ d hk, hempty.others k hk]
      · exact fun n hn hn' => (hothers n hn hn').trans (hempty.disk n hn hn')
    have hfiles : (setEntry v₃ i ip).files g = (v₂.files g).setInode (v₁.inode i).inum d := by
      rw [← hinum₂, ← files_withDinode hgood₂.formatted hgood₂.valid d, ← hfiles₃]
      apply files_eq
      · intro n hn
        rw [current_eq hcache n, files_inode g v₃ hn]
        show v₃.dinode n = v₃.current n
        unfold Volume.current
        cases hc : v₃.cached n with
        | none => rfl
        | some j =>
          obtain ⟨hrefj, hvalidj, hkeyj⟩ := cached_some hc
          have hinumj : (v₃.inode j).inum = n := congrArg Prod.snd hkeyj
          by_cases hj : j = i
          · subst hj
            rw [hframe.inode] at hinumj ⊢
            rw [← hinumj, hinum₃, hdisk]
          · have hj' : (setEntry v₃ i ip).inode j = v₃.inode j := setEntry_other v₃ ip hj
            have hok := hcache j (by rw [hj']; exact hrefj)
            rw [hj'] at hok
            rw [← hinumj]
            exact hok.disk hvalidj
      · exact fun n hn => files_noInode g v₃ hn
      · exact fun b hb => (files_block g v₃ hb).symm
      · exact fun b hb => files_noBlock g v₃ hb
      · exact fun b hb => (files_used g v₃ hb).symm
      · exact fun b hb => files_unused g v₃ hb
    have hnone : ∀ s x, ¬ (v₂.files g).uses ((v₁.inode i).inum, s) x := by
      intro s x hu
      have hslot : (v₂.files g).slot ((v₁.inode i).inum, s) = 0 := by
        apply Files.slot_bare
        rw [← hinum₂, hd₂, hempty.self]
      exact hu.2.2 (hu.2.1.symm.trans hslot)
    have hpresent : (v₂.files g).Present := by
      intro n hn
      by_cases he : n = (v₁.inode i).inum
      · have hsize : ((v₂.files g).inode n).size.toNat = 0 := by
          rw [he, ← hinum₂, hd₂, hempty.self]
          rfl
        exact ⟨by omega, fun p hp => by omega⟩
      · have h := hv₁.present n ((hempty.live n).mp hn)
        rw [hempty.file n he]
        refine ⟨h.1, ?_⟩
        intro p hp
        rw [Files.slot_other _ (hempty.file n he) hempty.block]
        exact h.2 p hp
    refine ⟨?_, ?_, ?_, ?_, ?_, hcache⟩
    · apply hv₃.setEntry
      intro hpos
      rw [hip] at hpos
      exact absurd hpos (by decide)
    · rw [hfiles]
      exact hempty.sound.setInode_bare hnone haddrs
    · rw [hfiles]
      exact hempty.covered.setInode_bare hnone haddrs
    · rw [hfiles]
      apply hpresent.setInode_bare
      intro htype
      rw [hdef] at htype
      exact absurd rfl htype
    · exact hframe.held.trans (hempty.held.trans hv₁.held)

/-- The last reference to a valid inode without links. -/
def Orphaned (ip : Inode) : Prop := ip.ref = 1 ∧ ip.valid = true ∧ ip.d.nlink = 0

theorem wp_inodePut (hv : Accounted g v) (hi : 0 < (v.inode i).ref) :
    wp (inodePut i) (fun _ v' => Accounted g v' ∧ Recounted i (-1) v v' ∧
      (Orphaned (v.inode i) → Valid g v i ∧ Wiped g v v' (v.inode i).inum) ∧
      (¬ Orphaned (v.inode i) → (v.files g).Keeps (v'.files g))) Ends v := by
  unfold inodePut
  rw [wp_bind, wp_get]
  split
  case isTrue hlast =>
    rw [wp_bind]
    have hok := hv.cache i hi
    have hdev := hok.dev hlast.2.1
    have hvalid : Valid g v i := ⟨hi, hlast.2.1, hdev, hok.inum hdev⟩
    apply wp_mono (wp_inodeFree hv hvalid) _ fun _ _ h => h
    rintro _ v' ⟨htable, hwiped, hfreed⟩
    have href := htable.ref
    rw [wp_setInode]
    refine ⟨hfreed _ ?_, ⟨fun _ => ?_, ?_, fun j hj => ?_⟩, fun _ => ⟨hvalid, ?_⟩,
      fun hnot => absurd hlast hnot⟩
    · rw [href, hlast.1]
      rfl
    · rw [setEntry_self]
      exact htable.key hi
    · rw [setEntry_self, href, Int.add_zero]
      rfl
    · rw [setEntry_other v' _ hj, htable.others j hj]
    · exact ⟨hwiped.self, hwiped.others, hwiped.block⟩
  case isFalse hlast =>
    have hput := hv.recount hi (n := -1) rfl
    exact ⟨hput.accounted, hput.table, fun hl => absurd hl hlast, fun _ => hput.kept⟩

/-! ## 7. Operations -/

/-- What the kernel does with inodes.  The caller names inodes of the volume or of another device,
locks those of the volume, reads, writes and links those whose lock it holds, and puts those it has a
reference to. -/
inductive Op where
  | begin
  | commit
  | alloc (type : BitVec 16)
  | reference (dev : BitVec 32) (inum : Nat)
  | dup (i : Fin ninode)
  | lock (i : Fin ninode)
  | unlock (i : Fin ninode)
  | read (i : Fin ninode) (off n : BitVec 32)
  | write (i : Fin ninode) (off n : BitVec 32) (src : Fin n.toNat → UInt8)
  | link (i : Fin ninode) (nlink : BitVec 16)
  | put (i : Fin ninode)

def Op.Allowed (g : Geometry) (v : Volume) : Op → Prop
  | .reference dev inum => dev = rootDev → inum < g.ninodes
  | .dup i | .put i => 0 < (v.inode i).ref
  | .lock i => (v.inode i).dev = rootDev
  | .read i _ _ | .write i _ _ _ | .link i _ => Holding v i
  | .begin | .commit | .alloc _ | .unlock _ => True

instance (g : Geometry) (v : Volume) (op : Op) : Decidable (op.Allowed g v) :=
  match op with
  | .reference _ _ => inferInstanceAs (Decidable (_ → _))
  | .dup i | .put i => inferInstanceAs (Decidable (0 < (v.inode i).ref))
  | .lock _ => inferInstanceAs (Decidable (_ = _))
  | .read i _ _ | .write i _ _ _ | .link i _ => inferInstanceAs (Decidable (Holding v i))
  | .begin | .commit | .alloc _ | .unlock _ => inferInstanceAs (Decidable True)

/-- The call, and the reference that it returns to the caller. -/
def Op.call (devsw : Devsw) : Op → FsV (Option (Fin ninode))
  | .begin => do
    beginTrans
    return none
  | .commit => do
    commitTrans
    return none
  | .alloc type => do
    let i ← inodeAlloc type
    return some i
  | .reference dev inum => do
    let i ← inodeGet dev inum
    return some i
  | .dup i => do
    inodeDup i
    return some i
  | .lock i => do
    inodeLock i
    return none
  | .unlock i => do
    inodeUnlock i
    return none
  | .read i off n => do
    let _ ← inodeRead devsw i off n
    return none
  | .write i off n src => do
    let _ ← inodeWrite devsw i (List.ofFn src) off n
    return none
  | .link i nlink => do
    setNlink i nlink
    return none
  | .put i => do
    inodePut i
    return none

def Op.exec (g : Geometry) (devsw : Devsw) (op : Op) : FsV Unit := do
  let v ← get
  if op.Allowed g v then
    let _ ← op.call devsw
    return ()
  else throw .misuse

def Op.run (g : Geometry) (devsw : Devsw) (ops : List Op) : FsV Unit :=
  ops.forM (Op.exec g devsw)

theorem Accounted.setLog (hv : Accounted g v) (logged : List Nat) (busy : Bool) :
    Accounted g { v with logged := logged, busy := busy } :=
  ⟨hv.formatted.setLog logged busy, hv.sound, hv.covered, hv.present, hv.held,
    fun i hi => ⟨(hv.cache i hi).inum, (hv.cache i hi).dev, (hv.cache i hi).disk,
      (hv.cache i hi).typed, (hv.cache i hi).locked⟩⟩

theorem handled_setLog (hv : Accounted g v) (i : Fin ninode) (logged : List Nat) (busy : Bool) :
    Handled g i 0 v { v with logged := logged, busy := busy } :=
  ⟨hv.setLog logged busy, recounted_same i rfl,
    Files.keeps_of_eq (files_recache hv.cache (hv.setLog logged busy).cache rfl)⟩

/-- The entry whose count a call changes, and by how much. -/
def Op.Counts (r : Option (Fin ninode)) (i : Fin ninode) (n : Int) : Op → Prop
  | .alloc _ | .reference _ _ | .dup _ => r = some i ∧ n = 1
  | .put j => r = none ∧ j = i ∧ n = -1
  | _ => r = none ∧ n = 0

structure Called (g : Geometry) (v : Volume) (op : Op) (r : Option (Fin ninode)) (v' : Volume) :
    Prop where
  accounted : Accounted g v'
  table : ∃ i n, op.Counts r i n ∧ Recounted i n v v'
  wiped : ∀ i, op = .put i → Orphaned (v.inode i) →
    Valid g v i ∧ Wiped g v v' (v.inode i).inum
  kept : (∀ i, op = .put i → ¬ Orphaned (v.inode i)) → (v.files g).Keeps (v'.files g)

theorem Handled.called {op : Op} {r : Option (Fin ninode)} {n : Int} (h : Handled g i n v v')
    (hcounts : op.Counts r i n) (hop : ∀ j, op ≠ .put j) : Called g v op r v' :=
  ⟨h.accounted, ⟨i, n, hcounts, h.table⟩, fun j hj => absurd hj (hop j), fun _ => h.kept⟩

theorem wp_call {op : Op} (hv : Accounted g v) (hop : op.Allowed g v) :
    wp (op.call devsw) (fun r v' => Called g v op r v') Ends v := by
  obtain ⟨i₀⟩ : Nonempty (Fin ninode) := ⟨⟨0, Nat.succ_pos _⟩⟩
  cases op with
  | begin =>
    unfold Op.call
    rw [wp_bind]
    have hbegun : Called g v .begin none { v with busy := true } :=
      (handled_setLog hv i₀ v.logged true).called ⟨rfl, rfl⟩ fun _ h => nomatch h
    apply wp_mono (wp_beginTrans (g := g) hbegun) fun _ _ h => h
    rintro p v' (hlimits | ⟨rfl, _⟩)
    · exact hlimits.ends
    · exact ⟨by decide, by decide, by decide⟩
  | commit =>
    unfold Op.call
    rw [wp_bind]
    exact wp_ends (g := g) (wp_commitTrans hv.held ((handled_setLog hv i₀ [] false).called
      ⟨rfl, rfl⟩ fun _ h => nomatch h))
  | alloc type =>
    unfold Op.call
    rw [wp_bind]
    exact wp_mono (wp_inodeAlloc hv) (fun _ _ h => h.called ⟨rfl, rfl⟩ fun _ h => nomatch h)
      fun _ _ h => h
  | reference dev inum =>
    unfold Op.call
    rw [wp_bind]
    exact wp_mono (wp_inodeGet hop hv) (fun _ _ h => h.called ⟨rfl, rfl⟩ fun _ h => nomatch h)
      fun _ _ h => h
  | dup i =>
    unfold Op.call inodeDup
    rw [wp_bind, wp_setInode]
    exact (hv.recount hop (n := 1) rfl).called ⟨rfl, rfl⟩ fun _ h => nomatch h
  | lock i =>
    unfold Op.call
    rw [wp_bind]
    exact wp_mono (wp_inodeLock hv hop) (fun _ _ h => h.called ⟨rfl, rfl⟩ fun _ h => nomatch h)
      fun _ _ h => h
  | unlock i =>
    unfold Op.call
    rw [wp_bind]
    exact wp_mono (wp_inodeUnlock hv) (fun _ _ h => h.called ⟨rfl, rfl⟩ fun _ h => nomatch h)
      fun _ _ h => h
  | read i off n =>
    unfold Op.call
    rw [wp_bind]
    exact wp_mono (wp_read_accounted hv hop)
      (fun _ _ h => h.called ⟨rfl, rfl⟩ fun _ h => nomatch h) fun _ _ h => h
  | write i off n src =>
    unfold Op.call
    rw [wp_bind]
    exact wp_mono (wp_write_accounted List.length_ofFn hv hop)
      (fun _ _ h => h.called ⟨rfl, rfl⟩ fun _ h => nomatch h) fun _ _ h => h
  | link i nlink =>
    unfold Op.call
    rw [wp_bind]
    exact wp_mono (wp_setNlink hv hop) (fun _ _ h => h.called ⟨rfl, rfl⟩ fun _ h => nomatch h)
      fun _ _ h => h
  | put i =>
    unfold Op.call
    rw [wp_bind]
    apply wp_mono (wp_inodePut hv hop) _ fun _ _ h => h
    rintro _ v' ⟨hv', htable, hwiped, hkept⟩
    refine ⟨hv', ⟨i, -1, ⟨rfl, rfl, rfl⟩, htable⟩, ?_, fun hnot => hkept (hnot i rfl)⟩
    intro j hj
    obtain rfl := Op.put.inj hj
    exact hwiped

theorem wp_exec_accounted {op : Op} (hv : Accounted g v) :
    wp (op.exec g devsw) (fun _ v' => Accounted g v') Ends v := by
  unfold Op.exec
  rw [wp_bind, wp_get]
  split
  case isTrue hop =>
    rw [wp_bind]
    exact wp_mono (wp_call hv hop) (fun _ _ h => h.accounted) fun _ _ h => h
  case isFalse => exact ⟨by decide, by decide, by decide⟩

theorem Accounted.marked_iff (hv : Accounted g v) {b : Nat} (hb : g.IsData b) :
    g.marked v b = true ↔ ∃! u, (v.files g).uses u b := by
  rw [← files_used g v hb]
  constructor
  · intro hused
    obtain ⟨u, hu⟩ := hv.covered b hused
    exact ⟨u, hu, fun u' hu' => hv.sound.unique _ _ _ hu' hu⟩
  · rintro ⟨u, hu, _⟩
    exact hv.sound.backed u b hu

/-- Whatever operations are run, a data block is marked if and only if one slot of one allocated
inode has it, and no block that is free is freed. -/
theorem block_accounting (g : Geometry) (devsw : Devsw) (v : Volume) (hv : Accounted g v)
    (ops : List Op) :
    wp (Op.run g devsw ops) (fun _ v' => Accounted g v' ∧
      ∀ b, g.IsData b → (g.marked v' b = true ↔ ∃! u, (v'.files g).uses u b)) Ends v := by
  have hrun : wp (Op.run g devsw ops) (fun _ v' => Accounted g v') Ends v := by
    apply wp_forM (I := fun _ v' => Accounted g v') ops hv
    intro _ op _ v₁ _ hv₁
    exact wp_exec_accounted hv₁
  apply wp_mono hrun _ fun _ _ h => h
  intro _ v' hv'
  exact ⟨hv', fun b hb => hv'.marked_iff hb⟩

theorem tiny_accounted : Accounted tiny tinyVolume where
  formatted := tiny_consistent.formatted
  sound := tiny_consistent.sound
  covered b hb := by
    have hall : ∀ b < 10, (tinyVolume.files tiny).used b = true →
        ((tinyVolume.files tiny).inode (tinyOwner b).1).type ≠ 0 ∧
          (tinyVolume.files tiny).slot (tinyOwner b) = b ∧ b ≠ 0 := by decide +kernel
    exact ⟨tinyOwner b, hall b (isData_of_used hb).2 hb⟩
  present n hn := by
    refine ⟨tiny_consistent.size n hn, ?_⟩
    have hall : ∀ n ∈ [1, 2], ((tinyVolume.files tiny).inode n).size.toNat ≤ bsize ∧
        (tinyVolume.files tiny).slot (n, slotOf 0) ≠ 0 := by decide +kernel
    obtain ⟨hsize, hslot⟩ := hall n (by simpa using tiny_live hn)
    intro p hp
    rw [Nat.div_eq_of_lt (Nat.lt_of_lt_of_le hp hsize)]
    exact hslot
  held := rfl
  cache i hi := by
    have hfirst : ∀ i, 0 < (tinyVolume.inode i).ref → i = firstInode ∨ i = secondInode := by
      decide +kernel
    rcases hfirst i hi with rfl | rfl
    · refine ⟨fun _ => by decide, fun _ => rfl, fun _ => ?_, fun _ => by decide, fun _ => rfl⟩
      exact (Dinode.load_store_other _ (by decide) (by decide) _).trans
        (Dinode.load_store_same _ (by decide) _)
    · exact ⟨fun _ => by decide, fun _ => rfl, fun _ => Dinode.load_store_same _ (by decide) _,
        fun _ => by decide, fun _ => rfl⟩

def tinyOps : List Op :=
  [.begin, .unlock secondInode, .put secondInode, .write firstInode 510 3 fun _ => 7, .alloc 1,
    .link firstInode 0, .commit]

theorem block_accounting_tiny :
    ∃ v', Op.run tiny noDevices tinyOps tinyVolume = .ok () v' ∧ Accounted tiny v' ∧
      ∀ b, tiny.IsData b → (tiny.marked v' b = true ↔ ∃! u, (v'.files tiny).uses u b) := by
  obtain ⟨v', hrun⟩ := answers_some (r := Op.run tiny noDevices tinyOps tinyVolume) (a := ())
    (by decide +kernel)
  -- the volume as a variable, so that nothing is evaluated from here on
  have hv := tiny_accounted
  generalize tinyVolume = v at hrun hv
  exact ⟨v', hrun, wp_ok (block_accounting tiny noDevices v hv tinyOps) hrun⟩

end Vol

end MCertiKOS.Fs
