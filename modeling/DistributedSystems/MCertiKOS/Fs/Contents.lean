import DistributedSystems.MCertiKOS.Fs.InodeSpec

/-!
# Inodes as byte arrays (`inode_read`, `inode_write`)

A run of reads and writes on locked inodes answers as an array of bytes for each inode would, and
leaves the contents that these arrays have.  A run that does not get through ends in a full disk, log
or buffer cache, or in a caller that breaks the rules of transactions.
-/

namespace MCertiKOS.Fs

open Fallible Function

namespace Vol

variable {g : Geometry} {v v' : Volume} {i : Fin ninode}

/-! ## 1. Transactions -/

def Stops (g : Geometry) (p : Panic) (v : Volume) : Prop :=
  Limits g p v ∨ p = .sleeps ∧ v.busy = true

theorem Formatted.setLog (hv : Formatted g v) (logged : List Nat) (busy : Bool) :
    Formatted g { v with logged := logged, busy := busy } :=
  ⟨hv.super, hv.start, hv.nlog, hv.metadata, hv.unique⟩

theorem wp_beginTrans {Q : Unit → Volume → Prop} (hQ : Q () { v with busy := true }) :
    wp beginTrans Q (Stops g) v := by
  unfold beginTrans
  rw [wp_bind, wp_get]
  split
  case isTrue hbusy => exact Or.inr ⟨rfl, hbusy⟩
  case isFalse => exact hQ

theorem wp_readRelease {s : Nat} {Q : Unit → Volume → Prop} (hheld : v.held = []) (hQ : Q () v) :
    wp (do bufcacheRead s; bufcacheRelease s) Q (Limits g) v := by
  rw [wp_bind]
  apply wp_bufcacheRead
  · rw [hheld]
    exact List.not_mem_nil
  · exact wp_bufcacheRelease rfl hQ

theorem wp_install (hheld : v.held = []) : wp install (fun _ v' => v' = v) (Limits g) v := by
  unfold install
  rw [wp_bind, wp_get]
  split
  case isTrue => rfl
  case isFalse =>
    have hloop : wp (v.logged.forM fun s => do bufcacheRead s; bufcacheRelease s)
        (fun _ v' => v' = v) (Limits g) v := by
      apply wp_forM (I := fun _ v' => v' = v) v.logged rfl
      rintro _ s _ _ _ rfl
      exact wp_readRelease hheld rfl
    rw [← bind_assoc, wp_bind]
    exact wp_readRelease hheld hloop

theorem wp_commitTrans {Q : Unit → Volume → Prop} (hheld : v.held = [])
    (hQ : Q () { v with logged := [], busy := false }) : wp commitTrans Q (Limits g) v := by
  unfold commitTrans
  rw [wp_bind]
  apply wp_mono (wp_install hheld)
  · rintro _ _ rfl
    exact hQ
  · exact fun _ _ h => h

/-! ## 2. Calls -/

/-- What the kernel does with locked inodes; `src` has the `n` bytes to write. -/
inductive Call where
  | begin
  | commit
  | read (i : Fin ninode) (off n : BitVec 32)
  | write (i : Fin ninode) (off n : BitVec 32) (src : Fin n.toNat → UInt8)

inductive Answer where
  | done
  | got (r : Int) (bytes : List UInt8)
  | put (r : Int)
  deriving DecidableEq

namespace Call

def exec (devsw : Devsw) : Call → FsV Answer
  | .begin => do
    beginTrans
    return .done
  | .commit => do
    commitTrans
    return .done
  | .read i off n => do
    let r ← inodeRead devsw i off n
    return .got r.1 r.2
  | .write i off n src => do
    let r ← inodeWrite devsw i (List.ofFn src) off n
    return .put r

def run (devsw : Devsw) : List Call → FsV (List Answer)
  | [] => return []
  | c :: calls => do
    let r ← c.exec devsw
    let rs ← run devsw calls
    return r :: rs

def On (c : Call) (i : Fin ninode) : Prop :=
  match c with
  | .begin | .commit => False
  | .read j _ _ => j = i
  | .write j _ _ _ => j = i

/-- The call on arrays of bytes, where `inum` says which array an entry of the inode cache is. -/
def spec (inum : Fin ninode → Nat) (c : Call) (a : Nat → List UInt8) :
    Answer × (Nat → List UInt8) :=
  match c with
  | .begin | .commit => (.done, a)
  | .read i off n => (.got (readSpec (a (inum i)) off n).1 (readSpec (a (inum i)) off n).2, a)
  | .write i off n src =>
    if Refused (a (inum i)).length off.toNat n.toNat then (.put (-1), a)
    else (.put n.toNat,
      update a (inum i) (overwrite (a (inum i)) off.toNat (List.ofFn src)))

def specRun (inum : Fin ninode → Nat) : List Call → (Nat → List UInt8) →
    List Answer × (Nat → List UInt8)
  | [], a => ([], a)
  | c :: calls, a =>
    ((c.spec inum a).1 :: (specRun inum calls (c.spec inum a).2).1,
      (specRun inum calls (c.spec inum a).2).2)

end Call

/-! ## 3. What every call keeps -/

structure Consistent (g : Geometry) (v : Volume) : Prop where
  formatted : Formatted g v
  sound : (v.files g).Sound
  size : ∀ n, (v.files g).Live n → ((v.files g).inode n).size.toNat ≤ maxfile * bsize
  held : v.held = []

structure Locked (g : Geometry) (v : Volume) (i : Fin ninode) : Prop where
  valid : Valid g v i
  busy : (v.inode i).busy = true
  allocated : (v.inode i).d.type ≠ 0
  file : (v.inode i).d.type ≠ tDev

theorem Locked.live (hi : Locked g v i) (hv : Formatted g v) :
    (v.files g).Live (v.inode i).inum := by
  unfold Files.Live
  rw [hi.valid.files_inode hv]
  exact hi.allocated

theorem Locked.good (hi : Locked g v i) (hv : Consistent g v) : Good g v i :=
  ⟨hv.formatted, hi.valid, hv.sound, hi.live hv.formatted⟩

theorem Locked.size_le (hi : Locked g v i) (hv : Consistent g v) :
    (v.inode i).d.size.toNat ≤ maxfile * bsize := by
  rw [← hi.valid.files_inode hv.formatted]
  exact hv.size _ (hi.live hv.formatted)

def SameCache (v v' : Volume) : Prop :=
  ∀ j, ∃ addrs size,
    v'.inode j = { v.inode j with d := { (v.inode j).d with addrs := addrs, size := size } }

theorem SameCache.refl (v : Volume) : SameCache v v :=
  fun j => ⟨(v.inode j).d.addrs, (v.inode j).d.size, rfl⟩

theorem Moved.sameCache (h : Moved g v v' i) : SameCache v v' := by
  intro j
  by_cases hj : j = i
  · obtain ⟨addrs, ha⟩ := h.self
    exact ⟨addrs, (v.inode i).d.size, by rw [hj, ha]⟩
  · rw [h.others j hj]
    exact SameCache.refl v j

theorem Saved.sameCache {off : Nat} {src : List UInt8} (h : Saved g v v' i off src) :
    SameCache v v' := by
  intro j
  by_cases hj : j = i
  · rw [hj]
    exact h.self
  · rw [h.others j hj]
    exact SameCache.refl v j

structure Kept (g : Geometry) (v v' : Volume) : Prop where
  consistent : Consistent g v'
  inum : ∀ j, (v'.inode j).inum = (v.inode j).inum
  locked : ∀ j, Locked g v j → Locked g v' j
  live : ∀ n, (v'.files g).Live n ↔ (v.files g).Live n

theorem Kept.trans {v'' : Volume} (h : Kept g v v') (h' : Kept g v' v'') : Kept g v v'' where
  consistent := h'.consistent
  inum j := (h'.inum j).trans (h.inum j)
  locked j hj := h'.locked j (h.locked j hj)
  live n := (h'.live n).trans (h.live n)

theorem kept_of (h : SameCache v v') (hv' : Consistent g v')
    (hlive : ∀ n, (v'.files g).Live n ↔ (v.files g).Live n) : Kept g v v' where
  consistent := hv'
  inum j := by
    obtain ⟨addrs, size, hj⟩ := h j
    rw [hj]
  locked j hi := by
    obtain ⟨addrs, size, hj⟩ := h j
    refine ⟨hi.valid.congr hj, ?_, ?_, ?_⟩ <;> rw [hj]
    · exact hi.busy
    · exact hi.allocated
    · exact hi.file
  live := hlive

def Agrees (g : Geometry) (v : Volume) (a : Nat → List UInt8) : Prop :=
  ∀ n, (v.files g).Live n → (v.files g).contents n = a n

/-- What a call or a run with the given result on arrays ends in. -/
def Refines {α : Type} (g : Geometry) (v : Volume) (r : α × (Nat → List UInt8)) (answer : α)
    (v' : Volume) : Prop :=
  Kept g v v' ∧ answer = r.1 ∧ Agrees g v' r.2

/-! ## 4. One call -/

variable {a : Nat → List UInt8}

theorem contents_congr {f f' : Files} {n : Nat} (hsize : (f'.inode n).size = (f.inode n).size)
    (hbyte : ∀ p < (f.inode n).size.toNat, f'.byte n p = f.byte n p) :
    f'.contents n = f.contents n := by
  unfold Files.contents
  rw [hsize]
  apply List.map_congr_left
  intro p hp
  exact hbyte p (List.mem_range.mp hp)

variable {devsw : Devsw}

theorem wp_read {off n : BitVec 32} (hv : Consistent g v) (hi : Locked g v i) (ha : Agrees g v a) :
    wp (inodeRead devsw i off n) (fun r v' => Kept g v v' ∧
      r = readSpec (a (v.inode i).inum) off n ∧ Agrees g v' a) (Limits g) v := by
  apply wp_mono (wp_inodeRead (hi.good hv) hv.held hi.file (hi.size_le hv))
  · rintro r v' ⟨⟨hmoved, hgrown, _⟩, hr⟩
    have hconsistent : Consistent g v' := by
      refine ⟨hmoved.formatted, hgrown.sound hv.sound, ?_, hmoved.held.trans hv.held⟩
      intro n hn
      rw [hgrown.size]
      exact hv.size n ((hgrown.live n).mp hn)
    refine ⟨kept_of hmoved.sameCache hconsistent hgrown.live, ?_, ?_⟩
    · rw [hr, ha _ (hi.live hv.formatted)]
    · intro n hn
      have hn' := (hgrown.live n).mp hn
      rw [contents_congr (hgrown.size n) fun p _ => hgrown.byte n p hn', ha n hn']
  · exact fun _ _ h => h

theorem Saved.agrees {off : Nat} {src : List UInt8} (h : Saved g v v' i off src)
    (hv : Consistent g v) (hi : Locked g v i) (ha : Agrees g v a)
    (hoff : off ≤ (v.inode i).d.size.toNat) (hend : off + src.length ≤ maxfile * bsize) :
    Kept g v v' ∧
      Agrees g v' (update a (v.inode i).inum (overwrite (a (v.inode i).inum) off src)) := by
  obtain ⟨f, size, hspliced, hfiles, hsize⟩ := h.files
  have hslots := f.resize_sameSlots (v.inode i).inum size
  have hd := hi.valid.files_inode hv.formatted
  have hself := hi.live hv.formatted
  have hlive : ∀ n, (v'.files g).Live n ↔ (v.files g).Live n := by
    intro n
    rw [hfiles, hslots.live, hspliced.live]
  have hconsistent : Consistent g v' := by
    refine ⟨h.formatted, ?_, ?_, h.held.trans hv.held⟩
    · rw [hfiles]
      exact hslots.sound (hspliced.sound hv.sound)
    · intro n hn
      by_cases he : n = (v.inode i).inum
      · have hle := hi.size_le hv
        rw [he, hfiles, Files.inode_resize_self]
        show size.toNat ≤ _
        omega
      · rw [hfiles, Files.inode_resize_other _ _ he, hspliced.size]
        exact hv.size n ((hlive n).mp hn)
  refine ⟨kept_of h.sameCache hconsistent hlive, ?_⟩
  intro n hn
  have hn' := (hlive n).mp hn
  rw [hfiles]
  by_cases he : n = (v.inode i).inum
  · rw [he, update_self, ← ha _ hself]
    apply contents_overwrite hspliced hself (hv.size _ hself) (by rw [hd]; exact hoff) hend
      (fun p => hslots.byte _ p) rfl
    rw [Files.inode_resize_self, hd]
    exact hsize
  · -- another file: its blocks are not those that were stored
    rw [update_of_ne he, ← ha n hn']
    apply contents_congr
    · rw [Files.inode_resize_other _ _ he, hspliced.size]
    · intro p hp
      have hlt := Nat.lt_of_lt_of_le hp (hv.size n hn')
      rw [hslots.byte, hspliced.byte n p hn' hlt, if_neg fun hc => he hc.1]

theorem wp_write {off n : BitVec 32} {src : Fin n.toNat → UInt8} (hv : Consistent g v)
    (hi : Locked g v i) (ha : Agrees g v a) :
    wp (Call.exec devsw (.write i off n src))
      (Refines g v (Call.spec (fun j => (v.inode j).inum) (.write i off n src) a)) (Limits g) v := by
  have hlen : (a (v.inode i).inum).length = (v.inode i).d.size.toNat := by
    rw [← ha _ (hi.live hv.formatted), Files.length_contents, hi.valid.files_inode hv.formatted]
  unfold Call.exec Call.spec
  dsimp only
  rw [wp_bind, hlen]
  by_cases hrefused : Refused (v.inode i).d.size.toNat off.toNat n.toNat
  · rw [if_pos hrefused]
    unfold wp
    rw [show inodeWrite devsw i (List.ofFn src) off n v = .ok (-1) v from
      inodeWrite_refused hi.file hrefused]
    exact ⟨kept_of (SameCache.refl v) hv fun _ => Iff.rfl, rfl, ha⟩
  · rw [if_neg hrefused]
    apply wp_mono (wp_inodeWrite (hi.good hv) hv.held hi.file List.length_ofFn hrefused)
    · rintro r v' ⟨rfl, hsaved⟩
      unfold Refused at hrefused
      obtain ⟨hkept, hagrees⟩ := hsaved.agrees hv hi ha (by omega) (by rw [List.length_ofFn]; omega)
      exact ⟨hkept, rfl, hagrees⟩
    · exact fun _ _ h => h

theorem kept_setLog (hv : Consistent g v) (logged : List Nat) (busy : Bool) :
    Kept g v { v with logged := logged, busy := busy } :=
  kept_of (fun j => SameCache.refl v j)
    ⟨hv.formatted.setLog logged busy, hv.sound, hv.size, hv.held⟩ fun _ => Iff.rfl

theorem wp_exec {c : Call} (hv : Consistent g v) (ha : Agrees g v a)
    (hc : ∀ i, c.On i → Locked g v i) :
    wp (c.exec devsw) (Refines g v (c.spec (fun j => (v.inode j).inum) a)) (Stops g) v := by
  cases c with
  | begin =>
    unfold Call.exec
    rw [wp_bind]
    exact wp_beginTrans ⟨kept_setLog hv v.logged true, rfl, ha⟩
  | commit =>
    unfold Call.exec
    rw [wp_bind]
    apply wp_mono (wp_commitTrans (g := g) hv.held ?_) (fun _ _ h => h) fun _ _ h => Or.inl h
    exact ⟨kept_setLog hv [] false, rfl, ha⟩
  | read i off n =>
    unfold Call.exec
    rw [wp_bind]
    apply wp_mono (wp_read hv (hc i rfl) ha)
    · rintro r v' ⟨hkept, rfl, hagrees⟩
      exact ⟨hkept, rfl, hagrees⟩
    · exact fun _ _ h => Or.inl h
  | write i off n src =>
    exact wp_mono (wp_write hv (hc i rfl) ha) (fun _ _ h => h) fun _ _ h => Or.inl h

/-! ## 5. Runs -/

theorem wp_run (calls : List Call) :
    ∀ {v a}, Consistent g v → Agrees g v a → (∀ c ∈ calls, ∀ i, c.On i → Locked g v i) →
      wp (Call.run devsw calls)
        (Refines g v (Call.specRun (fun j => (v.inode j).inum) calls a)) (Stops g) v := by
  induction calls with
  | nil =>
    intro v a hv ha _
    exact ⟨kept_of (SameCache.refl v) hv fun _ => Iff.rfl, rfl, ha⟩
  | cons c calls ih =>
    intro v a hv ha hlocked
    unfold Call.run
    rw [wp_bind]
    apply wp_mono (wp_exec hv ha (hlocked c List.mem_cons_self))
    · rintro r v₁ ⟨hkept, rfl, hagrees⟩
      rw [wp_bind]
      have hrest := ih hkept.consistent hagrees fun c hc i hi =>
        hkept.locked i (hlocked c (List.mem_cons_of_mem _ hc) i hi)
      have hinum : (fun j => (v₁.inode j).inum) = fun j => (v.inode j).inum := funext hkept.inum
      rw [hinum] at hrest
      apply wp_mono hrest
      · rintro rs v₂ ⟨hkept', rfl, hagrees'⟩
        exact ⟨hkept.trans hkept', rfl, hagrees'⟩
      · exact fun _ _ h => h
    · exact fun _ _ h => h

/-- Reads and writes on locked inodes refine arrays of bytes, one for each inode, and a write that
is refused changes nothing. -/
theorem inode_contents_refine (g : Geometry) (devsw : Devsw) (v : Volume) (hv : Consistent g v)
    (calls : List Call) (hlocked : ∀ c ∈ calls, ∀ i, c.On i → Locked g v i) :
    wp (Call.run devsw calls)
        (Refines g v (Call.specRun (fun j => (v.inode j).inum) calls (v.files g).contents))
        (Stops g) v ∧
      ∀ i src off n, Locked g v i → Refused (v.inode i).d.size.toNat off.toNat n.toNat →
        inodeWrite devsw i src off n v = .ok (-1) v := by
  constructor
  · exact wp_run calls hv (fun _ _ => rfl) hlocked
  · intro i src off n hi hrefused
    exact inodeWrite_refused hi.file hrefused

def tiny : Geometry := ⟨16, 8, 6, 5, by decide, by decide, by decide⟩

/-- One byte short of a block. -/
def shortFile : Dinode := ⟨2, 0, 0, 1, 511, fun k => if k = 0 then 5 else 0⟩

/-- A file without links, with a direct and an indirect block. -/
def unlinkedFile : Dinode := ⟨2, 0, 0, 0, 2, fun k => if k = 0 then 6 else if k = indirect then 7 else 0⟩

def tinySector : Nat → Block
  | 1 => ((Block.zeros.setWord 0 16).setWord 2 8).setWord 3 6
  | 2 => unlinkedFile.store 2 (shortFile.store 1 Block.zeros)
  | 4 => Block.zeros.setWord 0 0xFDFF
  | 6 => Block.zeros.setWord 0 0x0504
  | 7 => Block.zeros.setWord 0 8
  | _ => Block.zeros

def idleEntry : Inode := ⟨0, 0, 0, false, false, .fresh 0⟩

def tinyVolume : Volume where
  sector := tinySector
  held := []
  logged := []
  start := 10
  nlog := 6
  busy := false
  inode i :=
    if i.val = 0 then ⟨rootDev, 1, 1, true, true, shortFile⟩
    else if i.val = 1 then ⟨rootDev, 2, 1, true, true, unlinkedFile⟩
    else idleEntry

def tinyOwner : Nat → Nat × Slot
  | 5 => (1, .addr 0)
  | 6 => (2, .addr 0)
  | 7 => (2, .addr indirect)
  | _ => (2, .entry ⟨0, Nat.succ_pos _⟩)

theorem tiny_live {n : Nat} (h : (tinyVolume.files tiny).Live n) : n = 1 ∨ n = 2 := by
  by_cases hn : n < 8
  · have hall : ∀ m < 8, (tinyVolume.current m).type ≠ 0 → m = 1 ∨ m = 2 := by decide +kernel
    apply hall n hn
    rw [← files_inode tiny tinyVolume hn]
    exact h
  · exact absurd (congrArg Dinode.type (files_noInode tiny tinyVolume hn)) h

theorem tiny_uses {u : Nat × Slot} {b : Nat} (h : (tinyVolume.files tiny).uses u b) :
    u = tinyOwner b ∧ 5 ≤ b ∧ b ≤ 8 := by
  obtain ⟨n, s⟩ := u
  obtain ⟨hlive, rfl, hpos⟩ := h
  have haddr : ∀ n ∈ [1, 2], ∀ k, (tinyVolume.files tiny).slot (n, .addr k) ≠ 0 →
      (n, .addr k) = tinyOwner ((tinyVolume.files tiny).slot (n, .addr k)) ∧
        5 ≤ (tinyVolume.files tiny).slot (n, .addr k) ∧
        (tinyVolume.files tiny).slot (n, .addr k) ≤ 8 := by decide +kernel
  have hentry : ∀ n ∈ [1, 2], ∀ j, (tinyVolume.files tiny).slot (n, .entry j) ≠ 0 →
      (n, .entry j) = tinyOwner ((tinyVolume.files tiny).slot (n, .entry j)) ∧
        5 ≤ (tinyVolume.files tiny).slot (n, .entry j) ∧
        (tinyVolume.files tiny).slot (n, .entry j) ≤ 8 := by decide +kernel
  have hn : n ∈ [1, 2] := by simpa using tiny_live hlive
  cases s with
  | addr k => exact haddr n hn k hpos
  | entry j => exact hentry n hn j hpos

theorem tiny_consistent : Consistent tiny tinyVolume where
  formatted := by
    refine ⟨by decide +kernel, by decide, by decide, by decide +kernel, ?_⟩
    have hkey : ∀ i, 0 < (tinyVolume.inode i).ref → (tinyVolume.inode i).key = (rootDev, i.val + 1) := by
      decide +kernel
    intro i j hi hj he
    rw [hkey i hi, hkey j hj] at he
    exact Fin.ext (Nat.succ.inj (congrArg Prod.snd he))
  sound := by
    constructor
    · intro u u' b hu hu'
      exact (tiny_uses hu).1.trans (tiny_uses hu').1.symm
    · intro u b hu
      have hall : ∀ b ≤ 8, 5 ≤ b → (tinyVolume.files tiny).used b = true := by decide +kernel
      exact hall b (tiny_uses hu).2.2 (tiny_uses hu).2.1
  size n hn := by
    have hall : ∀ n ∈ [1, 2], ((tinyVolume.files tiny).inode n).size.toNat ≤ maxfile * bsize := by
      decide +kernel
    exact hall n (by simpa using tiny_live hn)
  held := rfl

def firstInode : Fin ninode := ⟨0, Nat.succ_pos _⟩

def secondInode : Fin ninode := ⟨1, Nat.succ_lt_succ (Nat.succ_pos _)⟩

theorem tiny_locked : Locked tiny tinyVolume firstInode ∧ Locked tiny tinyVolume secondInode :=
  ⟨⟨⟨by decide, by decide, by decide, by decide⟩, by decide, by decide, by decide⟩,
    ⟨by decide, by decide, by decide, by decide⟩, by decide, by decide, by decide⟩

def noDevices : Devsw := ⟨fun _ => none, fun _ => none⟩

/-- The write goes on into a second block, which is allocated. -/
def tinyCalls : List Call :=
  [.begin, .write firstInode 510 3 fun k => 7 + UInt8.ofNat k.val, .write secondInode 1 1 fun _ => 6,
    .read firstInode 509 10, .read secondInode 0 9, .commit]

def tinyAnswers : List Answer :=
  [.done, .put 3, .put 1, .got 4 [0, 7, 8, 9], .got 2 [4, 6], .done]

theorem tiny_calls_locked : ∀ c ∈ tinyCalls, ∀ i, c.On i → Locked tiny tinyVolume i := by
  intro c hc i hi
  obtain ⟨hfirst, hsecond⟩ := tiny_locked
  simp only [tinyCalls, List.mem_cons, List.not_mem_nil, or_false] at hc
  rcases hc with rfl | rfl | rfl | rfl | rfl | rfl
  · exact hi.elim
  · exact hi ▸ hfirst
  · exact hi ▸ hsecond
  · exact hi ▸ hfirst
  · exact hi ▸ hsecond
  · exact hi.elim

def answers {α : Type} : EStateM.Result Panic Volume α → Option α
  | .ok a _ => some a
  | .error _ _ => none

theorem answers_some {α : Type} {r : EStateM.Result Panic Volume α} {a : α}
    (h : answers r = some a) : ∃ v', r = .ok a v' := by
  cases r with
  | ok a' v' => exact ⟨v', by rw [Option.some.inj h]⟩
  | error p v' =>
    have hnone : none = some a := h
    cases hnone

theorem inode_contents_refine_tiny :
    ∃ v', Call.run noDevices tinyCalls tinyVolume = .ok tinyAnswers v' ∧
      Refines tiny tinyVolume (Call.specRun (fun j => (tinyVolume.inode j).inum) tinyCalls
        (tinyVolume.files tiny).contents) tinyAnswers v' := by
  obtain ⟨v', hrun⟩ := answers_some (r := Call.run noDevices tinyCalls tinyVolume)
    (a := tinyAnswers) (by decide +kernel)
  -- the volume as a variable, so that nothing is evaluated from here on
  have hconsistent := tiny_consistent
  have hlocked := tiny_calls_locked
  generalize tinyVolume = v at hrun hconsistent hlocked ⊢
  have hrefines := inode_contents_refine tiny noDevices v hconsistent tinyCalls hlocked
  exact ⟨v', hrun, wp_ok hrefines.1 hrun⟩

/-- A read whose end leaves 32 bits is refused, although the file has bytes from there on. -/
theorem inode_read_past_wrap :
    Consistent tiny tinyVolume ∧ Locked tiny tinyVolume secondInode ∧
      (tinyVolume.files tiny).contents 2 = [4, 5] ∧
      inodeRead noDevices secondInode 1 0xFFFFFFFF tinyVolume = .ok (-1, []) tinyVolume := by
  refine ⟨tiny_consistent, tiny_locked.2, ?_, rfl⟩
  decide +kernel

end Vol

end MCertiKOS.Fs
