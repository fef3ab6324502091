import Mathlib.Data.Fintype.Card
import DistributedSystems.Library.Runs
import DistributedSystems.MCertiKOS.Fs.Accounting

/-!
# References to inodes (`kern/fs/inode.c`)

A caller gets references from `inode_get`, `inode_alloc` and `inode_dup`, uses them while it holds
them and gives them back with `inode_put`.  A call runs to its end before the next one; one that
sleeps or panics does not return.
-/

namespace MCertiKOS.Fs

open Fallible Function

/-! ## 1. The blocks of an inode on the disk -/

/-- The addresses of an inode, and the entries of its indirect block if it has one. -/
def Volume.listed (v : Volume) (n : Nat) : List Nat :=
  ((List.finRange 13).map fun k => ((v.dinode n).addrs k).toNat) ++
    if (v.dinode n).addrs indirect = 0 then []
    else (v.sector ((v.dinode n).addrs indirect).toNat).listed nindirect

namespace Vol

variable {g : Geometry} {devsw : Devsw} {v v' : Volume} {n b : Nat}

theorem Accounted.mem_listed (hv : Accounted g v) (hn : n < g.ninodes)
    (htype : (v.dinode n).type ≠ 0) (hb : b ≠ 0) :
    b ∈ v.listed n ↔ ∃ s, (v.files g).uses (n, s) b := by
  have hinode := hv.inode hn
  have hlive : (v.files g).Live n := by
    unfold Files.Live
    rw [hinode]
    exact htype
  -- the indirect block is a data block, so the file system sees its entries
  have hentry : (v.dinode n).addrs indirect ≠ 0 → ∀ j : Fin 128, (v.files g).slot (n, .entry j) =
      ((v.sector ((v.dinode n).addrs indirect).toNat).word j.val).toNat := by
    intro hpos j
    have huse := Files.uses_table hlive (by rw [hinode]; exact hpos)
    have hdata := isData_of_used (hv.sound.backed _ _ huse)
    rw [hinode] at hdata
    show (v.files g).target ((v.files g).inode n) (.entry j) = _
    rw [hinode, Files.target_entry hpos, files_block g v hdata]
  have hlisted : b ∈ v.listed n ↔ (∃ k, ((v.dinode n).addrs k).toNat = b) ∨
      (v.dinode n).addrs indirect ≠ 0 ∧ ∃ j : Fin 128, (v.files g).slot (n, .entry j) = b := by
    unfold Volume.listed
    rw [List.mem_append, List.mem_map]
    apply or_congr
    · simp
    · by_cases hpos : (v.dinode n).addrs indirect = 0
      · simp [hpos]
      · rw [if_neg hpos]
        constructor
        · intro hmem
          obtain ⟨j, hj, he⟩ := List.mem_map.mp hmem
          exact ⟨hpos, ⟨j, List.mem_range.mp hj⟩, (hentry hpos _).trans he⟩
        · rintro ⟨_, j, he⟩
          exact List.mem_map.mpr ⟨j.val, List.mem_range.mpr j.isLt, (hentry hpos j).symm.trans he⟩
  rw [hlisted]
  constructor
  · rintro (⟨k, hk⟩ | ⟨_, j, hj⟩)
    · refine ⟨.addr k, hlive, ?_, hb⟩
      show (((v.files g).inode n).addrs k).toNat = b
      rw [hinode]
      exact hk
    · exact ⟨.entry j, hlive, hj, hb⟩
  · rintro ⟨s, _, hslot, _⟩
    cases s with
    | addr k =>
      have hk : (((v.files g).inode n).addrs k).toNat = b := hslot
      rw [hinode] at hk
      exact Or.inl ⟨k, hk⟩
    | entry j =>
      refine Or.inr ⟨?_, j, hslot⟩
      intro hzero
      have hnone : (v.files g).slot (n, .entry j) = 0 :=
        Files.target_entry_none (by rw [hinode]; exact hzero) j
      exact hb (hslot.symm.trans hnone)

/-- Inode `n` is truncated and freed on the disk, and nothing else happens there. -/
structure Freed (g : Geometry) (v v' : Volume) (n : Nat) : Prop where
  inode : v'.dinode n = { v.dinode n with type := 0, size := 0, addrs := fun _ => 0 }
  others : ∀ m < g.ninodes, m ≠ n → v'.dinode m = v.dinode m
  data : ∀ b, g.IsData b → v'.sector b = v.sector b
  blocks : ∀ b ∈ v.listed n, b ≠ 0 → g.IsData b ∧ g.marked v b = true ∧ g.marked v' b = false
  marks : ∀ b, g.IsData b → b ∉ v.listed n → g.marked v' b = g.marked v b

/-- Inode `n` is still allocated on the disk, with all its blocks. -/
structure Stays (g : Geometry) (v v' : Volume) (n : Nat) : Prop where
  type : (v'.dinode n).type ≠ 0
  size : (v.dinode n).size.toNat ≤ (v'.dinode n).size.toNat
  blocks : ∀ b ∈ v.listed n, b ≠ 0 → b ∈ v'.listed n ∧ g.marked v' b = true

section Disk

variable (hv : Accounted g v) (hv' : Accounted g v')

include hv hv'

theorem stays_of_keeps (h : (v.files g).Keeps (v'.files g)) (hn : n < g.ninodes)
    (htype : (v.dinode n).type ≠ 0) : Stays g v v' n := by
  have hlive : (v.files g).Live n := by
    unfold Files.Live
    rw [hv.inode hn]
    exact htype
  have htype' : (v'.dinode n).type ≠ 0 := by
    rw [← hv'.inode hn]
    exact h.live n hlive
  refine ⟨htype', ?_, fun b hb hpos => ?_⟩
  · rw [← hv.inode hn, ← hv'.inode hn]
    exact h.size n hlive
  · obtain ⟨s, huse⟩ := (hv.mem_listed hn htype hpos).mp hb
    obtain ⟨_, hslot, _⟩ := huse
    have huse' : (v'.files g).uses (n, s) b := by
      refine ⟨h.live n hlive, ?_, hpos⟩
      rw [h.slot (n, s) hlive (by rw [hslot]; exact hpos)]
      exact hslot
    refine ⟨(hv'.mem_listed hn htype' hpos).mpr ⟨s, huse'⟩, ?_⟩
    have hused := hv'.sound.backed _ _ huse'
    rw [← files_used g v' (isData_of_used hused)]
    exact hused

/-- The uses of blocks that are left are those of other inodes. -/
theorem Wiped.uses_iff (h : Wiped g v v' n) (hn : n < g.ninodes) (u : Nat × Slot) :
    (v'.files g).uses u b ↔ (v.files g).uses u b ∧ u.1 ≠ n := by
  obtain ⟨m, s⟩ := u
  by_cases he : m = n
  · subst he
    have hdead : ¬ (v'.files g).Live m := by
      unfold Files.Live
      rw [hv'.inode hn, h.self]
      exact fun hne => hne rfl
    exact ⟨fun hu => absurd hu.1 hdead, fun hu => absurd rfl hu.2⟩
  · have hinode : (v'.files g).inode m = (v.files g).inode m := by
      by_cases hm : m < g.ninodes
      · rw [hv'.inode hm, hv.inode hm, h.others m hm he]
      · rw [files_noInode g v hm, files_noInode g v' hm]
    have huses : (v'.files g).uses (m, s) b ↔ (v.files g).uses (m, s) b := by
      unfold Files.uses Files.Live
      rw [Files.slot_other s hinode h.block, hinode]
    rw [huses]
    exact ⟨fun hu => ⟨hu, he⟩, fun hu => hu.1⟩

theorem Wiped.freed (h : Wiped g v v' n) (hn : n < g.ninodes) (htype : (v.dinode n).type ≠ 0) :
    Freed g v v' n := by
  refine ⟨h.self, h.others, fun b hb => ?_, fun b hb hpos => ?_, fun b hb hnot => ?_⟩
  · rw [← files_block g v hb, ← files_block g v' hb, h.block]
  · obtain ⟨s, huse⟩ := (hv.mem_listed hn htype hpos).mp hb
    have hused := hv.sound.backed _ _ huse
    have hdata := isData_of_used hused
    refine ⟨hdata, by rw [← files_used g v hdata]; exact hused, ?_⟩
    rw [Bool.eq_false_iff]
    intro hmarked
    obtain ⟨u, hu, _⟩ := (hv'.marked_iff hdata).mp hmarked
    obtain ⟨hold, hne⟩ := (h.uses_iff hv hv' hn u).mp hu
    -- the block had one use, and it was this one
    exact hne (congrArg Prod.fst (hv.sound.unique _ _ _ hold huse))
  · rw [Bool.eq_iff_iff, hv.marked_iff hb, hv'.marked_iff hb]
    have hsame : ∀ u, (v'.files g).uses u b ↔ (v.files g).uses u b := by
      intro u
      rw [h.uses_iff hv hv' hn u, and_iff_left_iff_imp]
      rintro hu rfl
      exact hnot ((hv.mem_listed hn htype hu.2.2).mpr ⟨u.2, hu⟩)
    simp only [hsame]

end Disk

/-! ## 2. Callers -/

/-- The entry that a call is made with. -/
def Op.entry : Op → Option (Fin ninode)
  | .dup i | .lock i | .unlock i | .read i _ _ | .write i _ _ _ | .link i _ | .put i => some i
  | .begin | .commit | .alloc _ | .reference _ _ => none

def Op.left (refs : List (Fin ninode)) : Op → List (Fin ninode)
  | .put i => refs.erase i
  | _ => refs

/-- The volume, and the references that were handed out and not put. -/
structure Callers where
  volume : Volume
  refs : List (Fin ninode)

namespace Callers

/-- References are used only while they are held; a call that does not return ends the run. -/
def perform (g : Geometry) (devsw : Devsw) (w : Callers) (op : Op) : Option Callers :=
  if op.Allowed g w.volume ∧ ∀ i ∈ op.entry, i ∈ w.refs then
    match op.call devsw w.volume with
    | .ok r v => some ⟨v, r.toList ++ op.left w.refs⟩
    | .error _ _ => none
  else none

/-- A consistent volume, and no inode in the cache. -/
def Starts (g : Geometry) (w : Callers) : Prop :=
  Accounted g w.volume ∧ (∀ i, (w.volume.inode i).ref = 0) ∧ w.refs = []

def Reaches (g : Geometry) (devsw : Devsw) : List (Callers × Op) → Callers → Prop :=
  Transition.Run (Starts g) fun w op w' => w.perform g devsw op = some w'

structure Inv (g : Geometry) (w : Callers) : Prop where
  accounted : Accounted g w.volume
  counted : ∀ i, (w.volume.inode i).ref = w.refs.count i

variable {w w' : Callers} {op : Op} {i : Fin ninode}

theorem perform_called (hinv : w.Inv g) (h : w.perform g devsw op = some w') :
    (∀ i ∈ op.entry, i ∈ w.refs) ∧ ∃ r, Called g w.volume op r w'.volume ∧
      w'.refs = r.toList ++ op.left w.refs := by
  unfold perform at h
  split at h
  case isTrue hallowed =>
    split at h
    case h_1 r v hok =>
      obtain rfl := Option.some.inj h
      exact ⟨hallowed.2, r, wp_ok (wp_call hinv.accounted hallowed.1) hok, rfl⟩
    case h_2 => contradiction
  case isFalse => contradiction

theorem count_refs {r : Option (Fin ninode)} {n : Int} {refs : List (Fin ninode)}
    (hcounts : op.Counts r i n) (hheld : ∀ i ∈ op.entry, i ∈ refs) (j : Fin ninode) :
    ((r.toList ++ op.left refs).count j : Int) = refs.count j + if j = i then n else 0 := by
  have hsame : r = none ∧ n = 0 → op.left refs = refs →
      ((r.toList ++ op.left refs).count j : Int) = refs.count j + if j = i then n else 0 := by
    rintro ⟨rfl, rfl⟩ hleft
    rw [hleft]
    simp
  have hnew : r = some i ∧ n = 1 → op.left refs = refs →
      ((r.toList ++ op.left refs).count j : Int) = refs.count j + if j = i then n else 0 := by
    rintro ⟨rfl, rfl⟩ hleft
    rw [hleft]
    by_cases hj : j = i
    · simp [hj]
    · simp [hj, Ne.symm hj]
  cases op with
  | alloc _ | reference _ _ | dup _ => exact hnew hcounts rfl
  | begin | commit | lock _ | unlock _ | read _ _ _ | write _ _ _ _ | link _ _ =>
    exact hsame hcounts rfl
  | put k =>
    obtain ⟨rfl, rfl, rfl⟩ := hcounts
    have hpos := List.count_pos_iff.mpr (hheld k rfl)
    unfold Op.left
    by_cases hj : j = k
    · subst hj
      simp
      omega
    · simp [hj, List.count_erase_of_ne hj]

theorem Inv.perform (hinv : w.Inv g) (h : w.perform g devsw op = some w') : w'.Inv g := by
  obtain ⟨hheld, r, hcalled, hrefs⟩ := perform_called hinv h
  obtain ⟨i, n, hcounts, htable⟩ := hcalled.table
  refine ⟨hcalled.accounted, fun j => ?_⟩
  rw [hrefs, count_refs hcounts hheld j, ← hinv.counted j]
  by_cases hj : j = i
  · rw [if_pos hj, hj, htable.ref]
  · rw [if_neg hj, htable.others j hj, Int.add_zero]

theorem inv_of_reaches {past : List (Callers × Op)} (hrun : Reaches g devsw past w) : w.Inv g := by
  apply hrun.invariant (I := Inv g)
  · rintro w ⟨hv, hzero, hrefs⟩
    refine ⟨hv, fun i => ?_⟩
    rw [hzero, hrefs]
    rfl
  · exact fun _ _ _ hinv hstep => hinv.perform hstep

theorem key_perform (hinv : w.Inv g) (h : w.perform g devsw op = some w')
    (hi : 0 < (w.volume.inode i).ref) : (w'.volume.inode i).key = (w.volume.inode i).key := by
  obtain ⟨_, r, hcalled, _⟩ := perform_called hinv h
  obtain ⟨j, n, _, htable⟩ := hcalled.table
  by_cases hij : i = j
  · subst hij
    exact htable.key hi
  · rw [htable.others i hij]

/-! ## 3. What is freed -/

/-- The call is the `inode_put` of the last reference to inode `n`, which is valid and has no links. -/
def Frees (w : Callers) (op : Op) (n : Nat) : Prop :=
  ∃ i, op = .put i ∧ (w.volume.inode i).inum = n ∧ w.refs.count i = 1 ∧
    (w.volume.inode i).valid = true ∧ (w.volume.inode i).d.nlink = 0

theorem disk_perform (hinv : w.Inv g) (h : w.perform g devsw op = some w') (hn : n < g.ninodes)
    (htype : (w.volume.dinode n).type ≠ 0) :
    (w.Frees op n → Freed g w.volume w'.volume n) ∧
      (¬ w.Frees op n → Stays g w.volume w'.volume n) := by
  obtain ⟨_, r, hcalled, _⟩ := perform_called hinv h
  have hlast : ∀ i, Orphaned (w.volume.inode i) ↔ w.refs.count i = 1 ∧
      (w.volume.inode i).valid = true ∧ (w.volume.inode i).d.nlink = 0 := by
    intro i
    have hone : (w.volume.inode i).ref = 1 ↔ w.refs.count i = 1 := by
      rw [hinv.counted i]
      omega
    unfold Orphaned
    rw [hone]
  constructor
  · rintro ⟨i, hput, rfl, hfrees⟩
    obtain ⟨_, hwiped⟩ := hcalled.wiped i hput ((hlast i).mpr hfrees)
    exact hwiped.freed hinv.accounted hcalled.accounted hn htype
  · intro hnot
    by_cases hkept : ∀ i, op = .put i → ¬ Orphaned (w.volume.inode i)
    · exact stays_of_keeps hinv.accounted hcalled.accounted (hcalled.kept hkept) hn htype
    · -- another inode is freed
      simp only [not_forall, not_not] at hkept
      obtain ⟨i, hput, horphaned⟩ := hkept
      obtain ⟨hvalid, hwiped⟩ := hcalled.wiped i hput horphaned
      have hne : n ≠ (w.volume.inode i).inum := by
        rintro rfl
        exact hnot ⟨i, hput, rfl, (hlast i).mp horphaned⟩
      have hdisk := hwiped.others n hn hne
      refine ⟨by rw [hdisk]; exact htype, by rw [hdisk], fun b hb hpos => ?_⟩
      obtain ⟨s, huse⟩ := (hinv.accounted.mem_listed hn htype hpos).mp hb
      have huse' := (hwiped.uses_iff hinv.accounted hcalled.accounted hvalid.inum (n, s)).mpr
        ⟨huse, hne⟩
      have hused := hcalled.accounted.sound.backed _ _ huse'
      constructor
      · exact (hcalled.accounted.mem_listed hn (by rw [hdisk]; exact htype) hpos).mpr ⟨s, huse'⟩
      · rw [← files_used g w'.volume (isData_of_used hused)]
        exact hused

/-! ## 4. `inode_get` returns -/

theorem inodeGet_returns {dev : BitVec 32} {inum : Nat}
    (h : ∃ i, 0 < (v.inode i).ref ∧ (v.inode i).key = (dev, inum) ∨ (v.inode i).ref = 0) :
    ∃ i v', inodeGet dev inum v = .ok i v' := by
  have hreturns : wp (inodeGet dev inum) (fun _ _ => True) (fun _ _ => False) v := by
    unfold inodeGet
    rw [wp_bind, wp_get]
    split
    case h_1 => trivial
    case h_2 hnone =>
      split
      case h_1 => trivial
      case h_2 hfull =>
        obtain ⟨i, hi | hi⟩ := h
        · exact List.find?_eq_none.mp hnone i (List.mem_finRange i) (decide_eq_true hi)
        · exact List.find?_eq_none.mp hfull i (List.mem_finRange i) (decide_eq_true hi)
  obtain ⟨i, v', hget, _⟩ := wp_returns hreturns
  exact ⟨i, v', hget⟩

def referenced (w : Callers) : Finset (BitVec 32 × Nat) :=
  (Finset.univ.filter fun i => 0 < (w.volume.inode i).ref).image fun i => (w.volume.inode i).key

theorem get_returns (hinv : w.Inv g) {dev : BitVec 32} {inum : Nat}
    (hinum : dev = rootDev → inum < g.ninodes)
    (hroom : (insert (dev, inum) w.referenced).card ≤ ninode) :
    ∃ w', w.perform g devsw (.reference dev inum) = some w' := by
  have hentry : ∃ i, 0 < (w.volume.inode i).ref ∧ (w.volume.inode i).key = (dev, inum) ∨
      (w.volume.inode i).ref = 0 := by
    by_contra hnone
    simp only [not_exists, not_or, not_and] at hnone
    have hpos : ∀ i, 0 < (w.volume.inode i).ref := by
      intro i
      have hne := (hnone i).2
      rw [hinv.counted i] at hne ⊢
      omega
    -- all entries are in use, each for another inode, and none for this one
    have hall : w.referenced = Finset.univ.image fun i => (w.volume.inode i).key := by
      unfold referenced
      rw [Finset.filter_true_of_mem fun i _ => hpos i]
    have hcard : w.referenced.card = ninode := by
      rw [hall, Finset.card_image_of_injective _ fun i j hij =>
        hinv.accounted.formatted.unique i j (hpos i) (hpos j) hij, Finset.card_univ, Fintype.card_fin]
    have hnew : (dev, inum) ∉ w.referenced := by
      rw [hall]
      intro hmem
      obtain ⟨i, _, hi⟩ := Finset.mem_image.mp hmem
      exact (hnone i).1 (hpos i) hi
    rw [Finset.card_insert_of_notMem hnew, hcard] at hroom
    omega
  obtain ⟨i, v', hget⟩ := inodeGet_returns hentry
  refine ⟨⟨v', i :: w.refs⟩, ?_⟩
  have hcall : Op.call devsw (.reference dev inum) w.volume = .ok (some i) v' := by
    show EStateM.bind (inodeGet dev inum) (fun i => pure (some i)) w.volume = _
    unfold EStateM.bind
    rw [hget]
    rfl
  unfold perform
  rw [if_pos ⟨hinum, fun i hi => nomatch hi⟩, hcall]
  rfl

/-- **Inode references.**  At every moment of a run: entries in use are for different inodes; each
counts the references to it; `inode_get` returns while no more than `NINODE` inodes are referenced;
and a call leaves the inode of every entry in use, and truncates and frees an allocated inode on the
disk if it is the `inode_put` of the last reference to it, valid and without links, and otherwise
leaves it allocated with all its blocks. -/
theorem inode_references (g : Geometry) (devsw : Devsw) {past : List (Callers × Op)}
    (hrun : Reaches g devsw past w) :
    (∀ i j, 0 < (w.volume.inode i).ref → 0 < (w.volume.inode j).ref →
      (w.volume.inode i).key = (w.volume.inode j).key → i = j) ∧
    (∀ i, (w.volume.inode i).ref = w.refs.count i) ∧
    (∀ dev inum, (dev = rootDev → inum < g.ninodes) →
      (insert (dev, inum) w.referenced).card ≤ ninode →
        ∃ w', w.perform g devsw (.reference dev inum) = some w') ∧
    ∀ op w', w.perform g devsw op = some w' →
      (∀ i, 0 < (w.volume.inode i).ref →
        (w'.volume.inode i).key = (w.volume.inode i).key) ∧
      ∀ n < g.ninodes, (w.volume.dinode n).type ≠ 0 →
        (w.Frees op n → Freed g w.volume w'.volume n) ∧
        (¬ w.Frees op n → Stays g w.volume w'.volume n) := by
  have hinv := inv_of_reaches hrun
  refine ⟨hinv.accounted.formatted.unique, hinv.counted,
    fun dev inum hinum hroom => get_returns hinv hinum hroom, ?_⟩
  intro op w' h
  exact ⟨fun i hi => key_perform hinv h hi, fun n hn htype => disk_perform hinv h hn htype⟩

theorem Accounted.reset (hv : Accounted g v) :
    Accounted g { v with inode := fun _ => idleEntry } := by
  have hcache : ∀ i, 0 < ((fun _ => idleEntry : Fin ninode → Inode) i).ref →
      EntryOk g { v with inode := fun _ => idleEntry } idleEntry :=
    fun _ h => absurd h (Int.lt_irrefl 0)
  have hfiles : Volume.files g { v with inode := fun _ => idleEntry } = v.files g :=
    files_recache hv.cache hcache rfl
  refine ⟨⟨hv.formatted.super, hv.formatted.start, hv.formatted.nlog, hv.formatted.metadata,
    fun _ _ h => absurd h (Int.lt_irrefl 0)⟩, ?_, ?_, ?_, hv.held, hcache⟩ <;> rw [hfiles]
  · exact hv.sound
  · exact hv.covered
  · exact hv.present

def tinyCallers : Callers := ⟨{ tinyVolume with inode := fun _ => idleEntry }, []⟩

/-- Two references to the inode without links, and one to an inode of another device. -/
def tinyHistory : List (Callers × Op) × Callers :=
  Transition.replay (perform tiny noDevices) [] tinyCallers
    [.begin, .reference rootDev 2, .reference 0 2, .dup firstInode, .lock firstInode,
      .unlock firstInode, .put firstInode]

theorem inode_references_lastPut :
    tinyHistory.2.refs = [secondInode, firstInode] ∧
      (∀ b ∈ [6, 7, 8], b ∈ tinyHistory.2.volume.listed 2) ∧
      ∃ w', tinyHistory.2.perform tiny noDevices (.put firstInode) = some w' ∧
        Freed tiny tinyHistory.2.volume w'.volume 2 := by
  have hstart : Starts tiny tinyCallers := ⟨Accounted.reset tiny_accounted, fun _ => rfl, rfl⟩
  have hrefs : tinyHistory.2.refs = [secondInode, firstInode] := by decide +kernel
  have hsome : (tinyHistory.2.perform tiny noDevices (.put firstInode)).isSome = true := by
    decide +kernel
  have hfrees : (tinyHistory.2.volume.inode firstInode).inum = 2 ∧
      (tinyHistory.2.volume.inode firstInode).valid = true ∧
      (tinyHistory.2.volume.inode firstInode).d.nlink = 0 := by decide +kernel
  have hlisted : ∀ b ∈ [6, 7, 8], b ∈ tinyHistory.2.volume.listed 2 := by decide +kernel
  have htype : (tinyHistory.2.volume.dinode 2).type ≠ 0 := by decide +kernel
  have hrun : Reaches tiny noDevices tinyHistory.1 tinyHistory.2 :=
    Transition.replay_run (fun _ _ _ h => h) _ _ _ (Transition.Run.start hstart)
  -- the history as a variable, so that nothing is evaluated from here on
  generalize tinyHistory = t at *
  obtain ⟨w', hput⟩ := Option.isSome_iff_exists.mp hsome
  have hdisk := ((inode_references tiny noDevices hrun).2.2.2 _ w' hput).2 2 (by decide) htype
  refine ⟨hrefs, hlisted, w', hput, hdisk.1 ?_⟩
  exact ⟨firstInode, rfl, hfrees.1, by rw [hrefs]; decide, hfrees.2⟩

end Callers

end Vol

end MCertiKOS.Fs
