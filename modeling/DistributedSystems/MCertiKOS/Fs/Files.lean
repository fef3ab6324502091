import Mathlib.Data.List.GetD
import DistributedSystems.Library.Ownership
import DistributedSystems.MCertiKOS.Fs.Inode

/-!
# Files as byte arrays

What the inodes, the data blocks and the bitmap of a volume mean, apart from buffers, log and the
place of each part on the disk.  A block is put to use by a slot of an inode: one of its thirteen
addresses, or an entry of its indirect block.
-/

namespace MCertiKOS.Fs

open Ownership Function

@[ext]
structure Files where
  inode : Nat → Dinode
  block : Nat → Block
  used : Nat → Bool

/-- Where an inode keeps a block number. -/
inductive Slot where
  | addr (k : Fin 13)
  | entry (j : Fin 128)
  deriving DecidableEq

def slotOf (bn : Nat) : Slot :=
  if h : bn < ndirect then .addr ⟨bn, Nat.lt_succ_of_lt h⟩
  else .entry ⟨(bn - ndirect) % 128, Nat.mod_lt _ (by decide)⟩

namespace Files

def target (f : Files) (d : Dinode) : Slot → Nat
  | .addr k => (d.addrs k).toNat
  | .entry j =>
    if d.addrs indirect = 0 then 0 else ((f.block (d.addrs indirect).toNat).word j.val).toNat

def slot (f : Files) (u : Nat × Slot) : Nat := f.target (f.inode u.1) u.2

def Live (f : Files) (inum : Nat) : Prop := (f.inode inum).type ≠ 0

def uses (f : Files) (u : Nat × Slot) (b : Nat) : Prop := f.Live u.1 ∧ f.slot u = b ∧ b ≠ 0

/-- No block is put to two uses, and the blocks in use are marked. -/
def Sound (f : Files) : Prop := Exclusive f.uses fun b => f.used b = true

def Covered (f : Files) : Prop := ∀ b, f.used b = true → ∃ u, f.uses u b

/-- A byte of a file; a block that is not there counts as zeros. -/
def byte (f : Files) (inum p : Nat) : UInt8 :=
  if f.slot (inum, slotOf (p / bsize)) = 0 then 0
  else (f.block (f.slot (inum, slotOf (p / bsize)))).byte (p % bsize)

def contents (f : Files) (inum : Nat) : List UInt8 :=
  (List.range (f.inode inum).size.toNat).map (f.byte inum)

end Files

variable {f f' : Files} {u : Nat × Slot} {b : Nat}

/-! ## 1. Blocks of zeros -/

theorem Block.byte_zeros (i : Nat) : Block.zeros.byte i = 0 := by
  unfold Block.byte Block.zeros
  split
  · rfl
  · rfl

theorem Block.word_zeros (w : Nat) : Block.zeros.word w = 0 := by
  unfold Block.word
  rw [Block.byte_zeros, Block.byte_zeros, Block.byte_zeros, Block.byte_zeros]
  rfl

theorem slotOf_ne_indirect (bn : Nat) : slotOf bn ≠ .addr indirect := by
  unfold slotOf
  split
  case isTrue h =>
    intro he
    have hval : bn = 12 := congrArg Fin.val (Slot.addr.inj he)
    unfold ndirect at h
    omega
  case isFalse => exact Slot.noConfusion

theorem slotOf_inj {bn bn' : Nat} (hb : bn < maxfile) (hb' : bn' < maxfile)
    (h : slotOf bn = slotOf bn') : bn = bn' := by
  unfold maxfile ndirect nindirect at hb hb'
  unfold slotOf ndirect at h
  split at h <;> split at h
  · exact congrArg Fin.val (Slot.addr.inj h)
  · exact Slot.noConfusion h
  · exact Slot.noConfusion h
  · have hval : (bn - 12) % 128 = (bn' - 12) % 128 := congrArg Fin.val (Slot.entry.inj h)
    omega

/-! ## 2. A block is put to use -/

/-- A slot that was empty gets a block that was free and is all zeros now. -/
structure Linked (f f' : Files) (u : Nat × Slot) (b : Nat) : Prop where
  live : f.Live u.1
  empty : f.slot u = 0
  fresh : f.used b = false
  pos : b ≠ 0
  used : f'.used = update f.used b true
  type : ∀ n, (f'.inode n).type = (f.inode n).type
  size : ∀ n, (f'.inode n).size = (f.inode n).size
  slot : ∀ n s, f.Live n → f'.slot (n, s) = if (n, s) = u then b else f.slot (n, s)
  zeros : u.2 ≠ .addr indirect → f'.block b = Block.zeros
  block : ∀ n s x, s ≠ .addr indirect → f.uses (n, s) x → f'.block x = f.block x

namespace Linked

variable (h : Linked f f' u b)

include h

theorem live_iff (n : Nat) : f'.Live n ↔ f.Live n := by
  unfold Files.Live
  rw [h.type]

theorem slot_self : f'.slot u = b := by
  have hs := h.slot u.1 u.2 h.live
  rw [if_pos rfl] at hs
  exact hs

theorem uses_cases (u' : Nat × Slot) (x : Nat) (hu : f'.uses u' x) :
    f.uses u' x ∨ (u' = u ∧ x = b) := by
  obtain ⟨hlive, hslot, hpos⟩ := hu
  have hlive' := (h.live_iff u'.1).mp hlive
  have hs := h.slot u'.1 u'.2 hlive'
  by_cases he : (u'.1, u'.2) = u
  · rw [if_pos he] at hs
    exact Or.inr ⟨he, hslot.symm.trans hs⟩
  · rw [if_neg he] at hs
    exact Or.inl ⟨hlive', hs.symm.trans hslot, hpos⟩

theorem uses_mono (u' : Nat × Slot) (x : Nat) (hu : f.uses u' x) : f'.uses u' x := by
  obtain ⟨hlive, hslot, hpos⟩ := hu
  have hne : (u'.1, u'.2) ≠ u := by
    intro he
    apply hpos
    rw [← hslot]
    exact (congrArg f.slot he).trans h.empty
  have hs := h.slot u'.1 u'.2 hlive
  rw [if_neg hne] at hs
  exact ⟨(h.live_iff u'.1).mpr hlive, hs.trans hslot, hpos⟩

theorem uses_self : f'.uses u b := ⟨(h.live_iff u.1).mpr h.live, h.slot_self, h.pos⟩

theorem sound (hf : f.Sound) : f'.Sound := by
  have hmarked : Exclusive f.uses fun x => f'.used x = true := by
    apply Exclusive.widen hf
    intro x hx
    rw [h.used]
    by_cases he : x = b
    · rw [he, update_self]
    · rw [update_of_ne he]
      exact hx
  have hunused : ∀ u', ¬ f.uses u' b := by
    intro u' hu
    have hx := hf.backed u' b hu
    rw [h.fresh] at hx
    exact Bool.noConfusion hx
  apply hmarked.add u hunused
  · rw [h.used, update_self]
  · exact fun u' x hu => h.uses_cases u' x hu

theorem covered (hf : f.Covered) : f'.Covered := by
  intro x hx
  rw [h.used] at hx
  by_cases he : x = b
  · rw [he]
    exact ⟨u, h.uses_self⟩
  · rw [update_of_ne he] at hx
    obtain ⟨u', hu'⟩ := hf x hx
    exact ⟨u', h.uses_mono u' x hu'⟩

theorem byte_eq (n p : Nat) (hlive : f.Live n) : f'.byte n p = f.byte n p := by
  have hs := h.slot n (slotOf (p / bsize)) hlive
  have hleaf := slotOf_ne_indirect (p / bsize)
  unfold Files.byte
  by_cases he : (n, slotOf (p / bsize)) = u
  · -- a hole became a block of zeros
    rw [if_pos he] at hs
    have hempty : f.slot (n, slotOf (p / bsize)) = 0 := by
      rw [he]
      exact h.empty
    have hzeros := h.zeros (by rw [← he]; exact hleaf)
    rw [hs, hempty, if_pos rfl, if_neg h.pos, hzeros, Block.byte_zeros]
  · rw [if_neg he] at hs
    rw [hs]
    by_cases hzero : f.slot (n, slotOf (p / bsize)) = 0
    · rw [if_pos hzero, if_pos hzero]
    · rw [if_neg hzero, if_neg hzero, h.block n _ _ hleaf ⟨hlive, rfl, hzero⟩]

theorem slot_kept (u' : Nat × Slot) (hlive : f.Live u'.1) (hpos : f.slot u' ≠ 0) :
    f'.slot u' = f.slot u' := by
  have hs := h.slot u'.1 u'.2 hlive
  by_cases he : (u'.1, u'.2) = u
  · exact absurd ((congrArg f.slot he).trans h.empty) hpos
  · rw [if_neg he] at hs
    exact hs

end Linked

namespace Files

def claim (f : Files) (b : Nat) : Files where
  inode := f.inode
  block := update f.block b Block.zeros
  used := update f.used b true

def unmark (f : Files) (b : Nat) : Files := { f with used := update f.used b false }

def setInode (f : Files) (inum : Nat) (d : Dinode) : Files :=
  { f with inode := update f.inode inum d }

def fill (f : Files) (a : Nat) (x : Block) : Files :=
  { f with block := update f.block a x }

variable {d : Dinode}

theorem target_entry_none (h : d.addrs indirect = 0) (j : Fin 128) : f.target d (.entry j) = 0 :=
  if_pos h

theorem target_entry (h : d.addrs indirect ≠ 0) (j : Fin 128) :
    f.target d (.entry j) = ((f.block (d.addrs indirect).toNat).word j.val).toNat :=
  if_neg h

theorem target_congr
    (h : d.addrs indirect ≠ 0 → f'.block (d.addrs indirect).toNat = f.block (d.addrs indirect).toNat)
    (s : Slot) : f'.target d s = f.target d s := by
  cases s with
  | addr k => rfl
  | entry j =>
    by_cases hz : d.addrs indirect = 0
    · rw [target_entry_none hz, target_entry_none hz]
    · rw [target_entry hz, target_entry hz, h hz]

theorem toNat_ne_zero {a : BitVec 32} (h : a ≠ 0) : a.toNat ≠ 0 := by
  intro hz
  exact h (BitVec.eq_of_toNat_eq hz)

theorem uses_table {n : Nat} (hlive : f.Live n) (h : (f.inode n).addrs indirect ≠ 0) :
    f.uses (n, .addr indirect) ((f.inode n).addrs indirect).toNat :=
  ⟨hlive, rfl, toNat_ne_zero h⟩

theorem slot_fill {a : Nat} (x : Block) (ha : ∀ n, ¬ f.uses (n, .addr indirect) a) (n : Nat)
    (s : Slot) (hlive : f.Live n) : (f.fill a x).slot (n, s) = f.slot (n, s) := by
  apply target_congr
  intro hz
  apply update_of_ne
  intro he
  exact ha n (he ▸ uses_table hlive hz)

end Files

theorem Files.Sound.ne_of_uses (hf : f.Sound) (hfresh : f.used b = false) {u : Nat × Slot} {x : Nat}
    (hu : f.uses u x) : x ≠ b := by
  rintro rfl
  exact Bool.false_ne_true (hfresh.symm.trans (hf.backed u x hu))

theorem linked_addr {inum : Nat} {k : Fin 13} (hf : f.Sound) (hlive : f.Live inum)
    (hempty : (f.inode inum).addrs k = 0) (hfresh : f.used b = false) (hpos : b ≠ 0)
    (hb : b < 2 ^ 32) :
    Linked f ((f.claim b).setInode inum { f.inode inum with
      addrs := update (f.inode inum).addrs k (BitVec.ofNat 32 b) }) (inum, .addr k) b := by
  obtain ⟨g, hg⟩ : ∃ g, g = (f.claim b).setInode inum { f.inode inum with
      addrs := update (f.inode inum).addrs k (BitVec.ofNat 32 b) } := ⟨_, rfl⟩
  have hself : g.inode inum = { f.inode inum with
      addrs := update (f.inode inum).addrs k (BitVec.ofNat 32 b) } := by
    rw [hg]
    exact update_self _ _ _
  have hother : ∀ n ≠ inum, g.inode n = f.inode n := by
    intro n hn
    rw [hg]
    exact update_of_ne hn _ _
  have hblock : ∀ x ≠ b, g.block x = f.block x := by
    intro x hx
    rw [hg]
    exact update_of_ne hx _ _
  have hzeros : g.block b = Block.zeros := by
    rw [hg]
    exact update_self _ _ _
  have hunused := fun u x => hf.ne_of_uses hfresh (u := u) (x := x)
  have hword : (BitVec.ofNat 32 b).toNat = b := by
    rw [BitVec.toNat_ofNat, Nat.mod_eq_of_lt hb]
  have hword0 : BitVec.ofNat 32 b ≠ 0 := by
    intro he
    rw [he] at hword
    exact hpos hword.symm
  rw [← hg]
  refine ⟨hlive, ?_, hfresh, hpos, by rw [hg]; rfl, ?_, ?_, ?_, fun _ => hzeros, ?_⟩
  · show ((f.inode inum).addrs k).toNat = 0
    rw [hempty]
    rfl
  · intro n
    by_cases hn : n = inum
    · rw [hn, hself]
    · rw [hother n hn]
  · intro n
    by_cases hn : n = inum
    · rw [hn, hself]
    · rw [hother n hn]
  · intro n s hn
    show g.target (g.inode n) s = if (n, s) = (inum, .addr k) then b else f.target (f.inode n) s
    by_cases he : n = inum
    · subst he
      have haddrs : (g.inode n).addrs =
          update (f.inode n).addrs k (BitVec.ofNat 32 b) := by rw [hself]
      cases s with
      | addr k' =>
        show ((g.inode n).addrs k').toNat = _
        rw [haddrs]
        by_cases hk : k' = k
        · subst hk
          rw [update_self, if_pos rfl, hword]
        · rw [update_of_ne hk, if_neg (by simpa using hk)]
          rfl
      | entry j =>
        rw [if_neg (by simp)]
        by_cases hk : k = indirect
        · -- the new indirect block has no entries
          subst hk
          have hi : (g.inode n).addrs indirect = BitVec.ofNat 32 b := by
            rw [haddrs, update_self]
          rw [Files.target_entry (by rw [hi]; exact hword0), hi, hword, hzeros, Block.word_zeros,
            Files.target_entry_none hempty]
          rfl
        · have hi : (g.inode n).addrs indirect = (f.inode n).addrs indirect := by
            rw [haddrs, update_of_ne (Ne.symm hk)]
          by_cases hz : (f.inode n).addrs indirect = 0
          · rw [Files.target_entry_none (hi.trans hz), Files.target_entry_none hz]
          · rw [Files.target_entry (by rw [hi]; exact hz), Files.target_entry hz, hi,
              hblock _ (hunused _ _ (Files.uses_table hn hz))]
    · rw [hother n he, if_neg (by simpa using fun h => absurd h he)]
      apply Files.target_congr
      intro hz
      exact hblock _ (hunused _ _ (Files.uses_table hn hz))
  · intro n s x _ hu
    exact hblock x (hunused _ _ hu)

theorem linked_entry {inum : Nat} {j : Fin 128} (hf : f.Sound) (hlive : f.Live inum)
    (htable : (f.inode inum).addrs indirect ≠ 0)
    (hempty : (f.block ((f.inode inum).addrs indirect).toNat).word j = 0)
    (hfresh : f.used b = false) (hpos : b ≠ 0) (hb : b < 2 ^ 32) :
    Linked f ((f.claim b).fill ((f.inode inum).addrs indirect).toNat
      ((f.block ((f.inode inum).addrs indirect).toNat).setWord j (BitVec.ofNat 32 b)))
      (inum, .entry j) b := by
  obtain ⟨t, ht⟩ : ∃ t, t = ((f.inode inum).addrs indirect).toNat := ⟨_, rfl⟩
  rw [← ht] at hempty ⊢
  obtain ⟨g, hg⟩ : ∃ g, g = (f.claim b).fill t ((f.block t).setWord j (BitVec.ofNat 32 b)) :=
    ⟨_, rfl⟩
  have huse : f.uses (inum, .addr indirect) t := ht ▸ Files.uses_table hlive htable
  have hunused := fun u x => hf.ne_of_uses hfresh (u := u) (x := x)
  have htb : t ≠ b := hunused _ _ huse
  have hinode : g.inode = f.inode := by
    rw [hg]
    rfl
  have hself : g.block t = (f.block t).setWord j (BitVec.ofNat 32 b) := by
    rw [hg]
    exact update_self _ _ _
  have hzeros : g.block b = Block.zeros := by
    rw [hg]
    exact (update_of_ne htb.symm _ _).trans (update_self _ _ _)
  have hblock : ∀ x, x ≠ t → x ≠ b → g.block x = f.block x := by
    intro x hxt hxb
    rw [hg]
    exact (update_of_ne hxt _ _).trans (update_of_ne hxb _ _)
  have hword : (BitVec.ofNat 32 b).toNat = b := by
    rw [BitVec.toNat_ofNat, Nat.mod_eq_of_lt hb]
  rw [← hg]
  refine ⟨hlive, ?_, hfresh, hpos, by rw [hg]; rfl, fun n => by rw [hinode], fun n => by rw [hinode],
    ?_, fun _ => hzeros, ?_⟩
  · show f.target (f.inode inum) (.entry j) = 0
    rw [Files.target_entry htable, ← ht]
    exact congrArg BitVec.toNat hempty
  · intro n s hn
    show g.target (g.inode n) s = if (n, s) = (inum, .entry j) then b else f.target (f.inode n) s
    rw [hinode]
    by_cases he : n = inum
    · subst he
      cases s with
      | addr k => rw [if_neg (by simp)]; rfl
      | entry j' =>
        rw [Files.target_entry htable, Files.target_entry htable, ← ht, hself]
        by_cases hj : j' = j
        · subst hj
          rw [if_pos rfl, Block.word_setWord_same _ j'.isLt, hword]
        · have hval : j'.val ≠ j.val := fun hv => hj (Fin.ext hv)
          rw [if_neg (by simpa using hj), Block.word_setWord_other _ j'.isLt hval]
    · rw [if_neg (by simpa using fun h => absurd h he)]
      apply Files.target_congr
      intro hz
      have hu := Files.uses_table hn hz
      apply hblock _ _ (hunused _ _ hu)
      intro heq
      rw [heq] at hu
      exact he (congrArg Prod.fst (hf.unique _ _ _ hu huse))
  · intro n s x hs hu
    apply hblock x _ (hunused _ _ hu)
    intro heq
    rw [heq] at hu
    exact hs (congrArg Prod.snd (hf.unique _ _ _ hu huse))

/-! ## 3. Allocation as the files see it -/

/-- Blocks were put to use, and the files read as before. -/
structure Grown (f f' : Files) (inum : Nat) : Prop where
  sound : f.Sound → f'.Sound
  covered : f.Covered → f'.Covered
  type : ∀ n, (f'.inode n).type = (f.inode n).type
  size : ∀ n, (f'.inode n).size = (f.inode n).size
  others : ∀ n ≠ inum, f'.inode n = f.inode n
  byte : ∀ n p, f.Live n → f'.byte n p = f.byte n p
  slot : ∀ u, f.Live u.1 → f.slot u ≠ 0 → f'.slot u = f.slot u

variable {f'' : Files} {inum : Nat}

theorem Grown.refl (f : Files) (inum : Nat) : Grown f f inum :=
  ⟨id, id, fun _ => rfl, fun _ => rfl, fun _ _ => rfl, fun _ _ _ => rfl, fun _ _ _ => rfl⟩

theorem Grown.live (h : Grown f f' inum) (n : Nat) : f'.Live n ↔ f.Live n := by
  unfold Files.Live
  rw [h.type]

theorem Grown.trans (h : Grown f f' inum) (h' : Grown f' f'' inum) : Grown f f'' inum where
  sound hf := h'.sound (h.sound hf)
  covered hf := h'.covered (h.covered hf)
  type n := (h'.type n).trans (h.type n)
  size n := (h'.size n).trans (h.size n)
  others n hn := (h'.others n hn).trans (h.others n hn)
  byte n p hn := (h'.byte n p ((h.live n).mpr hn)).trans (h.byte n p hn)
  slot u hu hpos := by
    have hs := h.slot u hu hpos
    rw [h'.slot u ((h.live u.1).mpr hu) (by rw [hs]; exact hpos), hs]

theorem Linked.grown (h : Linked f f' u b) (hothers : ∀ n ≠ u.1, f'.inode n = f.inode n) :
    Grown f f' u.1 :=
  ⟨h.sound, h.covered, h.type, h.size, hothers, h.byte_eq, h.slot_kept⟩

/-! ## 4. Stores into a file -/

theorem Files.Sound.notTable (hf : f.Sound) {s : Slot} {a : Nat} (hs : s ≠ .addr indirect)
    (hu : f.uses (inum, s) a) : ∀ n, ¬ f.uses (n, .addr indirect) a := by
  intro n hn
  exact hs (congrArg Prod.snd (hf.unique _ _ _ hu hn))

section Fill

variable {a : Nat} (x : Block) (ha : ∀ n, ¬ f.uses (n, .addr indirect) a)

include ha

theorem Files.uses_fill (u : Nat × Slot) (c : Nat) : (f.fill a x).uses u c ↔ f.uses u c := by
  constructor
  · rintro ⟨hlive, hslot, hpos⟩
    exact ⟨hlive, (f.slot_fill x ha u.1 u.2 hlive).symm.trans hslot, hpos⟩
  · rintro ⟨hlive, hslot, hpos⟩
    exact ⟨hlive, (f.slot_fill x ha u.1 u.2 hlive).trans hslot, hpos⟩

theorem Files.Sound.fill (hf : f.Sound) : (f.fill a x).Sound :=
  Exclusive.shrink hf (fun u c hu => (Files.uses_fill x ha u c).mp hu) fun _ _ _ hc => hc

theorem Files.Covered.fill (hf : f.Covered) : (f.fill a x).Covered := by
  intro c hc
  obtain ⟨u, hu⟩ := hf c hc
  exact ⟨u, (Files.uses_fill x ha u c).mpr hu⟩

end Fill

structure Spliced (f f' : Files) (inum off : Nat) (src : List UInt8) : Prop where
  sound : f.Sound → f'.Sound
  covered : f.Covered → f'.Covered
  type : ∀ n, (f'.inode n).type = (f.inode n).type
  size : ∀ n, (f'.inode n).size = (f.inode n).size
  others : ∀ n ≠ inum, f'.inode n = f.inode n
  byte : ∀ n p, f.Live n → p < maxfile * bsize → f'.byte n p =
    if n = inum ∧ off ≤ p ∧ p < off + src.length then src.getD (p - off) 0 else f.byte n p
  slot : ∀ u, f.Live u.1 → f.slot u ≠ 0 → f'.slot u = f.slot u
  present : ∀ p, off ≤ p → p < off + src.length → f'.slot (inum, slotOf (p / bsize)) ≠ 0

variable {off : Nat} {src : List UInt8}

theorem Spliced.live (h : Spliced f f' inum off src) (n : Nat) : f'.Live n ↔ f.Live n := by
  unfold Files.Live
  rw [h.type]

theorem Spliced.nil (f : Files) (inum off : Nat) : Spliced f f inum off [] where
  sound := id
  covered := id
  type _ := rfl
  size _ := rfl
  others _ _ := rfl
  byte n p _ _ := by
    rw [if_neg]
    rintro ⟨_, hle, hlt⟩
    simp only [List.length_nil] at hlt
    omega
  slot _ _ _ := rfl
  present p hle hlt := by
    simp only [List.length_nil] at hlt
    omega

theorem Spliced.after_grown (hg : Grown f f' inum) (h : Spliced f' f'' inum off src) :
    Spliced f f'' inum off src where
  sound hf := h.sound (hg.sound hf)
  covered hf := h.covered (hg.covered hf)
  type n := (h.type n).trans (hg.type n)
  size n := (h.size n).trans (hg.size n)
  others n hn := (h.others n hn).trans (hg.others n hn)
  byte n p hn hp := by
    rw [h.byte n p ((hg.live n).mpr hn) hp, hg.byte n p hn]
  slot u hu hpos := by
    have hs := hg.slot u hu hpos
    rw [h.slot u ((hg.live u.1).mpr hu) (by rw [hs]; exact hpos), hs]
  present := h.present

theorem Spliced.append {src' : List UInt8} (h : Spliced f f' inum off src)
    (h' : Spliced f' f'' inum (off + src.length) src') (hlive : f.Live inum) :
    Spliced f f'' inum off (src ++ src') where
  sound hf := h'.sound (h.sound hf)
  covered hf := h'.covered (h.covered hf)
  type n := (h'.type n).trans (h.type n)
  size n := (h'.size n).trans (h.size n)
  others n hn := (h'.others n hn).trans (h.others n hn)
  byte n p hn hp := by
    rw [h'.byte n p ((h.live n).mpr hn) hp, h.byte n p hn hp, List.length_append]
    by_cases hlast : n = inum ∧ off + src.length ≤ p ∧ p < off + src.length + src'.length
    · rw [if_pos hlast, if_pos ⟨hlast.1, by omega, by omega⟩,
        List.getD_append_right _ _ _ _ (by omega)]
      congr 1
      omega
    · rw [if_neg hlast]
      by_cases hfirst : n = inum ∧ off ≤ p ∧ p < off + src.length
      · rw [if_pos hfirst, if_pos ⟨hfirst.1, by omega, by omega⟩,
          List.getD_append _ _ _ _ (by omega)]
      · rw [if_neg hfirst, if_neg]
        rintro ⟨hn', hle, hlt⟩
        by_cases hp' : p < off + src.length
        · exact hfirst ⟨hn', hle, hp'⟩
        · exact hlast ⟨hn', by omega, by omega⟩
  slot u hu hpos := by
    have hs := h.slot u hu hpos
    rw [h'.slot u ((h.live u.1).mpr hu) (by rw [hs]; exact hpos), hs]
  present p hle hlt := by
    rw [List.length_append] at hlt
    by_cases hp : p < off + src.length
    · have hfirst := h.present p hle hp
      rw [h'.slot (inum, slotOf (p / bsize)) ((h.live inum).mpr hlive) hfirst]
      exact hfirst
    · exact h'.present p (by omega) (by omega)

theorem Block.byte_splice (o : Nat) (src : List UInt8) (b : Block) {i : Nat} (hi : i < bsize) :
    (Block.splice o src b).byte i =
      if o ≤ i ∧ i < o + src.length then src.getD (i - o) 0 else b.byte i := by
  have hlt : i < 512 := hi
  unfold Block.byte Block.splice
  rw [dif_pos hlt, dif_pos hlt]

theorem spliced_fill {a : Nat} (hf : f.Sound) (hlive : f.Live inum) (hoff : off < maxfile * bsize)
    (ha : f.slot (inum, slotOf (off / bsize)) = a) (hpos : a ≠ 0)
    (hfit : off % bsize + src.length ≤ bsize) :
    Spliced f (f.fill a (Block.splice (off % bsize) src (f.block a))) inum off src where
  sound := fun hf => hf.fill _ (hf.notTable (slotOf_ne_indirect _) ⟨hlive, ha, hpos⟩)
  covered := fun hc => hc.fill _ (hf.notTable (slotOf_ne_indirect _) ⟨hlive, ha, hpos⟩)
  type _ := rfl
  size _ := rfl
  others _ _ := rfl
  byte n p hn hp := by
    have hleaf := slotOf_ne_indirect (off / bsize)
    have huse : f.uses (inum, slotOf (off / bsize)) a := ⟨hlive, ha, hpos⟩
    have hslot := f.slot_fill (Block.splice (off % bsize) src (f.block a)) (hf.notTable hleaf huse) n
      (slotOf (p / bsize)) hn
    have hmod : p % bsize < bsize := Nat.mod_lt _ (by decide)
    unfold Files.byte
    rw [hslot]
    by_cases hzero : f.slot (n, slotOf (p / bsize)) = 0
    · rw [if_pos hzero, if_pos hzero, if_neg]
      -- a hole is not in the block that was stored
      rintro ⟨rfl, hle, hlt⟩
      have hblock : p / bsize = off / bsize := by
        unfold bsize at hfit hmod ⊢
        omega
      rw [hblock, ha] at hzero
      exact hpos hzero
    · rw [if_neg hzero, if_neg hzero]
      by_cases he : f.slot (n, slotOf (p / bsize)) = a
      · -- the same block: the same file and the same block number
        have hsame := hf.unique _ _ _ ⟨hn, he, hpos⟩ huse
        have hn' : n = inum := congrArg Prod.fst hsame
        have hblock : p / bsize = off / bsize := by
          apply slotOf_inj _ _ (congrArg Prod.snd hsame)
          · unfold bsize at hp ⊢
            omega
          · unfold bsize at hoff ⊢
            omega
        have hfilled : (f.fill a (Block.splice (off % bsize) src (f.block a))).block a =
            Block.splice (off % bsize) src (f.block a) := update_self _ _ _
        rw [he, hfilled, Block.byte_splice _ _ _ hmod]
        by_cases hin : off % bsize ≤ p % bsize ∧ p % bsize < off % bsize + src.length
        · rw [if_pos hin, if_pos ⟨hn', by unfold bsize at hblock hin; omega,
            by unfold bsize at hblock hin; omega⟩]
          congr 1
          unfold bsize at hblock ⊢
          omega
        · rw [if_neg hin, if_neg]
          rintro ⟨_, hle, hlt⟩
          apply hin
          unfold bsize at hblock ⊢
          omega
      · have hother : (f.fill a (Block.splice (off % bsize) src (f.block a))).block
            (f.slot (n, slotOf (p / bsize))) = f.block (f.slot (n, slotOf (p / bsize))) :=
          update_of_ne he _ _
        rw [hother, if_neg]
        rintro ⟨rfl, hle, hlt⟩
        apply he
        have hblock : p / bsize = off / bsize := by
          unfold bsize at hfit hmod ⊢
          omega
        rw [hblock]
        exact ha
  slot u hu _ :=
    f.slot_fill _ (hf.notTable (slotOf_ne_indirect _) ⟨hlive, ha, hpos⟩) u.1 u.2 hu
  present p hle hlt := by
    have hblock : p / bsize = off / bsize := by
      unfold bsize at hfit ⊢
      omega
    have hkept := f.slot_fill (Block.splice (off % bsize) src (f.block a))
      (hf.notTable (slotOf_ne_indirect _) ⟨hlive, ha, hpos⟩) inum (slotOf (p / bsize)) hlive
    rw [hkept, hblock, ha]
    exact hpos

/-! ## 5. Inodes with the same blocks -/

/-- The inodes may differ in other fields than type and addresses. -/
structure SameSlots (f f' : Files) : Prop where
  type : ∀ n, (f'.inode n).type = (f.inode n).type
  addrs : ∀ n, (f'.inode n).addrs = (f.inode n).addrs
  block : f'.block = f.block
  used : f'.used = f.used

namespace SameSlots

variable (h : SameSlots f f')

include h

theorem live (n : Nat) : f'.Live n ↔ f.Live n := by
  unfold Files.Live
  rw [h.type]

theorem slot (u : Nat × Slot) : f'.slot u = f.slot u := by
  unfold Files.slot
  cases u.2 with
  | addr k =>
    show ((f'.inode u.1).addrs k).toNat = _
    rw [h.addrs]
    rfl
  | entry j =>
    unfold Files.target
    rw [h.addrs, h.block]

theorem uses (u : Nat × Slot) (b : Nat) : f'.uses u b ↔ f.uses u b := by
  unfold Files.uses
  rw [h.live, h.slot]

theorem byte (n p : Nat) : f'.byte n p = f.byte n p := by
  unfold Files.byte
  rw [h.slot, h.block]

theorem sound (hf : f.Sound) : f'.Sound := by
  apply Exclusive.shrink hf (fun u b hu => (h.uses u b).mp hu)
  intro u b _ hb
  rw [h.used]
  exact hb

theorem covered (hf : f.Covered) : f'.Covered := by
  intro b hb
  rw [h.used] at hb
  obtain ⟨u, hu⟩ := hf b hb
  exact ⟨u, (h.uses u b).mpr hu⟩

end SameSlots

theorem sameSlots_setInode {d : Dinode} (htype : d.type = (f.inode inum).type)
    (haddrs : d.addrs = (f.inode inum).addrs) : SameSlots f (f.setInode inum d) where
  type n := by
    by_cases h : n = inum
    · rw [h]
      exact (congrArg Dinode.type (update_self _ _ _)).trans htype
    · exact congrArg Dinode.type (update_of_ne h _ _)
  addrs n := by
    by_cases h : n = inum
    · rw [h]
      exact (congrArg Dinode.addrs (update_self _ _ _)).trans haddrs
    · exact congrArg Dinode.addrs (update_of_ne h _ _)
  block := rfl
  used := rfl

def Files.resize (f : Files) (inum : Nat) (size : BitVec 32) : Files :=
  f.setInode inum { f.inode inum with size := size }

namespace Files

theorem resize_self (f : Files) (inum : Nat) : f.resize inum (f.inode inum).size = f := by
  apply Files.ext
  · exact update_eq_self _ _
  · rfl
  · rfl

theorem inode_resize_self (inum : Nat) (size : BitVec 32) :
    (f.resize inum size).inode inum = { f.inode inum with size := size } :=
  update_self _ _ _

theorem inode_resize_other (inum : Nat) (size : BitVec 32) {n : Nat} (h : n ≠ inum) :
    (f.resize inum size).inode n = f.inode n :=
  update_of_ne h _ _

theorem resize_sameSlots (f : Files) (inum : Nat) (size : BitVec 32) :
    SameSlots f (f.resize inum size) :=
  sameSlots_setInode rfl rfl

end Files

/-! ## 6. Contents -/

def overwrite (old : List UInt8) (off : Nat) (src : List UInt8) : List UInt8 :=
  old.take off ++ src ++ old.drop (off + src.length)

theorem Files.getElem?_contents (f : Files) (inum p : Nat) :
    (f.contents inum)[p]? = if p < (f.inode inum).size.toNat then some (f.byte inum p) else none := by
  unfold Files.contents
  rw [List.getElem?_map]
  split
  case isTrue h =>
    rw [List.getElem?_range h]
    rfl
  case isFalse h =>
    rw [List.getElem?_eq_none (by rw [List.length_range]; omega)]
    rfl

theorem Files.length_contents (f : Files) (inum : Nat) :
    (f.contents inum).length = (f.inode inum).size.toNat := by
  unfold Files.contents
  rw [List.length_map, List.length_range]

theorem contents_overwrite {d : Dinode} (h : Spliced f f' inum off src) (hlive : f.Live inum)
    (hsize : (f.inode inum).size.toNat ≤ maxfile * bsize) (hoff : off ≤ (f.inode inum).size.toNat)
    (hend : off + src.length ≤ maxfile * bsize) (hbyte : ∀ p, f''.byte inum p = f'.byte inum p)
    (hd : f''.inode inum = d)
    (hnew : d.size.toNat = max (f.inode inum).size.toNat (off + src.length)) :
    f''.contents inum = overwrite (f.contents inum) off src := by
  apply List.ext_getElem?
  intro p
  have hlen := f.length_contents inum
  rw [Files.getElem?_contents, hd, hnew, hbyte]
  unfold overwrite
  by_cases hp : p < max (f.inode inum).size.toNat (off + src.length)
  · rw [if_pos hp, h.byte inum p hlive (by omega)]
    by_cases hlow : p < off
    · rw [if_neg (by omega), List.append_assoc, List.getElem?_append_left (by
          rw [List.length_take]; omega), List.getElem?_take_of_lt hlow, Files.getElem?_contents,
        if_pos (by omega)]
    · by_cases hmid : p < off + src.length
      · rw [if_pos ⟨rfl, by omega, hmid⟩, List.append_assoc, List.getElem?_append_right (by
            rw [List.length_take]; omega), List.length_take, hlen,
          List.getElem?_append_left (by omega), Nat.min_eq_left hoff,
          List.getD_eq_getElem?_getD, List.getElem?_eq_getElem (by omega)]
        rfl
      · rw [if_neg (by omega), List.getElem?_append_right (by
            rw [List.length_append, List.length_take]; omega), List.length_append,
          List.length_take, hlen, Nat.min_eq_left hoff, List.getElem?_drop,
          Files.getElem?_contents, if_pos (by omega)]
        congr 2
        omega
  · rw [if_neg hp]
    symm
    apply List.getElem?_eq_none
    rw [List.length_append, List.length_append, List.length_take, List.length_drop, hlen]
    omega

end MCertiKOS.Fs
