import DistributedSystems.MCertiKOS.Fs.InodeSpec

/-!
# Giving blocks back (`inode_trunc`)

The blocks of an inode are freed slot by slot.  A direct block is freed and its address cleared before
the next one.  The entries of the indirect block are freed while the block still lists them; they
cease to be in use together, when the address of the indirect block is cleared.
-/

namespace MCertiKOS.Fs

open Fallible Ownership Function

variable {f f' : Files} {inum : Nat}

/-! ## 1. Slots given up -/

/-- The slots `S` of an inode are empty now, and their blocks are not marked any more. -/
structure Dropped (f f' : Files) (inum : Nat) (S : Slot → Prop) : Prop where
  live : ∀ n, f'.Live n ↔ f.Live n
  gone : ∀ s, S s → f'.slot (inum, s) = 0
  kept : ∀ n s, f.Live n → ¬ (n = inum ∧ S s) → f'.slot (n, s) = f.slot (n, s)
  used : ∀ x, f'.used x = true ↔ f.used x = true ∧ ¬ ∃ s, S s ∧ f.uses (inum, s) x

namespace Dropped

variable {S : Slot → Prop} (h : Dropped f f' inum S)

include h

theorem uses_iff (n : Nat) (s : Slot) (x : Nat) :
    f'.uses (n, s) x ↔ f.uses (n, s) x ∧ ¬ (n = inum ∧ S s) := by
  constructor
  · rintro ⟨hlive, hslot, hpos⟩
    have hlive' := (h.live n).mp hlive
    have hnot : ¬ (n = inum ∧ S s) := by
      rintro ⟨rfl, hs⟩
      rw [h.gone s hs] at hslot
      exact hpos hslot.symm
    rw [h.kept n s hlive' hnot] at hslot
    exact ⟨⟨hlive', hslot, hpos⟩, hnot⟩
  · rintro ⟨⟨hlive, hslot, hpos⟩, hnot⟩
    exact ⟨(h.live n).mpr hlive, (h.kept n s hlive hnot).trans hslot, hpos⟩

theorem sound (hf : f.Sound) : f'.Sound := by
  apply Exclusive.shrink hf
  · exact fun u x hu => ((h.uses_iff u.1 u.2 x).mp hu).1
  · intro u x hu hx
    obtain ⟨hu', hnot⟩ := (h.uses_iff u.1 u.2 x).mp hu
    rw [h.used]
    refine ⟨hx, ?_⟩
    -- the block has one use, and this one stays
    rintro ⟨s, hs, huse⟩
    have he := hf.unique _ _ _ hu' huse
    exact hnot ⟨congrArg Prod.fst he, by rw [show u.2 = s from congrArg Prod.snd he]; exact hs⟩

theorem covered (hf : f.Covered) : f'.Covered := by
  intro x hx
  obtain ⟨hused, hnone⟩ := (h.used x).mp hx
  obtain ⟨u, hu⟩ := hf x hused
  refine ⟨u, (h.uses_iff u.1 u.2 x).mpr ⟨hu, ?_⟩⟩
  rintro ⟨he, hs⟩
  exact hnone ⟨u.2, hs, by rw [← he]; exact hu⟩

end Dropped

namespace Files

def freeSlot (f : Files) (inum : Nat) (k : Fin 13) : Files :=
  (f.unmark ((f.inode inum).addrs k).toNat).setInode inum
    { f.inode inum with addrs := update (f.inode inum).addrs k 0 }

def unmarkAll (f : Files) (xs : List Nat) : Files :=
  { f with used := fun x => f.used x && decide (x ∉ xs) }

theorem unmarkAll_nil (f : Files) : f.unmarkAll [] = f := by
  apply Files.ext
  · rfl
  · rfl
  · funext x
    simp [unmarkAll]

theorem unmarkAll_snoc (f : Files) (xs : List Nat) (b : Nat) :
    f.unmarkAll (xs ++ [b]) = (f.unmarkAll xs).unmark b := by
  apply Files.ext
  · rfl
  · rfl
  · funext x
    show (f.used x && decide (x ∉ xs ++ [b])) = update (f.unmarkAll xs).used b false x
    by_cases h : x = b
    · rw [h, update_self]
      simp
    · rw [update_of_ne h]
      simp [unmarkAll, h]

theorem unmark_free {b : Nat} (h : f.used b = false) : f.unmark b = f := by
  apply Files.ext
  · rfl
  · rfl
  · exact update_eq_self_iff.mpr h.symm

theorem inode_freeSlot_self (k : Fin 13) : (f.freeSlot inum k).inode inum =
    { f.inode inum with addrs := update (f.inode inum).addrs k 0 } :=
  update_self _ _ _

theorem inode_freeSlot_other (k : Fin 13) {n : Nat} (h : n ≠ inum) :
    (f.freeSlot inum k).inode n = f.inode n :=
  update_of_ne h _ _

theorem live_freeSlot (k : Fin 13) (n : Nat) : (f.freeSlot inum k).Live n ↔ f.Live n := by
  unfold Live
  by_cases h : n = inum
  · rw [h, inode_freeSlot_self]
  · rw [inode_freeSlot_other k h]

theorem addrs_freeSlot (k : Fin 13) : ((f.freeSlot inum k).inode inum).addrs =
    update (f.inode inum).addrs k 0 := by
  rw [inode_freeSlot_self]

theorem freeSlot_empty {k : Fin 13} (hzero : f.used 0 = false) (h : (f.inode inum).addrs k = 0) :
    f.freeSlot inum k = f := by
  unfold freeSlot
  have hblock : ((f.inode inum).addrs k).toNat = 0 := by
    rw [h]
    rfl
  have haddrs : update (f.inode inum).addrs k 0 = (f.inode inum).addrs := by
    apply update_eq_self_iff.mpr
    exact h.symm
  rw [hblock, unmark_free hzero, haddrs]
  apply Files.ext
  · exact update_eq_self _ _
  · rfl
  · rfl

theorem slot_other {n : Nat} (s : Slot) (hinode : f'.inode n = f.inode n)
    (hblock : f'.block = f.block) : f'.slot (n, s) = f.slot (n, s) := by
  show f'.target (f'.inode n) s = f.target (f.inode n) s
  rw [hinode]
  exact target_congr (fun _ => by rw [hblock]) s

end Files

theorem dropped_freeSlot {k : Fin 13} (hk : k ≠ indirect) (hlive : f.Live inum)
    (hpos : (f.inode inum).addrs k ≠ 0) :
    Dropped f (f.freeSlot inum k) inum (fun s => s = .addr k) where
  live := Files.live_freeSlot k
  gone := by
    rintro s rfl
    show (((f.freeSlot inum k).inode inum).addrs k).toNat = 0
    rw [Files.addrs_freeSlot, update_self]
    rfl
  kept n s hn hnot := by
    by_cases he : n = inum
    · subst he
      have hs : s ≠ .addr k := fun hc => hnot ⟨rfl, hc⟩
      cases s with
      | addr k' =>
        show (((f.freeSlot n k).inode n).addrs k').toNat = ((f.inode n).addrs k').toNat
        rw [Files.addrs_freeSlot, update_of_ne fun hc => hs (congrArg Slot.addr hc)]
      | entry j =>
        have hi : ((f.freeSlot n k).inode n).addrs indirect = (f.inode n).addrs indirect := by
          rw [Files.addrs_freeSlot, update_of_ne hk.symm]
        show (f.freeSlot n k).target ((f.freeSlot n k).inode n) (.entry j) =
          f.target (f.inode n) (.entry j)
        by_cases hz : (f.inode n).addrs indirect = 0
        · rw [Files.target_entry_none (hi.trans hz), Files.target_entry_none hz]
        · rw [Files.target_entry (by rw [hi]; exact hz), Files.target_entry hz, hi]
          rfl
    · exact Files.slot_other s (Files.inode_freeSlot_other k he) rfl
  used x := by
    show update f.used ((f.inode inum).addrs k).toNat false x = true ↔ _
    have hself : f.uses (inum, .addr k) ((f.inode inum).addrs k).toNat :=
      ⟨hlive, rfl, Files.toNat_ne_zero hpos⟩
    by_cases he : x = ((f.inode inum).addrs k).toNat
    · rw [he, update_self]
      constructor
      · exact fun hc => Bool.noConfusion hc
      · exact fun hc => absurd ⟨.addr k, rfl, hself⟩ hc.2
    · rw [update_of_ne he]
      constructor
      · intro hx
        refine ⟨hx, ?_⟩
        rintro ⟨s, rfl, huse⟩
        exact he huse.2.1.symm
      · exact fun hc => hc.1

def Slot.isIndirect : Slot → Prop
  | .addr k => k = indirect
  | .entry _ => True

def Block.listed (b : Block) (n : Nat) : List Nat := (List.range n).map fun j => (b.word j).toNat

theorem dropped_table (hlive : f.Live inum) (hpos : (f.inode inum).addrs indirect ≠ 0)
    (hzero : f.used 0 = false) {xs : List Nat}
    (hxs : xs = (f.block ((f.inode inum).addrs indirect).toNat).listed nindirect) :
    Dropped f ((f.unmarkAll xs).freeSlot inum indirect) inum Slot.isIndirect where
  live n := Files.live_freeSlot (f := f.unmarkAll xs) indirect n
  gone := by
    have hgone : (((f.unmarkAll xs).freeSlot inum indirect).inode inum).addrs indirect = 0 := by
      rw [Files.addrs_freeSlot, update_self]
    intro s hs
    cases s with
    | addr k =>
      obtain rfl : k = indirect := hs
      exact congrArg BitVec.toNat hgone
    | entry j => exact Files.target_entry_none hgone j
  kept n s hn hnot := by
    by_cases he : n = inum
    · subst he
      cases s with
      | addr k =>
        have hk : k ≠ indirect := fun hc => hnot ⟨rfl, hc⟩
        show ((((f.unmarkAll xs).freeSlot n indirect).inode n).addrs k).toNat =
          ((f.inode n).addrs k).toNat
        rw [Files.addrs_freeSlot, update_of_ne hk]
        rfl
      | entry j => exact absurd ⟨rfl, trivial⟩ hnot
    · exact Files.slot_other s
        (Files.inode_freeSlot_other (f := f.unmarkAll xs) indirect he) rfl
  used x := by
    have htable : f.uses (inum, .addr indirect) ((f.inode inum).addrs indirect).toNat :=
      Files.uses_table hlive hpos
    have hentry : ∀ j : Fin 128, f.slot (inum, .entry j) =
        ((f.block ((f.inode inum).addrs indirect).toNat).word j.val).toNat :=
      fun j => Files.target_entry hpos j
    show update (f.unmarkAll xs).used ((f.inode inum).addrs indirect).toNat false x = true ↔ _
    by_cases he : x = ((f.inode inum).addrs indirect).toNat
    · rw [he, update_self]
      constructor
      · exact fun hc => Bool.noConfusion hc
      · exact fun hc => absurd ⟨.addr indirect, rfl, htable⟩ hc.2
    · rw [update_of_ne he]
      show (f.used x && decide (x ∉ xs)) = true ↔ _
      rw [Bool.and_eq_true, decide_eq_true_iff]
      constructor
      · rintro ⟨hused, hnot⟩
        refine ⟨hused, ?_⟩
        rintro ⟨s, hs, huse⟩
        cases s with
        | addr k =>
          obtain rfl : k = indirect := hs
          exact he huse.2.1.symm
        | entry j =>
          apply hnot
          rw [hxs]
          apply List.mem_map.mpr
          exact ⟨j.val, List.mem_range.mpr j.isLt, (hentry j).symm.trans huse.2.1⟩
      · rintro ⟨hused, hnone⟩
        refine ⟨hused, ?_⟩
        intro hmem
        rw [hxs] at hmem
        obtain ⟨j, hj, hx⟩ := List.mem_map.mp hmem
        have hj' : j < 128 := List.mem_range.mp hj
        -- a marked block is not block 0, so the entry is a use
        have hx0 : x ≠ 0 := by
          rintro rfl
          rw [hzero] at hused
          exact Bool.noConfusion hused
        exact hnone ⟨.entry ⟨j, hj'⟩, trivial, hlive, (hentry ⟨j, hj'⟩).trans hx, hx0⟩

namespace Vol

variable {g : Geometry} {v v' : Volume} {i : Fin ninode}

/-! ## 2. Direct blocks -/

theorem zero_unused (g : Geometry) (v : Volume) : (v.files g).used 0 = false := by
  apply files_unused
  intro h
  exact Geometry.IsData.pos g h rfl

theorem wp_freeDirect {k : Fin 13} {Q : Unit → Volume → Prop} (hv : Formatted g v)
    (hi : Valid g v i) (hheld : HoldsData g v)
    (hused : (v.inode i).d.addrs k ≠ 0 → (v.files g).used ((v.inode i).d.addrs k).toNat = true)
    (hQ : ∀ v', Moved g v v' i → v'.files g = (v.files g).freeSlot (v.inode i).inum k → Q () v') :
    wp (freeDirect i k) Q (Limits g) v := by
  have hd := hi.files_inode hv
  unfold freeDirect
  rw [wp_bind, wp_get]
  split
  case isTrue hempty =>
    apply hQ v (Moved.refl hv i)
    rw [Files.freeSlot_empty (zero_unused g v) (by rw [hd]; exact hempty)]
  case isFalse hpos =>
    rw [wp_bind]
    apply wp_blockFree hv hheld (hused hpos)
    intro v₁ hv₁ hframe hfiles hdinode
    rw [wp_setDinode]
    have hi₁ : Valid g v₁ i := hi.congr (congrFun hframe.inode i)
    apply hQ
    · refine ⟨hv₁.withDinode i _, hframe.held, hframe.busy, ?_, ?_, hdinode⟩
      · intro j hj
        rw [withDinode_other _ _ hj, hframe.inode]
      · refine ⟨update (v.inode i).d.addrs k 0, ?_⟩
        rw [withDinode_self, hframe.inode]
    · rw [files_withDinode hv₁ hi₁, hfiles, hframe.inode]
      unfold Files.freeSlot
      rw [hd]

structure Shrunk (g : Geometry) (v v' : Volume) (i : Fin ninode) : Prop where
  moved : Moved g v v' i
  sound : (v'.files g).Sound
  covered : (v'.files g).Covered
  live : ∀ n, (v'.files g).Live n ↔ (v.files g).Live n
  others : ∀ n ≠ (v.inode i).inum, (v'.files g).inode n = (v.files g).inode n
  block : (v'.files g).block = (v.files g).block

theorem Shrunk.refl (hv : Good g v i) (hcovered : (v.files g).Covered) : Shrunk g v v i :=
  ⟨Moved.refl hv.formatted i, hv.sound, hcovered, fun _ => Iff.rfl, fun _ _ => rfl, rfl⟩

theorem Shrunk.trans {v'' : Volume} (h : Shrunk g v v' i) (h' : Shrunk g v' v'' i) :
    Shrunk g v v'' i where
  moved := h.moved.trans h'.moved
  sound := h'.sound
  covered := h'.covered
  live n := (h'.live n).trans (h.live n)
  others n hn := (h'.others n (by rw [h.moved.inum]; exact hn)).trans (h.others n hn)
  block := h'.block.trans h.block

theorem Shrunk.good (h : Shrunk g v v' i) (hv : Good g v i) : Good g v' i := by
  refine ⟨h.moved.formatted, h.moved.valid hv.valid, h.sound, ?_⟩
  rw [h.moved.inum]
  exact (h.live _).mpr hv.live

theorem holdsData_nil (hheld : v.held = []) : HoldsData g v := by
  intro t ht
  rw [hheld] at ht
  exact absurd ht List.not_mem_nil

theorem wp_freeDirect_leaf {k : Fin 13} (hk : k ≠ indirect) (hv : Good g v i)
    (hcovered : (v.files g).Covered) (hheld : v.held = []) :
    wp (freeDirect i k) (fun _ v' => Shrunk g v v' i ∧
      (v'.inode i).d.addrs = update (v.inode i).d.addrs k 0) (Limits g) v := by
  have hd := hv.valid.files_inode hv.formatted
  apply wp_freeDirect hv.formatted hv.valid (holdsData_nil hheld)
  · intro hpos
    rw [← hd] at hpos ⊢
    exact hv.sound.backed (_, .addr k) _ ⟨hv.live, rfl, Files.toNat_ne_zero hpos⟩
  · intro v' hmoved hfiles
    have hd' := (hmoved.valid hv.valid).files_inode hmoved.formatted
    constructor
    · have hboth : (v'.files g).Sound ∧ (v'.files g).Covered := by
        rw [hfiles]
        by_cases hempty : ((v.files g).inode (v.inode i).inum).addrs k = 0
        · rw [Files.freeSlot_empty (zero_unused g v) hempty]
          exact ⟨hv.sound, hcovered⟩
        · have hdropped := dropped_freeSlot hk hv.live hempty
          exact ⟨hdropped.sound hv.sound, hdropped.covered hcovered⟩
      refine ⟨hmoved, hboth.1, hboth.2, ?_, ?_, ?_⟩
      · intro n
        rw [hfiles, Files.live_freeSlot]
      · intro n hn
        rw [hfiles, Files.inode_freeSlot_other k hn]
      · rw [hfiles]
        rfl
    · rw [← hd', hmoved.inum, hfiles, Files.addrs_freeSlot, hd]

theorem wp_freeDirects (hv : Good g v i) (hcovered : (v.files g).Covered) (hheld : v.held = []) :
    wp ((List.finRange ndirect).forM fun k => freeDirect i k.castSucc)
      (fun _ v' => Shrunk g v v' i ∧ ∀ k, k ≠ indirect → (v'.inode i).d.addrs k = 0)
      (Limits g) v := by
  have hloop : wp ((List.finRange ndirect).forM fun k => freeDirect i k.castSucc)
      (fun _ v' => Shrunk g v v' i ∧ ∀ c : Fin 13,
        (∃ k ∈ List.finRange ndirect, c.val = k.val) → (v'.inode i).d.addrs c = 0) (Limits g) v := by
    apply wp_forM (I := fun done v' => Shrunk g v v' i ∧ ∀ c : Fin 13,
      (∃ k : Fin ndirect, k ∈ done ∧ c.val = k.val) → (v'.inode i).d.addrs c = 0)
    · exact ⟨Shrunk.refl hv hcovered, fun c hc => absurd hc.choose_spec.1 List.not_mem_nil⟩
    · rintro done k rest v₁ _ ⟨hshrunk, hdone⟩
      obtain ⟨c, hc⟩ : ∃ c : Fin 13, c = k.castSucc := ⟨_, rfl⟩
      have hne : c ≠ indirect := by
        rw [hc]
        exact Fin.ne_of_lt (Fin.castSucc_lt_last k)
      rw [← hc]
      apply wp_mono (wp_freeDirect_leaf hne (hshrunk.good hv) hshrunk.covered
        (hshrunk.moved.held.trans hheld))
      · rintro _ v₂ ⟨hshrunk', haddrs⟩
        refine ⟨hshrunk.trans hshrunk', ?_⟩
        rintro c' ⟨k', hk', hval⟩
        rw [haddrs]
        by_cases he : c' = c
        · rw [he, update_self]
        · rw [update_of_ne he]
          apply hdone c'
          rcases List.mem_append.mp hk' with hold | hnew
          · exact ⟨k', hold, hval⟩
          · rw [List.mem_singleton.mp hnew] at hval
            exact absurd (Fin.ext (by rw [hval, hc]; rfl)) he
      · exact fun _ _ h => h
  apply wp_mono hloop
  · rintro _ v' ⟨hshrunk, hdone⟩
    refine ⟨hshrunk, ?_⟩
    intro c hc
    have hlt : c.val < ndirect := by
      have hne : c.val ≠ 12 := fun he => hc (Fin.ext he)
      unfold ndirect
      omega
    exact hdone c ⟨⟨c.val, hlt⟩, List.mem_finRange _, rfl⟩
  · exact fun _ _ h => h

/-! ## 3. The indirect block -/

theorem wp_freeEntries {t : Nat} (hv : Good g v i) (hheld : v.held = [t])
    (ht : (v.inode i).d.addrs indirect ≠ 0) (hat : t = ((v.inode i).d.addrs indirect).toNat) :
    wp ((List.range nindirect).forM (freeEntry (v.sector t)))
      (fun _ v' => Formatted g v' ∧ Frame v v' ∧
        (∀ n < g.ninodes, v'.dinode n = v.dinode n) ∧
        v'.files g = (v.files g).unmarkAll ((v.sector t).listed nindirect)) (Limits g) v := by
  have hd := hv.valid.files_inode hv.formatted
  have htable : ((v.files g).inode (v.inode i).inum).addrs indirect ≠ 0 := by
    rw [hd]
    exact ht
  have huse : (v.files g).uses ((v.inode i).inum, .addr indirect) t := by
    rw [hat, ← hd]
    exact Files.uses_table hv.live htable
  have hdata := isData_of_used (hv.sound.backed _ _ huse)
  have hentry : ∀ j : Fin 128, (v.sector t).word j.val ≠ 0 →
      (v.files g).uses ((v.inode i).inum, .entry j) ((v.sector t).word j.val).toNat := by
    intro j hj
    refine ⟨hv.live, ?_, Files.toNat_ne_zero hj⟩
    show (v.files g).target ((v.files g).inode (v.inode i).inum) (.entry j) = _
    rw [Files.target_entry htable, hd, ← hat, files_block g v hdata]
  have hloop : wp ((List.range nindirect).forM (freeEntry (v.sector t)))
      (fun _ v' => Formatted g v' ∧ Frame v v' ∧
        (∀ n < g.ninodes, v'.dinode n = v.dinode n) ∧
        v'.files g = (v.files g).unmarkAll
          ((List.range nindirect).map fun j => ((v.sector t).word j).toNat)) (Limits g) v := by
    apply wp_forM (I := fun done v' => Formatted g v' ∧ Frame v v' ∧
      (∀ n < g.ninodes, v'.dinode n = v.dinode n) ∧
      v'.files g = (v.files g).unmarkAll (done.map fun j => ((v.sector t).word j).toNat))
    · exact ⟨hv.formatted, Frame.refl v, fun _ _ => rfl, (Files.unmarkAll_nil _).symm⟩
    · rintro done j rest v₁ hsplit ⟨hv₁, hframe, hdinode, hfiles⟩
      have hnodup : (done ++ j :: rest).Nodup := by
        rw [← hsplit]
        exact List.nodup_range
      have hj : j < 128 := by
        have hmem : j ∈ List.range nindirect := by
          rw [hsplit]
          exact List.mem_append_right _ List.mem_cons_self
        exact List.mem_range.mp hmem
      have hnew : j ∉ done := fun hc =>
        (List.nodup_append.mp hnodup).2.2 j hc j List.mem_cons_self rfl
      have hbelow : ∀ j' ∈ done, j' < 128 := by
        intro j' hj'
        have hmem : j' ∈ List.range nindirect := by
          rw [hsplit]
          exact List.mem_append_left _ hj'
        exact List.mem_range.mp hmem
      -- a block that is still in use apart from the entries that are done
      have hstill : ∀ (s : Slot) (x : Nat), (v.files g).uses ((v.inode i).inum, s) x →
          (∀ j' (h : j' < 128), j' ∈ done → s ≠ .entry ⟨j', h⟩) → (v₁.files g).used x = true := by
        intro s x hx hs
        rw [hfiles]
        show ((v.files g).used x && decide _) = true
        rw [hv.sound.backed _ _ hx, Bool.true_and, decide_eq_true_iff]
        intro hmem
        obtain ⟨j', hj', he⟩ := List.mem_map.mp hmem
        have hpos : (v.sector t).word j' ≠ 0 := by
          intro hz
          rw [hz] at he
          exact hx.2.2 he.symm
        have hother := hentry ⟨j', hbelow j' hj'⟩ hpos
        rw [he] at hother
        exact hs j' (hbelow j' hj') hj' (congrArg Prod.snd (hv.sound.unique _ _ _ hx hother))
      unfold freeEntry
      split
      case isTrue hempty =>
        refine ⟨hv₁, hframe, hdinode, ?_⟩
        rw [List.map_append, List.map_singleton, Files.unmarkAll_snoc, ← hfiles, hempty,
          show (0 : BitVec 32).toNat = 0 from rfl, Files.unmark_free (zero_unused g v₁)]
      case isFalse hpos =>
        have hused := hstill (.entry ⟨j, hj⟩) _ (hentry ⟨j, hj⟩ hpos) fun j' h hj' hc =>
          hnew (by rw [show j = j' from congrArg Fin.val (Slot.entry.inj hc)]; exact hj')
        have hholds : HoldsData g v₁ := by
          intro x hx
          rw [hframe.held, hheld] at hx
          obtain rfl := List.mem_singleton.mp hx
          exact hstill _ _ huse fun _ _ _ hc => Slot.noConfusion hc
        apply wp_blockFree hv₁ hholds hused
        intro v₂ hv₂ hframe₂ hfiles₂ hdinode₂
        refine ⟨hv₂, hframe.trans hframe₂, fun n hn => (hdinode₂ n hn).trans (hdinode n hn), ?_⟩
        rw [hfiles₂, hfiles, List.map_append, List.map_singleton, Files.unmarkAll_snoc]
  exact hloop

theorem wp_freeIndirect (hv : Good g v i) (hcovered : (v.files g).Covered) (hheld : v.held = []) :
    wp (freeIndirect i) (fun _ v' => Shrunk g v v' i ∧
      (v'.inode i).d.addrs = update (v.inode i).d.addrs indirect 0) (Limits g) v := by
  have hd := hv.valid.files_inode hv.formatted
  unfold freeIndirect
  rw [wp_bind, wp_get]
  split
  case isTrue hempty =>
    refine ⟨Shrunk.refl hv hcovered, ?_⟩
    exact (update_eq_self_iff.mpr hempty.symm).symm
  case isFalse hpos =>
    obtain ⟨t, ht⟩ : ∃ t, t = ((v.inode i).d.addrs indirect).toNat := ⟨_, rfl⟩
    have htable : ((v.files g).inode (v.inode i).inum).addrs indirect ≠ 0 := by
      rw [hd]
      exact hpos
    have huse : (v.files g).uses ((v.inode i).inum, .addr indirect) t := by
      rw [ht, ← hd]
      exact Files.uses_table hv.live htable
    have hdata := isData_of_used (hv.sound.backed _ _ huse)
    rw [← ht, wp_bind]
    apply wp_bufcacheRead (by rw [hheld]; exact List.not_mem_nil)
    have hgood : Good g { v with held := t :: v.held } i :=
      ⟨hv.formatted.setHeld _, hv.valid.congr rfl, hv.sound, hv.live⟩
    have hentries := wp_freeEntries (t := t) hgood (by rw [hheld]) hpos ht
    rw [wp_bind]
    apply wp_mono hentries
    · rintro _ v₁ ⟨hv₁, hframe, hdinode, hfiles⟩
      have hheld₁ : v₁.held = [t] := by
        rw [hframe.held, hheld]
      have hinode₁ : v₁.inode = v.inode := hframe.inode
      rw [wp_bind]
      apply wp_bufcacheRelease hheld₁
      -- the indirect block itself
      obtain ⟨xs, hxs⟩ : ∃ xs, xs = (v.sector t).listed nindirect := ⟨_, rfl⟩
      have hfiles₁ : v₁.files g = (v.files g).unmarkAll xs := by
        rw [hxs]
        exact hfiles
      have hlisted : xs = ((v.files g).block
          (((v.files g).inode (v.inode i).inum).addrs indirect).toNat).listed nindirect := by
        rw [hxs, hd, ← ht, files_block g v hdata]
      have hdropped := dropped_table hv.live htable (zero_unused g v) hlisted
      have hvalid₁ : Valid g { v₁ with held := [] } i := hv.valid.congr (congrFun hinode₁ i)
      apply wp_freeDirect (hv₁.setHeld []) hvalid₁ (holdsData_nil rfl)
      · intro _
        show (v₁.files g).used ((v₁.inode i).d.addrs indirect).toNat = true
        rw [hinode₁, ← ht, hfiles₁]
        show ((v.files g).used t && decide (t ∉ xs)) = true
        rw [hv.sound.backed _ _ huse, Bool.true_and, decide_eq_true_iff, hlisted]
        intro hmem
        obtain ⟨j, hj, he⟩ := List.mem_map.mp hmem
        -- the indirect block does not list itself
        have hself : (v.files g).uses ((v.inode i).inum, .entry ⟨j, List.mem_range.mp hj⟩) t :=
          ⟨hv.live, (Files.target_entry htable _).trans he, huse.2.2⟩
        exact Slot.noConfusion (congrArg Prod.snd (hv.sound.unique _ _ _ huse hself))
      · intro v' hmoved hfiles'
        have hinum : ((v₁.inode i).inum) = (v.inode i).inum := by rw [hinode₁]
        have hfiles'' : v'.files g =
            ((v.files g).unmarkAll xs).freeSlot (v.inode i).inum indirect := by
          rw [← hfiles₁, ← hinum]
          exact hfiles'
        have hmoved' : Moved g v v' i := by
          refine ⟨hmoved.formatted, hmoved.held.trans hheld.symm,
            hmoved.busy.trans hframe.busy, ?_, ?_, ?_⟩
          · intro j hj
            rw [hmoved.others j hj]
            exact congrFun hinode₁ j
          · obtain ⟨addrs, ha⟩ := hmoved.self
            refine ⟨addrs, ?_⟩
            rw [ha]
            rw [hinode₁]
          · exact fun n hn => (hmoved.dinode n hn).trans (hdinode n hn)
        have hd' := (hmoved'.valid hv.valid).files_inode hmoved'.formatted
        refine ⟨⟨hmoved', ?_, ?_, ?_, ?_, ?_⟩, ?_⟩
        · rw [hfiles'']
          exact hdropped.sound hv.sound
        · rw [hfiles'']
          exact hdropped.covered hcovered
        · intro n
          rw [hfiles'']
          exact hdropped.live n
        · intro n hn
          rw [hfiles'', Files.inode_freeSlot_other indirect hn]
          rfl
        · rw [hfiles'']
          rfl
        · rw [← hd', hmoved'.inum, hfiles'', Files.addrs_freeSlot]
          show update ((v.files g).inode (v.inode i).inum).addrs indirect 0 = _
          rw [hd]
    · exact fun _ _ h => h

/-! ## 4. The whole inode -/

theorem Valid.withDinode (hi : Valid g v i) (d : Dinode) : Valid g (withDinode v i d) i :=
  hi.congr (withDinode_self v i d)

structure Emptied (g : Geometry) (v v' : Volume) (i : Fin ninode) : Prop where
  formatted : Formatted g v'
  held : v'.held = v.held
  others : ∀ j ≠ i, v'.inode j = v.inode j
  self : v'.inode i =
    { v.inode i with d := { (v.inode i).d with size := 0, addrs := fun _ => 0 } }
  disk : ∀ n < g.ninodes, n ≠ (v.inode i).inum → v'.dinode n = v.dinode n
  diskSelf : v'.dinode (v.inode i).inum = (v'.inode i).d
  sound : (v'.files g).Sound
  covered : (v'.files g).Covered
  live : ∀ n, (v'.files g).Live n ↔ (v.files g).Live n
  file : ∀ n ≠ (v.inode i).inum, (v'.files g).inode n = (v.files g).inode n
  block : (v'.files g).block = (v.files g).block

theorem wp_inodeTrunc (hv : Good g v i) (hcovered : (v.files g).Covered) (hheld : v.held = []) :
    wp (inodeTrunc i) (fun _ v' => Emptied g v v' i) (Limits g) v := by
  unfold inodeTrunc
  rw [wp_bind]
  apply wp_mono (wp_freeDirects hv hcovered hheld) _ fun _ _ h => h
  rintro _ v₁ ⟨hdirect, hzero⟩
  rw [wp_bind]
  apply wp_mono (wp_freeIndirect (hdirect.good hv) hdirect.covered
    (hdirect.moved.held.trans hheld)) _ fun _ _ h => h
  rintro _ v₂ ⟨hindirect, haddrs⟩
  have hshrunk := hdirect.trans hindirect
  have hgood := hshrunk.good hv
  have hinum := hshrunk.moved.inum
  -- no address is left
  have hempty : (v₂.inode i).d.addrs = fun _ => 0 := by
    funext k
    rw [haddrs]
    by_cases hk : k = indirect
    · rw [hk, update_self]
    · rw [update_of_ne hk]
      exact hzero k hk
  rw [wp_bind, wp_setDinode]
  obtain ⟨d, hdef⟩ : ∃ d : Dinode, d = { (v₂.inode i).d with size := 0 } := ⟨_, rfl⟩
  rw [← hdef]
  have hself : (withDinode v₂ i d).inode i =
      { v.inode i with d := { (v.inode i).d with size := 0, addrs := fun _ => 0 } } := by
    obtain ⟨addrs, ha⟩ := hshrunk.moved.self
    have haddrs' : addrs = fun _ => 0 := by
      rw [← hempty, ha]
    rw [withDinode_self, hdef, ha, haddrs']
  have hfiles := files_withDinode hgood.formatted hgood.valid d
  have hd := hgood.valid.files_inode hgood.formatted
  have hslots : SameSlots (v₂.files g) ((withDinode v₂ i d).files g) := by
    rw [hfiles]
    apply sameSlots_setInode
    · rw [hd, hdef]
    · rw [hd, hdef]
  have hinum' : ((withDinode v₂ i d).inode i).inum = (v.inode i).inum := by rw [hself]
  apply wp_inodeUpdate (hgood.formatted.withDinode i d) (hgood.valid.withDinode d)
  · apply holdsData_nil
    exact hshrunk.moved.held.trans hheld
  · intro v' hv' hframe hfiles' hdisk hothers
    rw [hinum'] at hdisk hothers
    refine ⟨hv', hframe.held.trans hshrunk.moved.held, ?_, ?_, ?_, ?_, ?_, ?_, ?_, ?_, ?_⟩
    · intro j hj
      rw [hframe.inode, withDinode_other v₂ d hj, hshrunk.moved.others j hj]
    · rw [hframe.inode, hself]
    · exact fun n hn hne => (hothers n hn hne).trans (hshrunk.moved.dinode n hn)
    · rw [hdisk, hframe.inode]
    · rw [hfiles']
      exact hslots.sound hshrunk.sound
    · rw [hfiles']
      exact hslots.covered hshrunk.covered
    · intro n
      rw [hfiles', hslots.live, hshrunk.live]
    · intro n hn
      rw [hfiles', hfiles, hinum, ← hshrunk.others n hn]
      exact update_of_ne hn _ _
    · rw [hfiles', hslots.block, hshrunk.block]

end Vol

end MCertiKOS.Fs
