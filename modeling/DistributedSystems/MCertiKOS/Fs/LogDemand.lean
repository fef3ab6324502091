import Mathlib.Data.List.Nodup
import Mathlib.Data.List.Perm.Subperm
import DistributedSystems.MCertiKOS.Fs.Accounting

/-!
# Buffers and log space that a transaction takes

A buffer that is held or logged cannot be recycled.  A read pins at most one more, `log_write` of a
held sector pins none, and a sector that is logged already costs nothing.  From this each function
gets a bound on the buffers it leaves pinned, which also holds where it panics.
-/

namespace MCertiKOS.Fs

open Fallible

namespace Vol

variable {g : Geometry} {v v' : Volume} {i : Fin ninode} {n s : Nat} {Q : Unit → Volume → Prop}
  {R : Panic → Volume → Prop}

/-! ## 1. Pinned buffers -/

/-- A transaction that pins at most `n` buffers, in a log with room for more than `n` sectors. -/
structure Pins (n : Nat) (v : Volume) : Prop where
  nodup : v.logged.Nodup
  le : v.pinned ≤ n
  busy : v.busy = true
  room : (n : Int) < v.nlog - 1

structure Took (k : Nat) (v v' : Volume) : Prop where
  held : v'.held = v.held
  inode : v'.inode = v.inode
  logged : v.logged ⊆ v'.logged
  pinned : v'.pinned ≤ v.pinned + k

def fresh (v : Volume) (s : Nat) : Nat := if s ∈ v.logged then 0 else 1

theorem fresh_le (v : Volume) (s : Nat) : fresh v s ≤ 1 := by
  unfold fresh
  split <;> omega

theorem fresh_logged (h : s ∈ v.logged) : fresh v s = 0 := if_pos h

theorem fresh_mono (h : v.logged ⊆ v'.logged) : fresh v' s ≤ fresh v s := by
  by_cases hs : s ∈ v.logged
  · rw [fresh_logged (h hs)]
    exact Nat.zero_le _
  · have hle := fresh_le v' s
    rw [show fresh v s = 1 from if_neg hs]
    exact hle

theorem pinned_idle (h : v.held = []) : v.pinned = v.logged.length := by
  unfold Volume.pinned
  rw [h]
  simp

theorem Pins.logged_le (h : Pins n v) : v.logged.length ≤ n := by
  have hsplit := List.length_eq_length_filter_add (l := v.logged) (fun t => decide (t ∈ v.held))
  have hin : (v.logged.filter fun t => decide (t ∈ v.held)).length ≤ v.held.length := by
    apply List.Subperm.length_le
    apply List.Nodup.subperm (h.nodup.filter _)
    intro t ht
    exact of_decide_eq_true (List.mem_filter.mp ht).2
  have hle := h.le
  unfold Volume.pinned at hle
  simp only [decide_not] at hle
  omega

theorem filter_held (logged H : List Nat) (s : Nat) :
    (logged.filter fun t => decide (t ∉ s :: H)) =
      (logged.filter fun t => decide (t ∉ H)).filter fun t => decide (t ≠ s) := by
  rw [List.filter_filter]
  congr 1
  funext t
  rw [← Bool.decide_and]
  apply decide_eq_decide.mpr
  rw [List.mem_cons, not_or]

theorem pinned_read (hs : s ∉ v.held) :
    ({ v with held := s :: v.held } : Volume).pinned ≤ v.pinned + fresh v s := by
  unfold Volume.pinned
  dsimp only
  rw [filter_held, List.length_cons]
  by_cases hm : s ∈ v.logged
  · have hlt : ((v.logged.filter fun t => decide (t ∉ v.held)).filter
        fun t => decide (t ≠ s)).length < (v.logged.filter fun t => decide (t ∉ v.held)).length := by
      apply List.length_filter_lt_length_iff_exists.mpr
      exact ⟨s, List.mem_filter.mpr ⟨hm, decide_eq_true hs⟩, by simp⟩
    omega
  · have hle := List.length_filter_le (fun t => decide (t ≠ s))
      (v.logged.filter fun t => decide (t ∉ v.held))
    rw [show fresh v s = 1 from if_neg hm]
    omega

theorem pinned_release {H : List Nat} (hnodup : v.logged.Nodup) (hheld : v.held = s :: H) :
    ({ v with held := H } : Volume).pinned ≤ v.pinned := by
  unfold Volume.pinned
  dsimp only
  rw [hheld, filter_held, List.length_cons]
  have hfilter : (v.logged.filter fun t => decide (t ∉ H)).Nodup := hnodup.filter _
  have herase := hfilter.erase_eq_filter s
  have hlen := List.length_erase (a := s) (l := v.logged.filter fun t => decide (t ∉ H))
  have hsame : ((v.logged.filter fun t => decide (t ∉ H)).filter fun t => decide (t ≠ s)) =
      (v.logged.filter fun t => decide (t ∉ H)).erase s := by
    rw [herase]
    congr 1
    funext t
    by_cases ht : t = s <;> simp [ht]
  rw [hsame, hlen]
  split <;> omega

/-! ## 2. Cache and log -/

theorem wp_bufcacheRead_any
    (hR : ∀ e, R e v) (hQ : s ∉ v.held → Q () { v with held := s :: v.held }) :
    wp (bufcacheRead s) Q R v := by
  unfold bufcacheRead
  rw [wp_bind, wp_get]
  split
  case isTrue => exact hR _
  case isFalse hs =>
    split
    case isTrue => exact hR _
    case isFalse => exact hQ hs

def withLogged (v : Volume) (sector : Nat → Block) (s : Nat) : Volume :=
  { v with
    sector := sector
    logged := if s ∈ v.logged then v.logged else v.logged ++ [s] }

theorem wp_logWrite_any (hR : ∀ e, R e v) (hQ : ∀ sector, Q () (withLogged v sector s)) :
    wp (logWrite s) Q R v := by
  unfold logWrite
  rw [wp_bind, wp_get]
  split
  case isTrue => exact hR _
  case isFalse =>
    split
    case isTrue => exact hR _
    case isFalse =>
      rw [wp_bind]
      apply wp_bufcacheRead_any hR
      intro _
      unfold modifyData addLogged
      rw [wp_bind, wp_modify, wp_bind]
      apply wp_bufcacheRelease rfl
      rw [wp_modify]
      exact hQ _

theorem mem_withLogged (v : Volume) (sector : Nat → Block) (s : Nat) :
    s ∈ (withLogged v sector s).logged := by
  unfold withLogged
  split
  case isTrue hm => exact hm
  case isFalse => exact List.mem_append_right _ (List.mem_singleton_self s)

theorem subset_withLogged (v : Volume) (sector : Nat → Block) (s : Nat) :
    v.logged ⊆ (withLogged v sector s).logged := by
  unfold withLogged
  split
  · exact fun _ ht => ht
  · exact List.subset_append_left _ _

theorem nodup_withLogged (h : v.logged.Nodup) (sector : Nat → Block) (s : Nat) :
    (withLogged v sector s).logged.Nodup := by
  unfold withLogged
  split
  case isTrue => exact h
  case isFalse hm => exact List.concat_eq_append ▸ h.concat hm

theorem pinned_withLogged (hs : s ∈ v.held) (sector : Nat → Block) :
    (withLogged v sector s).pinned = v.pinned := by
  unfold withLogged Volume.pinned
  split
  · rfl
  · rw [List.filter_append, List.filter_singleton]
    simp [hs]

theorem wp_logWrite_pins (h : Pins n v) (hs : s ∈ v.held)
    (hQ : ∀ v', Pins n v' → Took 0 v v' → s ∈ v'.logged → Q () v') :
    wp (logWrite s) Q (fun _ => Pins n) v := by
  apply wp_logWrite_any fun _ => h
  intro sector
  have hsame := pinned_withLogged hs sector
  apply hQ
  · exact ⟨nodup_withLogged h.nodup sector s, hsame ▸ h.le, h.busy, h.room⟩
  · exact ⟨rfl, rfl, subset_withLogged v sector s, Nat.le_of_eq hsame⟩
  · exact mem_withLogged v sector s

theorem wp_storeRead_pins {f : Block → Block} (h : Pins n v)
    (hs : s ∉ v.held) (hn : v.pinned + fresh v s ≤ n)
    (hQ : ∀ v', Pins n v' → Took (fresh v s) v v' → s ∈ v'.logged → Q () v') :
    wp (modifyData s f) (fun _ v₁ => wp (logWrite s)
      (fun _ v₂ => wp (bufcacheRelease s) Q (fun _ => Pins n) v₂) (fun _ => Pins n) v₁)
      (fun _ => Pins n) { v with held := s :: v.held } := by
  have hread := pinned_read hs
  unfold modifyData
  rw [wp_modify]
  apply wp_logWrite_pins
  · exact ⟨h.nodup, Nat.le_trans hread hn, h.busy, h.room⟩
  · exact List.mem_cons_self
  intro v' hpins htook hlogged
  have hheld : v'.held = s :: v.held := htook.held
  have hrelease := pinned_release hpins.nodup hheld
  have hstep : v'.pinned ≤ ({ v with held := s :: v.held } : Volume).pinned := htook.pinned
  apply wp_bufcacheRelease hheld
  apply hQ
  · exact ⟨hpins.nodup, by omega, hpins.busy, hpins.room⟩
  · exact ⟨rfl, htook.inode, htook.logged, by omega⟩
  · exact hlogged

/-! ## 3. Blocks -/

theorem Took.trans {v'' : Volume} {k k' : Nat} (h : Took k v v') (h' : Took k' v' v'') :
    Took (k + k') v v'' where
  held := h'.held.trans h.held
  inode := h'.inode.trans h.inode
  logged := fun _ ht => h'.logged (h.logged ht)
  pinned := by
    have hk := h.pinned
    have hk' := h'.pinned
    omega

theorem Took.mono {k k' : Nat} (h : Took k v v') (hk : k ≤ k') : Took k' v v' :=
  ⟨h.held, h.inode, h.logged, Nat.le_trans h.pinned (Nat.add_le_add_left hk _)⟩

theorem wp_readSuperblock_pins {Q : Super → Volume → Prop} (h : Pins n v) (hQ : ∀ sb, Q sb v) :
    wp readSuperblock Q (fun _ => Pins n) v := by
  unfold readSuperblock
  rw [wp_bind]
  apply wp_bufcacheRead_any fun _ => h
  intro _
  rw [wp_bind, wp_get, wp_bind]
  apply wp_bufcacheRelease rfl
  exact hQ _

theorem wp_allocFrom_pins (sb : Super) (h : Pins n v) (hn : v.pinned + 2 ≤ n) :
    ∀ count b, wp (allocFrom sb count b)
      (fun a v' => Pins n v' ∧ Took 2 v v' ∧ a ∈ v'.logged) (fun _ => Pins n) v := by
  intro count
  induction count with
  | zero => exact fun _ => h
  | succ count ih =>
    intro b
    unfold allocFrom
    rw [wp_bind]
    apply wp_bufcacheRead_any fun _ => h
    intro hs
    rw [wp_bind, wp_get]
    cases freeBit (v.sector (bblock b sb.ninodes)) (sb.size - b) with
    | some bi =>
      have hbitmap := fresh_le v (bblock b sb.ninodes)
      simp only [wp_bind]
      apply wp_storeRead_pins h hs (by omega)
      intro v₁ hpins₁ htook₁ _
      have hblock := fresh_le v₁ (b + bi)
      have hle := htook₁.pinned
      unfold blockZero
      simp only [wp_bind]
      apply wp_bufcacheRead_any fun _ => hpins₁
      intro hs₁
      apply wp_storeRead_pins hpins₁ hs₁ (by omega)
      intro v₂ hpins₂ htook₂ hmem
      exact ⟨hpins₂, (htook₁.trans htook₂).mono (by omega), hmem⟩
    | none =>
      rw [wp_bind]
      apply wp_bufcacheRelease rfl
      exact ih (b + bpb)

theorem wp_blockAlloc_pins (h : Pins n v) (hn : v.pinned + 2 ≤ n) :
    wp blockAlloc (fun a v' => Pins n v' ∧ Took 2 v v' ∧ a ∈ v'.logged) (fun _ => Pins n) v := by
  unfold blockAlloc
  rw [wp_bind]
  apply wp_readSuperblock_pins h
  exact fun sb => wp_allocFrom_pins sb h hn _ _

/-! ## 4. `bmap` -/

/-- What the indirect block of the inode may still cost: a bitmap block and the block itself, or only
the block. -/
def tableCost (v : Volume) (i : Fin ninode) : Nat :=
  if (v.inode i).d.addrs indirect = 0 then 2
  else fresh v ((v.inode i).d.addrs indirect).toNat

theorem tableCost_le (v : Volume) (i : Fin ninode) : tableCost v i ≤ 2 := by
  have hle := fresh_le v ((v.inode i).d.addrs indirect).toNat
  unfold tableCost
  split <;> omega

theorem tableCost_mono (haddr : (v'.inode i).d.addrs indirect = (v.inode i).d.addrs indirect)
    (hlogged : v.logged ⊆ v'.logged) : tableCost v' i ≤ tableCost v i := by
  unfold tableCost
  rw [haddr]
  split
  · exact Nat.le_refl 2
  · exact fresh_mono hlogged

structure Filled (n : Nat) (i : Fin ninode) (k : Fin 13) (addr : Nat) (v v' : Volume) : Prop where
  empty : (v.inode i).d.addrs k = 0
  pins : Pins n v'
  held : v'.held = v.held
  logged : v.logged ⊆ v'.logged
  pinned : v'.pinned ≤ v.pinned + 2
  mem : addr ∈ v'.logged
  others : ∀ k' ≠ k, (v'.inode i).d.addrs k' = (v.inode i).d.addrs k'

theorem wp_bmapDirect_pins {k : Fin 13} (h : Pins n v)
    (hn : (v.inode i).d.addrs k = 0 → v.pinned + 2 ≤ n) :
    wp (bmapDirect i k) (fun addr v' => ((v.inode i).d.addrs k ≠ 0 ∧ v' = v) ∨ Filled n i k addr v v')
      (fun _ => Pins n) v := by
  unfold bmapDirect
  rw [wp_bind, wp_get]
  split
  case isTrue hempty =>
    rw [wp_bind]
    apply wp_mono (wp_blockAlloc_pins h (hn hempty))
    · rintro addr v₁ ⟨hpins, htook, hmem⟩
      rw [wp_bind, wp_setDinode, wp_pure]
      refine Or.inr ⟨hempty, ⟨hpins.nodup, hpins.le, hpins.busy, hpins.room⟩, htook.held,
        htook.logged, htook.pinned, hmem, ?_⟩
      intro k' hk'
      rw [withDinode_self]
      show Function.update _ k _ k' = _
      rw [Function.update_of_ne hk', htook.inode]
    · exact fun _ _ hp => hp
  case isFalse hpos => exact Or.inl ⟨hpos, rfl⟩

structure Entered (n : Nat) (table j addr : Nat) (v v' : Volume) : Prop where
  empty : (v.sector table).word j = 0
  pins : Pins n v'
  took : Took (fresh v table + 2) v v'
  mem : addr ∈ v'.logged
  table : table ∈ v'.logged

theorem wp_bmapEntry_pins {table j : Nat} (h : Pins n v)
    (hn : (v.sector table).word j = 0 → v.pinned + fresh v table + 2 ≤ n) :
    wp (bmapEntry table j)
      (fun addr v' => ((v.sector table).word j ≠ 0 ∧ v' = v) ∨ Entered n table j addr v v')
      (fun _ => Pins n) v := by
  unfold bmapEntry
  rw [wp_bind]
  apply wp_bufcacheRead_any fun _ => h
  intro hs
  have hread := pinned_read hs
  rw [wp_bind, wp_get]
  split
  case isTrue hempty =>
    have hroom := hn hempty
    rw [wp_bind]
    apply wp_mono (wp_blockAlloc_pins (v := { v with held := table :: v.held })
      ⟨h.nodup, by omega, h.busy, h.room⟩ (by omega))
    · rintro addr v₁ ⟨hpins, htook, hmem⟩
      unfold modifyData
      rw [wp_bind, wp_modify, wp_bind]
      apply wp_logWrite_pins (n := n)
      · exact ⟨hpins.nodup, hpins.le, hpins.busy, hpins.room⟩
      · rw [htook.held]
        exact List.mem_cons_self
      intro v₂ hpins₂ htook₂ htable
      have hheld : v₂.held = table :: v.held := htook₂.held.trans htook.held
      have hrelease := pinned_release hpins₂.nodup hheld
      have hle := htook.pinned
      have hle₂ : v₂.pinned ≤ v₁.pinned := htook₂.pinned
      rw [wp_bind]
      apply wp_bufcacheRelease hheld
      rw [wp_pure]
      refine Or.inr ⟨hempty, ⟨hpins₂.nodup, by omega, hpins₂.busy, hpins₂.room⟩,
        ⟨rfl, htook₂.inode.trans htook.inode, fun _ ht => htook₂.logged (htook.logged ht), ?_⟩,
        htook₂.logged hmem, htable⟩
      omega
    · exact fun _ _ hp => hp
  case isFalse hpos =>
    rw [wp_bind]
    apply wp_bufcacheRelease rfl
    exact Or.inl ⟨hpos, rfl⟩

/-- What a block of the file costs, apart from the indirect block: the block itself, and the bitmap
block if the block is new. -/
def blockCost (g : Geometry) (v : Volume) (i : Fin ninode) (bn : Nat) : Nat :=
  if (v.files g).slot ((v.inode i).inum, slotOf bn) = 0 then 2 else 1

variable {bn : Nat}

theorem blockCost_empty (h : (v.files g).slot ((v.inode i).inum, slotOf bn) = 0) :
    blockCost g v i bn = 2 := if_pos h

theorem blockCost_pos (g : Geometry) (v : Volume) (i : Fin ninode) (bn : Nat) :
    1 ≤ blockCost g v i bn ∧ blockCost g v i bn ≤ 2 := by
  unfold blockCost
  split <;> omega

/-- `bmap` has paid for all but the store into the block. -/
structure Charged (g : Geometry) (n : Nat) (i : Fin ninode) (bn addr : Nat) (v v' : Volume) :
    Prop where
  pins : Pins n v'
  cost : v'.pinned + tableCost v' i + fresh v' addr ≤ v.pinned + tableCost v i + blockCost g v i bn

theorem Charged.refl (h : Pins n v) (addr : Nat) : Charged g n i bn addr v v := by
  have hle := fresh_le v addr
  have hpos := blockCost_pos g v i bn
  exact ⟨h, by omega⟩

theorem wp_bmap_pins (hv : Good g v i) (hheld : v.held = []) (hbn : bn < maxfile) (h : Pins n v)
    (hn : v.pinned + tableCost v i + blockCost g v i bn ≤ n) :
    wp (bmap i bn) (fun addr v' => Charged g n i bn addr v v') (fun _ => Pins n) v := by
  have hd := hv.valid.files_inode hv.formatted
  have hholds := holdsData_nil (g := g) hheld
  unfold bmap
  split
  case isTrue hdirect =>
    obtain ⟨k, hk⟩ : ∃ k : Fin 13, k = ⟨bn, Nat.lt_trans hdirect (by decide)⟩ := ⟨_, rfl⟩
    have hslot : slotOf bn = .addr k := by
      rw [hk]
      exact dif_pos hdirect
    have hempty : (v.inode i).d.addrs k = 0 →
        (v.files g).slot ((v.inode i).inum, slotOf bn) = 0 := by
      intro he
      rw [hslot]
      show (((v.files g).inode (v.inode i).inum).addrs k).toNat = 0
      rw [hd, he]
      rfl
    have hother : indirect ≠ k := by
      intro he
      rw [hk] at he
      have hval : 12 = bn := congrArg Fin.val he
      unfold ndirect at hdirect
      omega
    rw [← hk]
    apply wp_mono (wp_bmapDirect_pins h fun he => ?_)
    · rintro addr v' (⟨_, rfl⟩ | hfilled)
      · exact Charged.refl h addr
      · have htable := tableCost_mono (hfilled.others indirect hother) hfilled.logged
        have hpinned := hfilled.pinned
        have hcost := blockCost_empty (hempty hfilled.empty)
        have hfresh := fresh_logged hfilled.mem
        exact ⟨hfilled.pins, by omega⟩
    · exact fun _ _ hp => hp
    · have hcost := blockCost_empty (hempty he)
      omega
  case isFalse hdirect =>
    have hentry : bn - ndirect < nindirect := by
      unfold maxfile at hbn
      omega
    have hslot : slotOf bn = .entry ⟨bn - ndirect, hentry⟩ := by
      unfold slotOf
      rw [dif_neg hdirect]
      congr 1
      exact Fin.ext (Nat.mod_eq_of_lt hentry)
    -- without an indirect block there is no entry
    have hnone : (v.inode i).d.addrs indirect = 0 →
        (v.files g).slot ((v.inode i).inum, slotOf bn) = 0 := by
      intro he
      rw [hslot]
      apply Files.target_entry_none
      rw [hd]
      exact he
    rw [if_pos hentry, wp_bind]
    have htable := wp_bmapDirect_pins (k := indirect) h fun he => by
      have hcost := blockCost_empty (hnone he)
      omega
    apply wp_mono (wp_and (wp_bmapDirect (k := indirect) hv hholds fun _ _ hm => hm) htable)
    · rintro table v₁ ⟨hmapped, hcase⟩
      have hv₁ := hmapped.good hv
      have hd₁ := hv₁.valid.files_inode hv₁.formatted
      have hat : ((v₁.inode i).d.addrs indirect).toNat = table := by
        rw [← hd₁, hmapped.moved.inum]
        exact hmapped.slot
      have hne : (v₁.inode i).d.addrs indirect ≠ 0 := by
        intro hz
        rw [hz] at hat
        exact hmapped.pos hat.symm
      have hcost₁ : tableCost v₁ i = fresh v₁ table := by
        unfold tableCost
        rw [if_neg hne, hat]
      -- the indirect block is paid for, and an entry is empty only if it was
      have hstart : Pins n v₁ ∧ v₁.pinned + tableCost v₁ i ≤ v.pinned + tableCost v i ∧
          ((v₁.sector table).word (bn - ndirect) = 0 ∨ v₁ ≠ v → blockCost g v i bn = 2) := by
        rcases hcase with ⟨_, rfl⟩ | hfilled
        · refine ⟨h, Nat.le_refl _, ?_⟩
          rintro (hword | hne')
          · apply blockCost_empty
            rw [hslot]
            show (v₁.files g).target ((v₁.files g).inode (v₁.inode i).inum) _ = 0
            have hdata := isData_of_used (hv₁.sound.backed _ _ (hmapped.uses hv))
            rw [hd, Files.target_entry hne, hat, files_block g v₁ hdata, hword]
            rfl
          · exact absurd rfl hne'
        · have hfresh := fresh_logged hfilled.mem
          have hpinned := hfilled.pinned
          have hold : tableCost v i = 2 := if_pos hfilled.empty
          exact ⟨hfilled.pins, by omega, fun _ => blockCost_empty (hnone hfilled.empty)⟩
      obtain ⟨hpins₁, hle₁, hword⟩ := hstart
      apply wp_mono (wp_bmapEntry_pins hpins₁ fun he => ?_)
      · rintro addr v₂ (⟨_, rfl⟩ | hentered)
        · have hfresh := fresh_le v₂ addr
          have hpos := blockCost_pos g v i bn
          exact ⟨hpins₁, by omega⟩
        · have hcost := hword (Or.inl hentered.empty)
          have hpinned := hentered.took.pinned
          have hfresh := fresh_logged hentered.mem
          have hcost₂ : tableCost v₂ i = 0 := by
            unfold tableCost
            rw [hentered.took.inode, if_neg hne, hat]
            exact fresh_logged hentered.table
          exact ⟨hentered.pins, by omega⟩
      · exact fun _ _ hp => hp
      · have hcost := hword (Or.inl he)
        omega
    · exact fun _ _ hp => hp.2

/-! ## 5. The loop of `inode_write` -/

/-- The transaction can pay for `len` bytes at `off`, where a block that is written from its middle
is there already. -/
structure Affords (g : Geometry) (n : Nat) (v : Volume) (i : Fin ninode) (off len : Nat) : Prop where
  inside : off % bsize ≠ 0 → blockCost g v i (off / bsize) = 1
  cost : v.pinned + tableCost v i + 2 * ((off % bsize + len + 511) / bsize) ≤
    n + (if off % bsize = 0 then 0 else 1)

theorem Affords.round {off len : Nat} (h : Affords g n v i off len) (hlen : 0 < len) :
    v.pinned + tableCost v i + blockCost g v i (off / bsize) ≤ n := by
  have hcost := h.cost
  have hpos := blockCost_pos g v i (off / bsize)
  have hinside := h.inside
  generalize blockCost g v i (off / bsize) = c at hpos hinside ⊢
  unfold bsize at hcost hinside
  split at hcost <;> omega

theorem Affords.next {off len m : Nat} (h : Affords g n v i off len)
    (hm : m = min len (bsize - off % bsize)) (hrest : 0 < len - m)
    (hpaid : v'.pinned + tableCost v' i ≤
      v.pinned + tableCost v i + blockCost g v i (off / bsize)) :
    Affords g n v' i (off + m) (len - m) := by
  have hcost := h.cost
  have hpos := blockCost_pos g v i (off / bsize)
  have hinside := h.inside
  -- more bytes are left, so the round has filled its block
  have haligned : (off + m) % bsize = 0 := by
    unfold bsize at hm ⊢
    omega
  refine ⟨fun hne => absurd haligned hne, ?_⟩
  rw [haligned, if_pos rfl]
  generalize blockCost g v i (off / bsize) = c at hpos hinside hpaid
  unfold bsize at hcost hinside hm ⊢
  split at hcost <;> omega

/-- A store into a sector: what a round of the loop does with its block. -/
def storeBlock (s : Nat) (f : Block → Block) : FsV Unit := do
  bufcacheRead s
  modifyData s f
  logWrite s
  bufcacheRelease s

theorem wp_storeBlock {f : Block → Block} (hv : Laid g v) (hs : ¬ g.InLog s) (hheld : v.held = [])
    (h : Pins n v) (hn : v.pinned + fresh v s ≤ n) :
    wp (storeBlock s f)
      (fun _ v' => Stored g s (f (v.sector s)) v v' ∧ Pins n v' ∧ Took (fresh v s) v v')
      (fun e v' => Limits g e v' ∧ Pins n v') v := by
  unfold storeBlock
  apply wp_and
  · simp only [wp_bind]
    apply wp_bufcacheRead
    · rw [hheld]
      exact List.not_mem_nil
    · exact wp_storeRead hv hs (holdsData_nil (g := g) hheld).notInLog fun _ hq => hq
  · simp only [wp_bind]
    apply wp_bufcacheRead_any fun _ => h
    intro hfree
    exact wp_storeRead_pins h hfree hn fun _ hp ht _ => ⟨hp, ht⟩

theorem wp_writeLoop_pins :
    ∀ fuel off src v, Good g v i → v.held = [] → off + src.length ≤ maxfile * bsize → Pins n v →
      (0 < src.length → Affords g n v i off src.length) →
      wp (writeLoop i fuel off src) (fun _ v' => Pins n v')
        (fun e v' => Limits g e v' ∧ Pins n v') v := by
  intro fuel
  induction fuel with
  | zero => exact fun _ _ _ _ _ _ h _ => h
  | succ fuel ih =>
    intro off src v hv hheld hend h hafford
    unfold writeLoop
    split
    case isTrue => exact h
    case isFalse hpos =>
      obtain ⟨m, hm⟩ : ∃ m, m = min src.length (bsize - off % bsize) := ⟨_, rfl⟩
      have hmod : off % bsize < bsize := Nat.mod_lt _ (by decide)
      have hbn : off / bsize < maxfile := by
        unfold bsize at hend ⊢
        omega
      have htake : (src.take m).length = m := by
        rw [List.length_take]
        omega
      have hpay := hafford (by omega)
      have hround := hpay.round (by omega)
      rw [wp_bind, ← hm]
      apply wp_mono (wp_and (wp_bmap hv hheld hbn fun _ _ hq => hq)
        (wp_bmap_pins hv hheld hbn h hround))
      · rintro addr v₁ ⟨hmapped, hcharged⟩
        have hv₁ := hmapped.good hv
        have hheld₁ : v₁.held = [] := hmapped.moved.held.trans hheld
        have hdata := isData_of_used (hv₁.sound.backed _ _ (hmapped.uses hv))
        have hcost := hcharged.cost
        have hrest : wp (storeBlock addr (Block.splice (off % bsize) (src.take m)))
            (fun _ v₂ => wp (writeLoop i fuel (off + m) (src.drop m)) (fun _ v' => Pins n v')
              (fun e v' => Limits g e v' ∧ Pins n v') v₂)
            (fun e v' => Limits g e v' ∧ Pins n v') v₁ := by
          refine wp_mono (wp_storeBlock hmapped.moved.formatted.laid
            (Geometry.IsData.not_inLog g hdata) hheld₁ hcharged.pins (by omega)) ?_ fun _ _ hp => hp
          rintro _ v₂ ⟨hstored, hpins₂, htook₂⟩
          have hwritten : Written g v v₂ i off (src.take m) :=
            written_block hv hmapped hstored (by omega) (by omega) (by omega)
          have htable := tableCost_mono (i := i) (by rw [htook₂.inode]) htook₂.logged
          have hpinned := htook₂.pinned
          apply ih (off + m) (src.drop m) v₂ (hwritten.good hv)
            (hwritten.moved.held.trans hheld) (by rw [List.length_drop]; omega) hpins₂
          intro hleft
          rw [List.length_drop] at hleft ⊢
          exact hpay.next hm hleft (by omega)
        unfold storeBlock at hrest
        simp only [wp_bind] at hrest ⊢
        exact hrest
      · exact fun _ _ hp => hp

end Vol

end MCertiKOS.Fs
