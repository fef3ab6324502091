import Mathlib.Data.List.Perm.Subperm
import Mathlib.Data.Set.Insert
import Mathlib.Order.BooleanAlgebra.Set
import DistributedSystems.MCertiKOS.Fs.Disk

/-!
# What the buffer cache guarantees

Programs see the root disk through the cache.  `Cached` relates the disk, the cache and the contents
`v` that reads return; the sectors in `out` are those whose current contents only a buffer has, and
such a buffer is busy or dirty, so that it stays.
-/

namespace MCertiKOS.Fs

open Crash Function

/-! ## 1. Sector numbers -/

def rootPlace (k : Lba) : Place := ⟨true, k⟩

def sectorWord (k : Lba) : BitVec 32 := BitVec.ofNat 32 k.val

theorem sectorWord_toNat (k : Lba) : (sectorWord k).toNat = k.val := by
  have := k.isLt
  unfold sectorWord
  rw [BitVec.toNat_ofNat]
  omega

variable {b : Buf} {k k' : Lba}

theorem sectorWord_inj (h : sectorWord k = sectorWord k') : k = k' := by
  have hv := congrArg BitVec.toNat h
  rw [sectorWord_toNat, sectorWord_toNat] at hv
  exact Fin.ext hv

theorem rootPlace_inj (h : rootPlace k = rootPlace k') : k = k' :=
  congrArg Place.lba h

def Buf.At (b : Buf) (k : Lba) : Prop := b.dev = rootDev ∧ b.sector = sectorWord k

theorem Buf.at_inj (h : b.At k) (h' : b.At k') : k = k' :=
  sectorWord_inj (h.2.symm.trans h'.2)

theorem Buf.holds_iff : b.holds rootDev (sectorWord k) = true ↔ b.At k := by
  unfold Buf.holds Buf.At
  rw [Bool.and_eq_true, beq_iff_eq, beq_iff_eq]

theorem Buf.At.place_eq (h : b.At k) : b.place = rootPlace k := by
  have hk := k.isLt
  have hs : b.sector.toNat % 2 ^ 28 = k.val := by
    rw [h.2, sectorWord_toNat]
    omega
  unfold Buf.place rootPlace
  rw [h.1]
  congr 1
  exact Fin.ext hs

/-! ## 2. The relation -/

def Bcache.set (c : Bcache) (i : Fin nbuf) (b : Buf) : Bcache :=
  { c with buf := update c.buf i b }

def sectorBuf (k : Lba) (busy dirty : Bool) (x : Block) : Buf :=
  ⟨rootDev, sectorWord k, busy, true, dirty, x⟩

@[simp] theorem sectorBuf_data (k : Lba) (busy dirty : Bool) (x : Block) :
    (sectorBuf k busy dirty x).data = x := rfl

theorem sectorBuf_at (k : Lba) (busy dirty : Bool) (x : Block) : (sectorBuf k busy dirty x).At k :=
  ⟨rfl, rfl⟩

@[simp] theorem Bcache.set_same (c : Bcache) (i : Fin nbuf) (b : Buf) : (c.set i b).buf i = b :=
  update_self _ _ _

theorem Bcache.set_other (c : Bcache) {i j : Fin nbuf} (h : j ≠ i) (b : Buf) :
    (c.set i b).buf j = c.buf j :=
  update_of_ne h _ _

@[simp] theorem Bcache.set_set (c : Bcache) (i : Fin nbuf) (b b' : Buf) :
    (c.set i b).set i b' = c.set i b' := by
  unfold Bcache.set
  rw [update_idem]

structure Cached (d : Disk) (c : Bcache) (v : Lba → Block) (out : Set Lba) : Prop where
  unique : ∀ i j k, (c.buf i).At k → (c.buf j).At k → i = j
  coherent : ∀ i k, (c.buf i).At k → (c.buf i).valid = true ∧ (c.buf i).data = v k
  synced : ∀ k, k ∉ out → v k = d (rootPlace k)
  pinned : ∀ k ∈ out, ∃ i, (c.buf i).At k ∧ (c.buf i).idle = false
  order : ∀ i, i ∈ c.order

theorem cached_init (d : Disk) : Cached d bufcacheInit (fun k => d (rootPlace k)) ∅ where
  unique := fun _ _ _ h => absurd h.1 (show ¬ (-1 : BitVec 32) = rootDev by decide)
  coherent := fun _ _ h => absurd h.1 (show ¬ (-1 : BitVec 32) = rootDev by decide)
  synced := fun _ _ => rfl
  pinned := fun _ h => absurd h (Set.notMem_empty _)
  order := fun i => List.mem_reverse.mpr (List.mem_finRange i)

/-- Putting a valid buffer for sector `k` where such a buffer was, or in the place of an idle one
when no buffer was for `k`.  All the operations of the cache are of this kind. -/
theorem Cached.replace {d d' : Disk} {c : Bcache} {v v' : Lba → Block} {out out' : Set Lba}
    (h : Cached d c v out) {i : Fin nbuf}
    (hold : (c.buf i).At k ∨ ((c.buf i).idle = true ∧ ∀ j, ¬ (c.buf j).At k)) (hb : b.At k)
    (hdata : b.data = v' k) (hvalid : b.valid = true)
    (hd : ∀ k', k' ≠ k → d' (rootPlace k') = d (rootPlace k')) (hv : ∀ k', k' ≠ k → v' k' = v k')
    (hout : ∀ k', k' ≠ k → (k' ∈ out' ↔ k' ∈ out)) (hsync : k ∉ out' → v' k = d' (rootPlace k))
    (hpin : k ∈ out' → b.idle = false) :
    Cached d' (c.set i b) v' out' := by
  -- no other buffer is for `k`
  have hother : ∀ j, j ≠ i → ¬ (c.buf j).At k := by
    intro j hj hk
    rcases hold with hi | ⟨_, hno⟩
    · exact hj (h.unique j i k hk hi)
    · exact hno j hk
  refine ⟨fun j j' k' hj hj' => ?_, fun j k' hj => ?_, fun k' hk' => ?_, fun k' hk' => ?_, h.order⟩
  · rcases eq_or_ne j i with rfl | hne
    · rw [Bcache.set_same] at hj
      obtain rfl := Buf.at_inj hb hj
      by_contra hjj
      rw [Bcache.set_other c (Ne.symm hjj)] at hj'
      exact hother j' (Ne.symm hjj) hj'
    · rcases eq_or_ne j' i with rfl | hne'
      · rw [Bcache.set_same] at hj'
        obtain rfl := Buf.at_inj hb hj'
        rw [Bcache.set_other c hne] at hj
        exact absurd hj (hother j hne)
      · rw [Bcache.set_other c hne] at hj
        rw [Bcache.set_other c hne'] at hj'
        exact h.unique j j' k' hj hj'
  · rcases eq_or_ne j i with rfl | hne
    · rw [Bcache.set_same] at hj ⊢
      obtain rfl := Buf.at_inj hb hj
      exact ⟨hvalid, hdata⟩
    · rw [Bcache.set_other c hne] at hj ⊢
      have hkk : k' ≠ k := by
        rintro rfl
        exact hother j hne hj
      rw [hv k' hkk]
      exact h.coherent j k' hj
  · rcases eq_or_ne k' k with rfl | hkk
    · exact hsync hk'
    · rw [hv k' hkk, hd k' hkk]
      exact h.synced k' fun hmem => hk' ((hout k' hkk).mpr hmem)
  · rcases eq_or_ne k' k with rfl | hkk
    · refine ⟨i, ?_⟩
      rw [Bcache.set_same]
      exact ⟨hb, hpin hk'⟩
    · obtain ⟨j, hj, hidle⟩ := h.pinned k' ((hout k' hkk).mp hk')
      have hne : j ≠ i := by
        rintro rfl
        rcases hold with hi | ⟨hyes, _⟩
        · exact hkk (Buf.at_inj hj hi)
        · rw [hyes] at hidle
          contradiction
      refine ⟨j, ?_⟩
      rw [Bcache.set_other c hne]
      exact ⟨hj, hidle⟩

/-! ## 3. The operations -/

def Machine.withCache (s : Machine) (c : Bcache) : Machine := { s with bcache := c }

@[simp] theorem Machine.withCache_bcache (s : Machine) (c : Bcache) :
    (s.withCache c).bcache = c := rfl

section Operations

variable {E : List DiskWrite → Disk → Prop} {X : Prop} {past : List DiskWrite} {d : Disk}
  {s : Machine} {v : Lba → Block} {out : Set Lba} {k : Lba} {i : Fin nbuf}

@[simp] theorem wp_getBuf {Q : Buf → List DiskWrite → Disk → Machine → Prop} :
    wp E X (getBuf i) Q past d s ↔ Q (s.bcache.buf i) past d s := by
  unfold getBuf
  rw [wp_bind, wp_get, wp_pure]

variable {dirty : Bool} {x : Block} {held : List (Fin nbuf)} {c : Bcache} {b : Buf}
  {Q : Unit → List DiskWrite → Disk → Machine → Prop}

@[simp] theorem wp_setBuf :
    wp E X (setBuf i b) Q past d s ↔ Q () past d (s.withCache (s.bcache.set i b)) := by
  unfold setBuf
  rw [wp_modify]
  rfl

@[simp] theorem wp_modifyData {f : Block → Block} :
    wp E X (modifyData i f) Q past d s ↔
      Q () past d (s.withCache (s.bcache.set i
        { s.bcache.buf i with data := f (s.bcache.buf i).data })) := by
  unfold modifyData
  rw [wp_bind, wp_getBuf, wp_setBuf]

theorem wp_ideRw_read (hi : (s.bcache.buf i).At k) (hbusy : (s.bcache.buf i).busy = true)
    (hvalid : (s.bcache.buf i).valid = false) (hdirty : (s.bcache.buf i).dirty = false)
    (hdisk : s.haveDisk1 = true)
    (hQ : Q () past d (s.withCache (s.bcache.set i (sectorBuf k true false (d (rootPlace k)))))) :
    wp E X (ideRw i) Q past d s := by
  unfold ideRw
  rw [wp_bind, wp_get]
  dsimp only
  rw [hbusy, hvalid, hdirty, hdisk, if_neg (by decide), if_neg (by decide), if_neg (by simp),
    if_neg (by decide), wp_bind, wp_sense, wp_setBuf, hi.place_eq, hi.1, hi.2]
  exact hQ

theorem wp_ideRw_write (hi : (s.bcache.buf i).At k) (hbusy : (s.bcache.buf i).busy = true)
    (hdirty : (s.bcache.buf i).dirty = true) (hdisk : s.haveDisk1 = true)
    (hE : E (past ++ [⟨rootPlace k, (s.bcache.buf i).data⟩])
      (update d (rootPlace k) (s.bcache.buf i).data))
    (hQ : Q () (past ++ [⟨rootPlace k, (s.bcache.buf i).data⟩])
      (update d (rootPlace k) (s.bcache.buf i).data)
      (s.withCache (s.bcache.set i (sectorBuf k true false (s.bcache.buf i).data)))) :
    wp E X (ideRw i) Q past d s := by
  unfold ideRw
  rw [wp_bind, wp_get]
  dsimp only
  rw [hbusy, hdirty, hdisk, if_neg (by decide), if_neg (by simp), if_neg (by simp),
    if_pos rfl, wp_bind, wp_emit, wp_setBuf, hi.place_eq, hi.1, hi.2]
  exact ⟨hE, hQ⟩

theorem wp_bufcacheRead (h : Cached d s.bcache v out)
    (hfree : ∀ j, (s.bcache.buf j).At k → (s.bcache.buf j).busy = false)
    (hX : X ∨ ∃ j, (s.bcache.buf j).idle = true) (hdisk : s.haveDisk1 = true)
    {Q : Fin nbuf → List DiskWrite → Disk → Machine → Prop}
    (hQ : ∀ i, (s.bcache.buf i).busy = false →
      Cached d (s.bcache.set i (sectorBuf k true (s.bcache.buf i).dirty (v k))) v out →
      Q i past d (s.withCache (s.bcache.set i (sectorBuf k true (s.bcache.buf i).dirty (v k))))) :
    wp E X (bufcacheRead rootDev (sectorWord k)) Q past d s := by
  unfold bufcacheRead bufcacheGet
  rw [wp_bind, wp_bind, wp_get]
  dsimp only
  cases hfind : s.bcache.order.find? fun i => (s.bcache.buf i).holds rootDev (sectorWord k) with
  | some i =>
    -- the sector is cached
    have hhit := List.find?_some hfind
    have hat : (s.bcache.buf i).At k := Buf.holds_iff.mp hhit
    have hbusy := hfree i hat
    obtain ⟨hvalid, hdata⟩ := h.coherent i k hat
    have heq : ({ s.bcache.buf i with busy := true } : Buf) =
        sectorBuf k true (s.bcache.buf i).dirty (v k) := by
      unfold sectorBuf
      dsimp only
      rw [hat.1, hat.2, hvalid, hdata]
    have hc : Cached d (s.bcache.set i (sectorBuf k true (s.bcache.buf i).dirty (v k))) v out :=
      h.replace (Or.inl hat) (sectorBuf_at k true _ (v k)) rfl rfl (fun _ _ => rfl)
        (fun _ _ => rfl) (fun _ _ => Iff.rfl) (h.synced k) (fun _ => rfl)
    dsimp only
    rw [if_neg (by rw [hbusy]; decide), wp_bind, wp_setBuf, wp_pure, wp_bind, wp_getBuf, heq]
    rw [if_neg (by rw [Machine.withCache_bcache, Bcache.set_same]; exact Bool.noConfusion), wp_pure]
    exact hQ i hbusy hc
  | none =>
    have hno : ∀ j, ¬ (s.bcache.buf j).At k := by
      intro j hj
      exact List.find?_eq_none.mp hfind j (h.order j) (Buf.holds_iff.mpr hj)
    cases hidle : s.bcache.order.reverse.find? fun i => (s.bcache.buf i).idle with
    | none =>
      rw [wp_halt]
      rcases hX with hX | ⟨j, hj⟩
      · exact hX
      · have hall := List.find?_eq_none.mp hidle j (List.mem_reverse.mpr (h.order j))
        exact absurd hj hall
    | some i =>
      -- the least recently used idle buffer is recycled and filled from the disk
      have hi := List.find?_some hidle
      have hflags : (s.bcache.buf i).busy = false ∧ (s.bcache.buf i).dirty = false := by
        unfold Buf.idle at hi
        simpa using hi
      have hout : k ∉ out := by
        intro hk
        obtain ⟨j, hj, _⟩ := h.pinned k hk
        exact hno j hj
      have hc : Cached d (s.bcache.set i (sectorBuf k true (s.bcache.buf i).dirty (v k))) v out :=
        h.replace (Or.inr ⟨hi, hno⟩) (sectorBuf_at k true _ (v k)) rfl rfl (fun _ _ => rfl)
          (fun _ _ => rfl) (fun _ _ => Iff.rfl) (h.synced k) (fun _ => rfl)
      dsimp only
      rw [wp_bind, wp_setBuf, wp_pure, wp_bind, wp_getBuf]
      rw [if_pos (by rw [Machine.withCache_bcache, Bcache.set_same]; rfl), wp_bind]
      apply wp_ideRw_read (k := k)
      · rw [Machine.withCache_bcache, Bcache.set_same]
        exact ⟨rfl, rfl⟩
      · rw [Machine.withCache_bcache, Bcache.set_same]
      · rw [Machine.withCache_bcache, Bcache.set_same]
      · rw [Machine.withCache_bcache, Bcache.set_same]
      · exact hdisk
      · rw [wp_pure, Machine.withCache_bcache, Bcache.set_set, ← h.synced k hout]
        have hq := hQ i hflags.1 hc
        rw [hflags.2] at hq
        exact hq

theorem Cached.store (h : Cached d c v out) (hi : c.buf i = sectorBuf k true dirty x) (y : Block) :
    Cached d (c.set i (sectorBuf k true dirty y)) (update v k y) (insert k out) := by
  refine h.replace (Or.inl (by rw [hi]; exact sectorBuf_at k true dirty x)) (sectorBuf_at k _ _ y)
    ?_ rfl (fun _ _ => rfl) (fun k' hk' => update_of_ne hk' _ _) ?_ ?_ (fun _ => rfl)
  · rw [update_self]
    rfl
  · intro k' hk'
    exact ⟨fun hmem => hmem.resolve_left hk', fun hmem => Or.inr hmem⟩
  · intro hno
    exact absurd (Set.mem_insert k out) hno

theorem wp_bufcacheWrite (h : Cached d s.bcache v out)
    (hi : s.bcache.buf i = sectorBuf k true dirty x) (hdisk : s.haveDisk1 = true)
    (hE : E (past ++ [⟨rootPlace k, x⟩]) (update d (rootPlace k) x))
    (hQ : Cached (update d (rootPlace k) x) (s.bcache.set i (sectorBuf k true false x)) v
        (out \ {k}) →
      Q () (past ++ [⟨rootPlace k, x⟩]) (update d (rootPlace k) x)
        (s.withCache (s.bcache.set i (sectorBuf k true false x)))) :
    wp E X (bufcacheWrite i) Q past d s := by
  have hat : (s.bcache.buf i).At k := by
    rw [hi]
    exact sectorBuf_at k true dirty x
  have hx : x = v k := by
    rw [← (h.coherent i k hat).2, hi]
    rfl
  have hc : Cached (update d (rootPlace k) x)
      (s.bcache.set i (sectorBuf k true false x)) v (out \ {k}) := by
    refine h.replace (Or.inl hat) (sectorBuf_at k true false x) hx rfl ?_ (fun _ _ => rfl) ?_ ?_
      (fun hk => absurd rfl hk.2)
    · intro k' hk'
      exact update_of_ne (fun he => hk' (rootPlace_inj he)) _ _
    · intro k' hk'
      exact ⟨fun hmem => hmem.1, fun hmem => ⟨hmem, hk'⟩⟩
    · intro _
      rw [update_self, hx]
  unfold bufcacheWrite
  rw [wp_bind, wp_getBuf, if_neg (by rw [hi]; exact Bool.noConfusion), wp_bind, wp_setBuf, hi]
  have hsame : ((s.withCache (s.bcache.set i { sectorBuf k true dirty x with dirty := true })
      ).bcache.buf i) = sectorBuf k true true x := by
    rw [Machine.withCache_bcache, Bcache.set_same]
    rfl
  apply wp_ideRw_write (k := k)
  · rw [hsame]
    exact sectorBuf_at k true true x
  · rw [hsame]
    rfl
  · rw [hsame]
    rfl
  · exact hdisk
  · rw [hsame]
    exact hE
  · rw [hsame, Machine.withCache_bcache, Bcache.set_set]
    exact hQ hc

def Bcache.toFront (c : Bcache) (i : Fin nbuf) : Bcache := { c with order := i :: c.order.erase i }

theorem Cached.toFront (h : Cached d c v out) (i : Fin nbuf) : Cached d (c.toFront i) v out where
  unique := h.unique
  coherent := h.coherent
  synced := h.synced
  pinned := h.pinned
  order := by
    intro j
    rcases eq_or_ne j i with rfl | hne
    · exact List.mem_cons_self
    · exact List.mem_cons_of_mem _ ((List.mem_erase_of_ne hne).mpr (h.order j))

theorem wp_bufcacheRelease (h : Cached d s.bcache v out)
    (hi : s.bcache.buf i = sectorBuf k true dirty x) (hk : k ∈ out → dirty = true)
    (hQ : Cached d ((s.bcache.set i (sectorBuf k false dirty x)).toFront i) v out →
      Q () past d (s.withCache ((s.bcache.set i (sectorBuf k false dirty x)).toFront i))) :
    wp E X (bufcacheRelease i) Q past d s := by
  have hat : (s.bcache.buf i).At k := by
    rw [hi]
    exact sectorBuf_at k true dirty x
  have hx : x = v k := by
    rw [← (h.coherent i k hat).2, hi]
    rfl
  have hc : Cached d (s.bcache.set i (sectorBuf k false dirty x)) v out := by
    refine h.replace (Or.inl hat) (sectorBuf_at k false dirty x) hx rfl (fun _ _ => rfl)
      (fun _ _ => rfl) (fun _ _ => Iff.rfl) (h.synced k) fun hmem => ?_
    rw [hk hmem]
    rfl
  unfold bufcacheRelease
  rw [wp_bind, wp_getBuf, if_neg (by rw [hi]; exact Bool.noConfusion), wp_bind, wp_modify, wp_setBuf, hi]
  exact hQ (hc.toFront i)

/-! ## 4. Buffers in use -/

/-- Exactly the buffers in `held` are busy, and the others are clean unless a halt is allowed. -/
structure Holding (X : Prop) (c : Bcache) (held : List (Fin nbuf)) : Prop where
  busy : ∀ j ∈ held, (c.buf j).busy = true
  free : ∀ j, j ∉ held → (c.buf j).busy = false
  clean : X ∨ ∀ j, j ∉ held → (c.buf j).dirty = false

theorem Holding.exists_idle (h : Holding X c held) (hlen : held.length < nbuf) :
    X ∨ ∃ j, (c.buf j).idle = true := by
  rcases h.clean with hX | hclean
  · exact Or.inl hX
  · right
    by_contra hno
    have hall : List.finRange nbuf ⊆ held := by
      intro j _
      by_contra hj
      refine hno ⟨j, ?_⟩
      unfold Buf.idle
      rw [h.free j hj, hclean j hj]
      rfl
    have hle := (List.subperm_of_subset (List.nodup_finRange nbuf) hall).length_le
    rw [List.length_finRange] at hle
    omega

theorem Holding.fetch (h : Holding X c held) (hb : b.busy = true) :
    Holding X (c.set i b) (i :: held) where
  busy := by
    intro j hj
    rcases eq_or_ne j i with rfl | hne
    · rw [Bcache.set_same]
      exact hb
    · rw [Bcache.set_other c hne]
      exact h.busy j ((List.mem_cons.mp hj).resolve_left hne)
  free := by
    intro j hj
    rw [List.mem_cons, not_or] at hj
    rw [Bcache.set_other c hj.1]
    exact h.free j hj.2
  clean := h.clean.imp_right fun hclean j hj => by
    rw [List.mem_cons, not_or] at hj
    rw [Bcache.set_other c hj.1]
    exact hclean j hj.2

theorem Holding.keep (h : Holding X c held) (hi : i ∈ held) (hb : b.busy = true) :
    Holding X (c.set i b) held where
  busy := by
    intro j hj
    rcases eq_or_ne j i with rfl | hne
    · rw [Bcache.set_same]
      exact hb
    · rw [Bcache.set_other c hne]
      exact h.busy j hj
  free := by
    intro j hj
    have hne : j ≠ i := fun he => hj (he ▸ hi)
    rw [Bcache.set_other c hne]
    exact h.free j hj
  clean := h.clean.imp_right fun hclean j hj => by
    have hne : j ≠ i := fun he => hj (he ▸ hi)
    rw [Bcache.set_other c hne]
    exact hclean j hj

theorem Holding.release {held' : List (Fin nbuf)} (h : Holding X c held)
    (hh : ∀ j, j ∈ held' ↔ j ∈ held ∧ j ≠ i) (hb : b.busy = false) (hdirty : X ∨ b.dirty = false) :
    Holding X ((c.set i b).toFront i) held' where
  busy := by
    intro j hj
    obtain ⟨hmem, hne⟩ := (hh j).mp hj
    show ((c.set i b).buf j).busy = true
    rw [Bcache.set_other c hne]
    exact h.busy j hmem
  free := by
    intro j hj
    show ((c.set i b).buf j).busy = false
    rcases eq_or_ne j i with rfl | hne
    · rw [Bcache.set_same]
      exact hb
    · rw [Bcache.set_other c hne]
      exact h.free j fun hmem => hj ((hh j).mpr ⟨hmem, hne⟩)
  clean := by
    rcases h.clean with hX | hclean
    · exact Or.inl hX
    · rcases hdirty with hX | hdirty
      · exact Or.inl hX
      · right
        intro j hj
        show ((c.set i b).buf j).dirty = false
        rcases eq_or_ne j i with rfl | hne
        · rw [Bcache.set_same]
          exact hdirty
        · rw [Bcache.set_other c hne]
          exact hclean j fun hmem => hj ((hh j).mpr ⟨hmem, hne⟩)

/-- What a program that holds the buffers `held` knows about disk and memory. -/
structure Viewed (X : Prop) (d : Disk) (s : Machine) (v : Lba → Block) (out : Set Lba)
    (held : List (Fin nbuf)) : Prop where
  cached : Cached d s.bcache v out
  holding : Holding X s.bcache held
  disk1 : s.haveDisk1 = true

structure Changed (s s' : Machine) (i : Fin nbuf) (b : Buf) : Prop where
  log : s'.log = s.log
  here : s'.bcache.buf i = b
  others : ∀ j, j ≠ i → s'.bcache.buf j = s.bcache.buf j

theorem changed_set (s : Machine) (i : Fin nbuf) (b : Buf) :
    Changed s (s.withCache (s.bcache.set i b)) i b :=
  ⟨rfl, Bcache.set_same _ _ _, fun _ hj => Bcache.set_other _ hj _⟩

theorem Viewed.read (h : Viewed X d s v out held) (hheld : ∀ j ∈ held, ¬ (s.bcache.buf j).At k)
    (hlen : held.length < nbuf) {Q : Fin nbuf → List DiskWrite → Disk → Machine → Prop}
    (hQ : ∀ i dirty s', i ∉ held → (X ∨ dirty = false) →
      Changed s s' i (sectorBuf k true dirty (v k)) → Viewed X d s' v out (i :: held) →
      Q i past d s') :
    wp E X (bufcacheRead rootDev (sectorWord k)) Q past d s := by
  refine wp_bufcacheRead h.cached (fun j hj => ?_) (h.holding.exists_idle hlen) h.disk1
    fun i hbusy hc => ?_
  · exact h.holding.free j fun hmem => hheld j hmem hj
  · have hi : i ∉ held := by
      intro hmem
      rw [h.holding.busy i hmem] at hbusy
      contradiction
    exact hQ i _ _ hi (h.holding.clean.imp_right fun hclean => hclean i hi) (changed_set s i _)
      ⟨hc, h.holding.fetch rfl, h.disk1⟩

theorem Viewed.overwrite {y : Block} {α : Type} (h : Viewed X d s v out held) (hi : i ∈ held)
    (hb : s.bcache.buf i = sectorBuf k true dirty x) {f : Block → Block} (hy : f x = y)
    {g : Unit → FsM α} {Q : α → List DiskWrite → Disk → Machine → Prop}
    (hE : E (past ++ [⟨rootPlace k, y⟩]) (update d (rootPlace k) y))
    (hQ : ∀ s', Changed s s' i (sectorBuf k true false y) →
      Viewed X (update d (rootPlace k) y) s' (update v k y) (out \ {k}) held →
      wp E X (g ()) Q (past ++ [⟨rootPlace k, y⟩]) (update d (rootPlace k) y) s') :
    wp E X (modifyData i f >>= fun _ => bufcacheWrite i >>= g) Q past d s := by
  have hstored : s.withCache (s.bcache.set i
      { s.bcache.buf i with data := f (s.bcache.buf i).data }) =
        s.withCache (s.bcache.set i (sectorBuf k true dirty y)) := by
    rw [hb]
    show s.withCache (s.bcache.set i (sectorBuf k true dirty (f x))) = _
    rw [hy]
  have hset : insert k out \ {k} = out \ {k} := Set.insert_sdiff_of_mem _ rfl
  rw [wp_bind, wp_modifyData, wp_bind, hstored]
  have hc : Cached d (s.withCache (s.bcache.set i (sectorBuf k true dirty y))).bcache
      (update v k y) (insert k out) := h.cached.store hb y
  refine wp_bufcacheWrite hc (Bcache.set_same s.bcache i _) h.disk1 hE fun hc => ?_
  rw [Machine.withCache_bcache, Bcache.set_set] at hc ⊢
  rw [hset] at hc
  exact hQ _ (changed_set s i _) ⟨hc, h.holding.keep hi rfl, h.disk1⟩

theorem Viewed.store (h : Viewed X d s v out held) (hi : i ∈ held)
    (hb : s.bcache.buf i = sectorBuf k true dirty x) (y : Block) :
    Viewed X d (s.withCache (s.bcache.set i (sectorBuf k true dirty y))) (update v k y)
      (insert k out) held :=
  ⟨h.cached.store hb y, h.holding.keep hi rfl, h.disk1⟩

theorem Viewed.mark (h : Viewed X d s v out held) (hi : i ∈ held)
    (hb : s.bcache.buf i = sectorBuf k true dirty x) :
    Viewed X d (s.withCache (s.bcache.set i (sectorBuf k true true x))) v out held := by
  have hat : (s.bcache.buf i).At k := by
    rw [hb]
    exact sectorBuf_at k true dirty x
  have hx : x = v k := by
    rw [← (h.cached.coherent i k hat).2, hb]
    rfl
  have hc : Cached d (s.bcache.set i (sectorBuf k true true x)) v out :=
    h.cached.replace (Or.inl hat) (sectorBuf_at k true true x) hx rfl (fun _ _ => rfl)
      (fun _ _ => rfl) (fun _ _ => Iff.rfl) (h.cached.synced k) (fun _ => rfl)
  exact ⟨hc, h.holding.keep hi rfl, h.disk1⟩

section Release

variable (hb : s.bcache.buf i = sectorBuf k true dirty x) (hk : k ∈ out → dirty = true)
  (hdirty : X ∨ dirty = false)

include hb hk hdirty

theorem Viewed.release {held' : List (Fin nbuf)} (h : Viewed X d s v out held)
    (hh : ∀ j, j ∈ held' ↔ j ∈ held ∧ j ≠ i)
    (hQ : ∀ s', Changed s s' i (sectorBuf k false dirty x) → Viewed X d s' v out held' →
      Q () past d s') :
    wp E X (bufcacheRelease i) Q past d s :=
  wp_bufcacheRelease h.cached hb hk fun hc =>
    hQ _ ⟨rfl, Bcache.set_same _ _ _, fun _ hj => Bcache.set_other _ hj _⟩
      ⟨hc, h.holding.release hh rfl hdirty, h.disk1⟩

theorem Viewed.releaseLast (h : Viewed X d s v out [i])
    (hQ : ∀ s', Changed s s' i (sectorBuf k false dirty x) → Viewed X d s' v out [] →
      Q () past d s') :
    wp E X (bufcacheRelease i) Q past d s :=
  h.release hb hk hdirty (by simp) hQ

theorem Viewed.releaseOne {j : Fin nbuf} (h : Viewed X d s v out held) (hne : i ≠ j)
    (hheld : ∀ j', j' ∈ held ↔ j' = i ∨ j' = j)
    (hQ : ∀ s', Changed s s' i (sectorBuf k false dirty x) → Viewed X d s' v out [j] →
      Q () past d s') :
    wp E X (bufcacheRelease i) Q past d s := by
  refine h.release hb hk hdirty (fun j' => ?_) hQ
  rw [List.mem_singleton, hheld]
  constructor
  · rintro rfl
    exact ⟨Or.inr rfl, hne.symm⟩
  · exact fun hj => hj.1.resolve_left hj.2

end Release

end Operations

end MCertiKOS.Fs
