import DistributedSystems.Library.Runs
import DistributedSystems.MCertiKOS.Pages

/-!
# The allocation table in words (`MATIntro.c`, `MATInit.c`, `MATOp.c`)

The three layers with the 32-bit words of the C code: products and sums wrap, and `palloc` keeps `nps`
for a page that was not found.  `Models` relates this table to the one that the other modules use.
-/

namespace MCertiKOS

open Function

/-! ## 1. `MATIntro` -/

structure AllocTable where
  nps : BitVec 32
  perm : BitVec 32 → BitVec 32
  allocated : BitVec 32 → BitVec 32
  lastPallocIndex : BitVec 32

namespace AllocTable

def atIsNorm (t : AllocTable) (pageIndex : BitVec 32) : Bool := 1#32 < t.perm pageIndex

def atSetPerm (t : AllocTable) (pageIndex perm : BitVec 32) : AllocTable :=
  { t with
    perm := update t.perm pageIndex perm
    allocated := update t.allocated pageIndex 0 }

def atIsAllocated (t : AllocTable) (pageIndex : BitVec 32) : Bool :=
  0#32 < t.allocated pageIndex

def atSetAllocated (t : AllocTable) (pageIndex allocated : BitVec 32) : AllocTable :=
  { t with allocated := update t.allocated pageIndex allocated }

/-! ## 2. `MATInit` -/

def static : AllocTable := ⟨0, fun _ => 0, fun _ => 0, BitVec.ofNat 32 userLoPi⟩

def highestAddr (mmap : List MemRange) : BitVec 32 :=
  mmap.foldl (fun nps r => if nps < r.start + r.len then r.start + r.len else nps) 0

def pageCount (highest : BitVec 32) : BitVec 32 :=
  (highest - highest % BitVec.ofNat 32 pageSize) / BitVec.ofNat 32 pageSize

def containsPage (r : MemRange) (pgIdx : BitVec 32) : Bool :=
  r.start ≤ pgIdx * BitVec.ofNat 32 pageSize ∧
    (pgIdx + 1) * BitVec.ofNat 32 pageSize ≤ r.start + r.len

/-- The inner loop: `flag` and `isnorm` when it ends. -/
def searchEntries (pgIdx : BitVec 32) : List MemRange → Bool → Bool × Bool
  | [], isnorm => (false, isnorm)
  | r :: entries, _ =>
    if containsPage r pgIdx then (true, r.usable) else searchEntries pgIdx entries r.usable

def initPage (mmap : List MemRange) (t : AllocTable) (pgIdx : BitVec 32) : AllocTable :=
  if pgIdx < BitVec.ofNat 32 userLoPi ∨ BitVec.ofNat 32 userHiPi ≤ pgIdx then t.atSetPerm pgIdx 1
  else
    let (flag, isnorm) := searchEntries pgIdx mmap false
    if flag && isnorm then t.atSetPerm pgIdx 2 else t.atSetPerm pgIdx 0

def pmemInit (mmap : List MemRange) : AllocTable :=
  let nps := pageCount (highestAddr mmap)
  ((List.range nps.toNat).map (BitVec.ofNat 32)).foldl (initPage mmap) { static with nps := nps }

/-! ## 3. `MATOp` -/

structure PallocVars where
  pallocIndex : BitVec 32
  pallocFreeIndex : BitVec 32
  first : Bool

def pallocCond (t : AllocTable) (s : PallocVars) : Bool :=
  (s.pallocIndex ≠ t.lastPallocIndex || s.first) && s.pallocFreeIndex = t.nps

def pallocBody (t : AllocTable) (s : PallocVars) : PallocVars where
  first := false
  pallocFreeIndex :=
    if t.atIsNorm s.pallocIndex && !t.atIsAllocated s.pallocIndex then s.pallocIndex
    else s.pallocFreeIndex
  pallocIndex :=
    if BitVec.ofNat 32 userHiPi ≤ s.pallocIndex + 1 then BitVec.ofNat 32 userLoPi
    else s.pallocIndex + 1

/-- Nothing if the loop does not end. -/
def palloc (t : AllocTable) : Option (AllocTable × BitVec 32) :=
  (Loops.runWhile t.pallocCond t.pallocBody userHiPi ⟨t.lastPallocIndex, t.nps, true⟩).map fun s =>
    if s.pallocFreeIndex = t.nps then
      ({ t with lastPallocIndex := BitVec.ofNat 32 userLoPi }, 0)
    else
      ({ t.atSetAllocated s.pallocFreeIndex 1 with lastPallocIndex := s.pallocFreeIndex },
        s.pallocFreeIndex)

def pfree (t : AllocTable) (pfreeIndex : BitVec 32) : AllocTable := t.atSetAllocated pfreeIndex 0

end AllocTable

/-! ## 4. The two tables -/

namespace AllocTable

/-- The same table in natural numbers. -/
structure Models (t : AllocTable) (m : PMem) : Prop where
  nps : t.nps.toNat = m.nps
  perm : ∀ i, (t.perm i).toNat = m.perm i.toNat
  allocated : ∀ i, (t.allocated i).toNat = m.allocated i.toNat
  last : t.lastPallocIndex.toNat = m.lastPallocIndex.val

variable {t : AllocTable} {m : PMem}

theorem Models.atIsNorm (h : t.Models m) (i : BitVec 32) : t.atIsNorm i = m.atIsNorm i.toNat := by
  unfold AllocTable.atIsNorm PMem.atIsNorm
  rw [← h.perm]
  rfl

theorem Models.atIsAllocated (h : t.Models m) (i : BitVec 32) :
    t.atIsAllocated i = m.atIsAllocated i.toNat := by
  unfold AllocTable.atIsAllocated PMem.atIsAllocated
  rw [← h.allocated]
  rfl

theorem Models.atSetAllocated (h : t.Models m) (i v : BitVec 32) :
    (t.atSetAllocated i v).Models (m.atSetAllocated i.toNat v.toNat) := by
  refine ⟨h.nps, h.perm, fun j => ?_, h.last⟩
  show (update t.allocated i v j).toNat = update m.allocated i.toNat v.toNat j.toNat
  by_cases hj : j = i
  · rw [hj, update_self, update_self]
  · rw [update_of_ne hj,
      update_of_ne fun hnat => hj (BitVec.eq_of_toNat_eq hnat)]
    exact h.allocated j

theorem Models.withLast (h : t.Models m) {i : BitVec 32} {p : UserPage} (hi : i.toNat = p.val) :
    ({ t with lastPallocIndex := i }).Models { m with lastPallocIndex := p } :=
  ⟨h.nps, h.perm, h.allocated, hi⟩

theorem Models.pfree (h : t.Models m) (i : BitVec 32) : (t.pfree i).Models (m.pfree i.toNat) :=
  h.atSetAllocated i 0

/-! ## 5. Initialisation -/

theorem toNat_pageSize : (BitVec.ofNat 32 pageSize).toNat = 4096 := by decide

theorem toNat_userLoPi : (BitVec.ofNat 32 userLoPi).toNat = userLoPi := by decide

theorem toNat_userHiPi : (BitVec.ofNat 32 userHiPi).toNat = userHiPi := by decide

theorem toNat_pageCount (highest : BitVec 32) :
    (pageCount highest).toNat = highest.toNat / pageSize := by
  have hlt := highest.isLt
  have hsize : pageSize = 4096 := rfl
  unfold pageCount
  rw [BitVec.toNat_udiv, BitVec.toNat_sub, BitVec.toNat_umod, toNat_pageSize, hsize]
  omega

theorem toNat_highestAddr (mmap : List MemRange) :
    (highestAddr mmap).toNat = mmap.foldl (fun nps r => max nps (r.start + r.len).toNat) 0 := by
  have hfold : ∀ (entries : List MemRange) (nps : BitVec 32),
      (entries.foldl (fun nps r => if nps < r.start + r.len then r.start + r.len else nps) nps).toNat =
        entries.foldl (fun nps r => max nps (r.start + r.len).toNat) nps.toNat := by
    intro entries
    induction entries with
    | nil => exact fun _ => rfl
    | cons r entries ih =>
      intro nps
      rw [List.foldl_cons, List.foldl_cons, ih]
      congr 1
      split
      · rename_i hlt
        rw [Nat.max_eq_right (Nat.le_of_lt hlt)]
      · rename_i hge
        rw [Nat.max_eq_left (Nat.le_of_not_lt hge)]
  exact hfold mmap 0

theorem containsPage_eq (r : MemRange) {pgIdx : BitVec 32} (h : pgIdx.toNat < userHiPi) :
    containsPage r pgIdx = decide (r.start.toNat ≤ pgIdx.toNat * pageSize ∧
      (pgIdx.toNat + 1) * pageSize ≤ (r.start + r.len).toNat) := by
  have hhi : userHiPi = 983040 := by decide
  have hsize : pageSize = 4096 := rfl
  have hmul : (pgIdx * BitVec.ofNat 32 pageSize).toNat = pgIdx.toNat * pageSize := by
    rw [BitVec.toNat_mul, toNat_pageSize, hsize]
    omega
  have hmul' : ((pgIdx + 1) * BitVec.ofNat 32 pageSize).toNat = (pgIdx.toNat + 1) * pageSize := by
    rw [BitVec.toNat_mul, BitVec.toNat_add, toNat_pageSize, hsize,
      show (1 : BitVec 32).toNat = 1 from rfl]
    omega
  apply decide_eq_decide.mpr
  rw [BitVec.le_def, BitVec.le_def, hmul, hmul']

theorem searchEntries_eq (pgIdx : BitVec 32) (entries : List MemRange) :
    ∀ isnorm, ((searchEntries pgIdx entries isnorm).1 && (searchEntries pgIdx entries isnorm).2) =
      (entries.find? fun r => containsPage r pgIdx).any MemRange.usable := by
  induction entries with
  | nil => exact fun _ => rfl
  | cons r entries ih =>
    intro isnorm
    unfold searchEntries
    rw [List.find?_cons]
    cases hr : containsPage r pgIdx with
    | true => rfl
    | false => exact ih r.usable

theorem initPage_eq (mmap : List MemRange) (t : AllocTable) (pgIdx : BitVec 32) :
    initPage mmap t pgIdx = t.atSetPerm pgIdx (BitVec.ofNat 32 (pagePerm mmap pgIdx.toNat)) := by
  have houtside : (pgIdx < BitVec.ofNat 32 userLoPi ∨ BitVec.ofNat 32 userHiPi ≤ pgIdx) ↔
      pgIdx.toNat < userLoPi ∨ userHiPi ≤ pgIdx.toNat := by
    rw [BitVec.lt_def, BitVec.le_def, toNat_userLoPi, toNat_userHiPi]
  unfold initPage pagePerm
  by_cases h : pgIdx.toNat < userLoPi ∨ userHiPi ≤ pgIdx.toNat
  · rw [if_pos (houtside.mpr h), if_pos h]
    rfl
  · rw [if_neg (mt houtside.mp h), if_neg h]
    have hfind : (mmap.find? fun r => containsPage r pgIdx) = mmap.find? fun r =>
        decide (r.start.toNat ≤ pgIdx.toNat * pageSize ∧
          (pgIdx.toNat + 1) * pageSize ≤ (r.start + r.len).toNat) := by
      congr 1
      ext r
      rw [containsPage_eq r (by omega)]
    have hsearch := searchEntries_eq pgIdx mmap false
    rw [hfind] at hsearch
    generalize searchEntries pgIdx mmap false = found at hsearch
    obtain ⟨flag, isnorm⟩ := found
    dsimp only at hsearch ⊢
    rw [hsearch]
    generalize List.find? _ mmap = entry
    cases entry with
    | none => rfl
    | some r =>
      rw [Option.any_some]
      dsimp only
      cases r.usable with
      | true => rfl
      | false => rfl

theorem foldl_initPage (mmap : List MemRange) (pages : List (BitVec 32)) (t : AllocTable) :
    pages.foldl (initPage mmap) t =
      { t with
        perm := fun j =>
          if j ∈ pages then BitVec.ofNat 32 (pagePerm mmap j.toNat) else t.perm j
        allocated := fun j => if j ∈ pages then 0 else t.allocated j } := by
  induction pages generalizing t with
  | nil => rfl
  | cons page pages ih =>
    rw [List.foldl_cons, ih, initPage_eq]
    unfold atSetPerm
    congr 1
    · ext j
      by_cases hj : j = page
      · subst hj
        simp
      · simp [hj, update_of_ne]
    · ext j
      by_cases hj : j = page
      · subst hj
        simp
      · simp [hj, update_of_ne]

theorem pagePerm_le (mmap : List MemRange) (i : Nat) : pagePerm mmap i ≤ 2 := by
  unfold pagePerm
  split
  · decide
  · split
    · split <;> decide
    · decide

theorem models_pmemInit (mmap : List MemRange) :
    (pmemInit mmap).Models (MCertiKOS.pmemInit mmap) := by
  have hnps : (pageCount (highestAddr mmap)).toNat = numPages mmap := by
    rw [toNat_pageCount, toNat_highestAddr]
    rfl
  have hmem : ∀ j : BitVec 32,
      j ∈ (List.range (pageCount (highestAddr mmap)).toNat).map (BitVec.ofNat 32) ↔
        j.toNat < numPages mmap := by
    intro j
    rw [List.mem_map, ← hnps]
    constructor
    · rintro ⟨i, hi, rfl⟩
      exact (Nat.mod_le _ _).trans_lt (List.mem_range.mp hi)
    · exact fun hj => ⟨j.toNat, List.mem_range.mpr hj, BitVec.ofNat_toNat ..⟩
  unfold pmemInit
  rw [foldl_initPage]
  refine ⟨hnps, fun j => ?_, fun j => ?_, toNat_userLoPi⟩
  · show (if _ then _ else _ : BitVec 32).toNat = initialPerm mmap j.toNat
    have hle := pagePerm_le mmap j.toNat
    unfold initialPerm
    by_cases hj : j.toNat < numPages mmap
    · rw [if_pos ((hmem j).mpr hj), if_pos hj, BitVec.toNat_ofNat, Nat.mod_eq_of_lt (by omega)]
    · rw [if_neg (mt (hmem j).mp hj), if_neg hj]
      rfl
  · show (if _ then _ else _ : BitVec 32).toNat = 0
    split
    · rfl
    · rfl

/-! ## 6. The allocator -/

def available (t : AllocTable) (i : BitVec 32) : Bool := t.atIsNorm i && !t.atIsAllocated i

def InWindow (i : BitVec 32) : Prop := userLoPi ≤ i.toNat ∧ i.toNat < userHiPi

theorem Models.available (h : t.Models m) (i : BitVec 32) :
    t.available i = m.available i.toNat := by
  unfold AllocTable.available PMem.available
  rw [h.atIsNorm, h.atIsAllocated]

/-- The variables of the two loops; `nps` stands for a page that was not found. -/
structure SameVars (t : AllocTable) (s : PallocVars) (s' : PallocLoop) : Prop where
  index : s.pallocIndex.toNat = s'.pallocIndex.val
  first : s.first = s'.first
  notFound : s'.pallocFreeIndex = none → s.pallocFreeIndex = t.nps
  found : ∀ p, s'.pallocFreeIndex = some p →
    s.pallocFreeIndex.toNat = p.val ∧ s.pallocFreeIndex ≠ t.nps

theorem Models.ne_nps (h : t.Models m) {i : BitVec 32} (hav : t.available i = true) : i ≠ t.nps := by
  rintro rfl
  rw [h.available, PMem.available, Bool.and_eq_true] at hav
  have hlt := (m.norm_user _ (of_decide_eq_true hav.1)).2.2
  rw [h.nps] at hlt
  omega

theorem SameVars.cond {s : PallocVars} {s' : PallocLoop} (hs : t.SameVars s s') (h : t.Models m) :
    t.pallocCond s = m.pallocCond s' := by
  have hindex : (s.pallocIndex ≠ t.lastPallocIndex) ↔ s'.pallocIndex ≠ m.lastPallocIndex := by
    rw [not_iff_not]
    constructor
    · intro heq
      apply Subtype.ext
      rw [← hs.index, heq, h.last]
    · intro heq
      apply BitVec.eq_of_toNat_eq
      rw [hs.index, heq, h.last]
  have hfree : (s.pallocFreeIndex = t.nps) ↔ s'.pallocFreeIndex.isNone = true := by
    cases hfree : s'.pallocFreeIndex with
    | none => exact iff_of_true (hs.notFound hfree) rfl
    | some p => exact iff_of_false (hs.found p hfree).2 Bool.false_ne_true
  unfold pallocCond PMem.pallocCond
  rw [hs.first, decide_eq_decide.mpr hindex]
  congr 1
  exact Bool.eq_iff_iff.mpr (decide_eq_true_iff.trans hfree)

theorem SameVars.body {s : PallocVars} {s' : PallocLoop} (hs : t.SameVars s s') (h : t.Models m) :
    t.SameVars (t.pallocBody s) (m.pallocBody s') := by
  have havail : t.available s.pallocIndex = m.available s'.pallocIndex := by
    rw [h.available, hs.index]
  have hnext : (t.pallocBody s).pallocIndex.toNat = s'.pallocIndex.next.val := by
    have hlt := s'.pallocIndex.property.2
    have hhi : userHiPi = 983040 := by decide
    have hsucc : (s.pallocIndex + 1).toNat = s'.pallocIndex.val + 1 := by
      rw [BitVec.toNat_add, hs.index, show (1 : BitVec 32).toNat = 1 from rfl]
      omega
    show (if BitVec.ofNat 32 userHiPi ≤ s.pallocIndex + 1 then _ else _ : BitVec 32).toNat = _
    rw [next_val]
    by_cases hend : s'.pallocIndex.val + 1 = userHiPi
    · rw [if_pos (by rw [BitVec.le_def, toNat_userHiPi, hsucc]; omega), if_pos hend, toNat_userLoPi]
    · rw [if_neg (by rw [BitVec.le_def, toNat_userHiPi, hsucc]; omega), if_neg hend, hsucc]
  have hfree : (t.pallocBody s).pallocFreeIndex =
      if m.available s'.pallocIndex then s.pallocIndex else s.pallocFreeIndex := by
    rw [← havail]
    rfl
  refine ⟨hnext, rfl, fun hnone => ?_, fun p hp => ?_⟩
  · rw [hfree]
    unfold PMem.pallocBody at hnone
    split at hnone
    · contradiction
    · rename_i hav
      rw [if_neg hav]
      exact hs.notFound hnone
  · rw [hfree]
    unfold PMem.pallocBody at hp
    split at hp
    · rename_i hav
      rw [if_pos hav, ← Option.some.inj hp]
      exact ⟨hs.index, h.ne_nps (havail.trans hav)⟩
    · rename_i hav
      rw [if_neg hav]
      exact hs.found p hp

theorem Models.palloc (h : t.Models m) :
    (∃ i : BitVec 32, InWindow i ∧ t.available i = true ∧
      t.palloc = some ({ t.atSetAllocated i 1 with lastPallocIndex := i }, i)) ∨
    ((∀ i, InWindow i → t.available i = false) ∧
      t.palloc = some ({ t with lastPallocIndex := BitVec.ofNat 32 userLoPi }, 0)) := by
  have hstart : t.SameVars ⟨t.lastPallocIndex, t.nps, true⟩ ⟨m.lastPallocIndex, none, true⟩ :=
    ⟨h.last, rfl, fun _ => rfl, fun _ hp => absurd hp (by simp)⟩
  have hrel : Option.Rel t.SameVars
      (Loops.runWhile t.pallocCond t.pallocBody userHiPi ⟨t.lastPallocIndex, t.nps, true⟩)
      (Loops.runWhile m.pallocCond m.pallocBody userHiPi ⟨m.lastPallocIndex, none, true⟩) :=
    Loops.runWhile_rel (R := t.SameVars) (fun _ _ hs => hs.cond h) (fun _ _ hs => hs.body h) _ _ _
      hstart
  -- the other loop ends, with a page or without
  have hspec := m.palloc_spec
  unfold PMem.palloc at hspec
  generalize Loops.runWhile m.pallocCond m.pallocBody userHiPi _ = ended at hrel hspec
  unfold AllocTable.palloc
  generalize Loops.runWhile t.pallocCond t.pallocBody userHiPi _ = ended' at hrel
  cases hrel with
  | none =>
    rcases hspec with ⟨_, _, hnone⟩ | ⟨_, hnone⟩
    · contradiction
    · contradiction
  | @some s s' hs =>
    rw [Option.map_some] at hspec ⊢
    cases hfree : s'.pallocFreeIndex with
    | none =>
      refine Or.inr ⟨fun i hi => ?_, by rw [if_pos (hs.notFound hfree)]⟩
      rw [hfree] at hspec
      rcases hspec with ⟨p, _, hp⟩ | ⟨hnone, _⟩
      · -- the page 0 is not in the window
        have hzero : (0 : Nat) = p.val := congrArg Prod.snd (Option.some.inj hp)
        have hlo := p.property.1
        exact absurd (hzero ▸ hlo) (by decide)
      · rw [h.available]
        exact hnone ⟨i.toNat, hi⟩
    | some p =>
      obtain ⟨hnat, hne⟩ := hs.found p hfree
      have hwindow : InWindow s.pallocFreeIndex := by
        unfold InWindow
        rw [hnat]
        exact p.property
      refine Or.inl ⟨s.pallocFreeIndex, hwindow, ?_, by rw [if_neg hne]⟩
      rw [hfree] at hspec
      rcases hspec with ⟨p', hav, hp⟩ | ⟨_, hp⟩
      · have hsame : p.val = p'.val := congrArg Prod.snd (Option.some.inj hp)
        rw [h.available, hnat, hsame]
        exact hav
      · have hzero : p.val = 0 := congrArg Prod.snd (Option.some.inj hp)
        have hlo := p.property.1
        exact absurd (hzero ▸ hlo) (by decide)

theorem Models.inWindow (h : t.Models m) : InWindow t.lastPallocIndex := by
  unfold InWindow
  rw [h.last]
  exact m.lastPallocIndex.property

/-! ## 7. Runs of the allocator -/

inductive PageAction
  | palloc
  | pfree (pfreeIndex : BitVec 32)

/-- A page index that is freed is one of the table. -/
def perform (t : AllocTable) : PageAction → Option AllocTable
  | .palloc => t.palloc.map Prod.fst
  | .pfree pfreeIndex => if pfreeIndex.toNat < 2 ^ 20 then some (t.pfree pfreeIndex) else none

def Reaches : List (AllocTable × PageAction) → AllocTable → Prop :=
  Transition.Run (fun t => ∃ mmap, t = pmemInit mmap) fun t a t' => t.perform a = some t'

theorem Models.perform (h : t.Models m) {a : PageAction} {t' : AllocTable}
    (hstep : t.perform a = some t') : ∃ m', t'.Models m' := by
  cases a with
  | palloc =>
    rcases h.palloc with ⟨i, hi, _, hpalloc⟩ | ⟨_, hpalloc⟩
    · rw [AllocTable.perform, hpalloc] at hstep
      obtain rfl := Option.some.inj hstep
      exact ⟨_, (h.atSetAllocated i 1).withLast (p := ⟨i.toNat, hi⟩) rfl⟩
    · rw [AllocTable.perform, hpalloc] at hstep
      obtain rfl := Option.some.inj hstep
      exact ⟨_, h.withLast (p := firstUserPage) toNat_userLoPi⟩
  | pfree i =>
    unfold AllocTable.perform at hstep
    dsimp only at hstep
    split at hstep
    · obtain rfl := Option.some.inj hstep
      exact ⟨_, h.pfree i⟩
    · contradiction

theorem reaches_models {past : List (AllocTable × PageAction)} (hrun : Reaches past t) :
    ∃ m, t.Models m := by
  apply hrun.invariant (I := fun t => ∃ m, t.Models m)
  · rintro t ⟨mmap, rfl⟩
    exact ⟨_, models_pmemInit mmap⟩
  · rintro t a t' ⟨m, h⟩ hstep
    exact h.perform hstep

/-- What a call of `palloc` does: a page that is free is marked, and nothing else; or there is none
and 0 is returned. -/
structure Allocates (t t' : AllocTable) (page : BitVec 32) : Prop where
  none_iff : page = 0 ↔ ∀ i, InWindow i → t.available i = false
  found : page ≠ 0 → InWindow page ∧ t.available page = true
  nps : t'.nps = t.nps
  perm : t'.perm = t.perm
  allocated : t'.allocated = if page = 0 then t.allocated else update t.allocated page 1

/-- **The page allocator.**  In every state of a run, and for every index of the window as the
remembered one, `palloc` ends and allocates. -/
theorem palloc_allocates {past : List (AllocTable × PageAction)} (hrun : Reaches past t) :
    InWindow t.lastPallocIndex ∧ ∀ last, InWindow last →
      ∃ t' page, ({ t with lastPallocIndex := last }).palloc = some (t', page) ∧
        t.Allocates t' page := by
  obtain ⟨m, hm⟩ := reaches_models hrun
  refine ⟨hm.inWindow, fun last hlast => ?_⟩
  have hlast' : ({ t with lastPallocIndex := last }).Models
      { m with lastPallocIndex := ⟨last.toNat, hlast⟩ } := hm.withLast rfl
  rcases hlast'.palloc with ⟨i, hi, hav, hpalloc⟩ | ⟨hnone, hpalloc⟩
  · have hne : i ≠ 0 := by
      rintro rfl
      exact absurd hi.1 (by decide)
    refine ⟨_, i, hpalloc, iff_of_false hne fun hall => ?_, fun _ => ⟨hi, hav⟩, rfl, rfl, ?_⟩
    · exact absurd ((hall i hi).symm.trans hav) Bool.false_ne_true
    · rw [if_neg hne]
      rfl
  · exact ⟨_, 0, hpalloc, iff_of_true rfl hnone, fun hne => absurd rfl hne, rfl, rfl, rfl⟩

/-- Two usable ranges and a reserved one between them; none begins or ends with a page, and each
usable one contains one whole page. -/
def unalignedMap : List MemRange :=
  [⟨0x40000800, 0x1900, true⟩, ⟨0x40002100, 0x700, false⟩, ⟨0x40002800, 0x1c00, true⟩]

theorem available_unalignedMap (h : t.Models (MCertiKOS.pmemInit unalignedMap)) :
    (InWindow 0x40001 ∧ t.available 0x40001 = true) ∧
      InWindow 0x40003 ∧ t.available 0x40003 = true := by
  rw [h.available, h.available]
  unfold InWindow
  exact ⟨⟨by decide, by decide +kernel⟩, by decide, by decide +kernel⟩

theorem Allocates.ne_zero {t' : AllocTable} {page i : BitVec 32} (h : t.Allocates t' page)
    (hi : InWindow i) (hav : t.available i = true) : page ≠ 0 := fun h0 =>
  absurd ((h.none_iff.mp h0 i hi).symm.trans hav) Bool.false_ne_true

/-- The first call takes one of the two pages, the second one the other. -/
theorem palloc_allocates_twice : ∃ past t first, Reaches past t ∧ past.length = 1 ∧ first ≠ 0 ∧
    t.atIsAllocated first = true ∧
    ∃ t' second, t.palloc = some (t', second) ∧ second ≠ 0 ∧ second ≠ first := by
  obtain ⟨t₀, ht₀⟩ : ∃ t₀, t₀ = pmemInit unalignedMap := ⟨_, rfl⟩
  have hmodels : t₀.Models (MCertiKOS.pmemInit unalignedMap) := by
    rw [ht₀]
    exact models_pmemInit _
  obtain ⟨⟨hi, hav⟩, hi', hav'⟩ := available_unalignedMap hmodels
  have hstart : Reaches [] t₀ := Transition.Run.start ⟨_, ht₀⟩
  obtain ⟨hlast, hcall⟩ := palloc_allocates hstart
  obtain ⟨t, first, hfirst, halloc⟩ := hcall _ hlast
  have hne : first ≠ 0 := halloc.ne_zero hi hav
  have hallocated := halloc.allocated
  rw [if_neg hne] at hallocated
  have hmarked : t.atIsAllocated first = true := by
    unfold atIsAllocated
    rw [hallocated, update_self]
    rfl
  have hrun : Reaches [(t₀, .palloc)] t := by
    refine Transition.Run.next hstart ?_
    show t₀.palloc.map Prod.fst = some t
    rw [show t₀.palloc = some (t, first) from hfirst]
    rfl
  obtain ⟨hlast', hcall'⟩ := palloc_allocates hrun
  obtain ⟨t', second, hsecond, halloc'⟩ := hcall' _ hlast'
  have hleft : ∀ i, t₀.available i = true → i ≠ first → t.available i = true := by
    intro i hav hother
    unfold available atIsNorm atIsAllocated
    rw [halloc.perm, hallocated, update_of_ne hother]
    exact hav
  have hne' : second ≠ 0 := by
    by_cases hone : 0x40001 = first
    · exact halloc'.ne_zero hi' (hleft _ hav' (hone ▸ by decide))
    · exact halloc'.ne_zero hi (hleft _ hav hone)
  refine ⟨_, t, first, hrun, rfl, hne, hmarked, t', second, hsecond, hne', ?_⟩
  rintro rfl
  have hfree := (halloc'.found hne').2
  unfold available at hfree
  rw [hmarked, Bool.not_true, Bool.and_false] at hfree
  contradiction

end AllocTable

/-! ## 8. Classification of the pages -/

namespace MemRange

def Contains (r : MemRange) (a : Nat) : Prop :=
  r.start.toNat ≤ a ∧ a < r.start.toNat + r.len.toNat

def ContainsPage (r : MemRange) (i : Nat) : Prop :=
  ∀ a, i * pageSize ≤ a → a < (i + 1) * pageSize → r.Contains a

theorem containsPage_iff {r : MemRange} {i : Nat} :
    r.ContainsPage i ↔ r.start.toNat ≤ i * pageSize ∧
      (i + 1) * pageSize ≤ r.start.toNat + r.len.toNat := by
  have hsize : pageSize = 4096 := rfl
  rw [hsize]
  constructor
  · intro h
    have hfirst := h (i * 4096) (by rw [hsize]) (by rw [hsize]; omega)
    have hlast := h ((i + 1) * 4096 - 1) (by rw [hsize]; omega) (by rw [hsize]; omega)
    unfold Contains at hfirst hlast
    omega
  · intro h a hlo hhi
    rw [hsize] at hlo hhi
    unfold Contains
    omega

end MemRange

namespace AllocTable

def highestEnd (mmap : List MemRange) : Nat :=
  mmap.foldl (fun highest r => max highest (r.start.toNat + r.len.toNat)) 0

structure Classified (mmap : List MemRange) (nps i perm : Nat) : Prop where
  normal : perm = 2 ↔ (userLoPi ≤ i ∧ i < userHiPi) ∧ ∃ r ∈ mmap, r.usable = true ∧ r.ContainsPage i
  kernel : perm = 1 ↔ i < nps ∧ ¬ (userLoPi ≤ i ∧ i < userHiPi)
  other : perm ≠ 2 → perm ≠ 1 → perm = 0

section Ends

variable {mmap : List MemRange} (hends : ∀ r ∈ mmap, r.start.toNat + r.len.toNat ≤ 0xffffffff)

include hends

theorem toNat_end {r : MemRange} (hr : r ∈ mmap) :
    (r.start + r.len).toNat = r.start.toNat + r.len.toNat := by
  have hend := hends r hr
  rw [BitVec.toNat_add]
  omega

theorem numPages_eq : numPages mmap = highestEnd mmap / pageSize := by
  unfold numPages highestEnd
  congr 1
  apply List.foldl_ext
  intro highest r hr
  rw [toNat_end hends hr]

theorem lt_numPages {r : MemRange} (hr : r ∈ mmap) {i : Nat} (hi : r.ContainsPage i) :
    i < numPages mmap := by
  have hmax : ∀ (entries : List MemRange) (highest : Nat), highest ≤ entries.foldl
      (fun highest r => max highest (r.start.toNat + r.len.toNat)) highest ∧
      ∀ r ∈ entries, r.start.toNat + r.len.toNat ≤ entries.foldl
        (fun highest r => max highest (r.start.toNat + r.len.toNat)) highest := by
    intro entries
    induction entries with
    | nil => exact fun highest => ⟨le_rfl, fun r hr => absurd hr List.not_mem_nil⟩
    | cons e entries ih =>
      intro highest
      obtain ⟨hle, hall⟩ := ih (max highest (e.start.toNat + e.len.toNat))
      rw [List.foldl_cons]
      refine ⟨(Nat.le_max_left ..).trans hle, fun r hr => ?_⟩
      rcases List.mem_cons.mp hr with rfl | hr
      · exact (Nat.le_max_right ..).trans hle
      · exact hall r hr
  have hle : r.start.toNat + r.len.toNat ≤ highestEnd mmap := (hmax mmap 0).2 r hr
  have hpage := (MemRange.containsPage_iff.mp hi).2
  have hsize : pageSize = 4096 := rfl
  rw [numPages_eq hends]
  rw [hsize] at hpage ⊢
  omega

theorem pagePerm_eq_two_iff
    (hdisjoint : mmap.Pairwise fun r r' => ∀ a, ¬ (r.Contains a ∧ r'.Contains a)) (i : Nat) :
    pagePerm mmap i = 2 ↔
      (userLoPi ≤ i ∧ i < userHiPi) ∧ ∃ r ∈ mmap, r.usable = true ∧ r.ContainsPage i := by
  have htest : ∀ r ∈ mmap, (r.start.toNat ≤ i * pageSize ∧
      (i + 1) * pageSize ≤ (r.start + r.len).toNat) ↔ r.ContainsPage i := by
    intro r hr
    rw [MemRange.containsPage_iff, toNat_end hends hr]
  unfold pagePerm
  by_cases hwindow : i < userLoPi ∨ userHiPi ≤ i
  · rw [if_pos hwindow]
    exact iff_of_false (by decide) fun h => by omega
  · rw [if_neg hwindow]
    cases hfind : mmap.find? fun r => decide (r.start.toNat ≤ i * pageSize ∧
        (i + 1) * pageSize ≤ (r.start + r.len).toNat) with
    | none =>
      refine iff_of_false (by decide) fun ⟨_, r, hr, _, hpage⟩ => ?_
      have hnot := List.find?_eq_none.mp hfind r hr
      exact hnot (decide_eq_true ((htest r hr).mpr hpage))
    | some r =>
      have hr := List.mem_of_find?_eq_some hfind
      have htested := List.find?_some hfind
      have hpage : r.ContainsPage i := (htest r hr).mp (of_decide_eq_true htested)
      -- two entries with the page would share its first address
      have hunique : ∀ r' ∈ mmap, r'.ContainsPage i → r = r' := by
        intro r' hr' hpage'
        by_contra hne
        have : Std.Symm fun r r' : MemRange => ∀ a, ¬ (r.Contains a ∧ r'.Contains a) :=
          ⟨fun _ _ h a hboth => h a hboth.symm⟩
        have hfirst : i * pageSize < (i + 1) * pageSize := by
          rw [Nat.add_mul]
          exact Nat.lt_add_of_pos_right (by decide)
        exact hdisjoint.forall hr hr' hne (i * pageSize)
          ⟨hpage _ le_rfl hfirst, hpage' _ le_rfl hfirst⟩
      constructor
      · intro htwo
        refine ⟨by omega, r, hr, ?_, hpage⟩
        by_contra husable
        dsimp only at htwo
        rw [if_neg husable] at htwo
        contradiction
      · rintro ⟨_, r', hr', husable, hpage'⟩
        obtain rfl := hunique r' hr' hpage'
        dsimp only
        rw [if_pos husable]

/-- **Page classification.**  For pairwise disjoint ranges that end below 4G, `pmem_init` counts the
pages below the highest end and gives every page of the table the permission it should have. -/
theorem page_classification
    (hdisjoint : mmap.Pairwise fun r r' => ∀ a, ¬ (r.Contains a ∧ r'.Contains a)) :
    (pmemInit mmap).nps.toNat = highestEnd mmap / pageSize ∧
      ∀ i < 2 ^ 20, Classified mmap (pmemInit mmap).nps.toNat i
          ((pmemInit mmap).perm (BitVec.ofNat 32 i)).toNat ∧
        (pmemInit mmap).allocated (BitVec.ofNat 32 i) = 0 := by
  have hmodels := models_pmemInit mmap
  have hnps : (pmemInit mmap).nps.toNat = numPages mmap := hmodels.nps
  refine ⟨hnps.trans (numPages_eq hends), fun i hi => ?_⟩
  have hnat : (BitVec.ofNat 32 i).toNat = i := by
    rw [BitVec.toNat_ofNat]
    omega
  have hperm := hmodels.perm (BitVec.ofNat 32 i)
  have hallocated := hmodels.allocated (BitVec.ofNat 32 i)
  rw [hnat] at hperm hallocated
  refine ⟨?_, BitVec.eq_of_toNat_eq hallocated⟩
  rw [hperm, hnps]
  show Classified mmap _ i (initialPerm mmap i)
  have htwo := pagePerm_eq_two_iff hends hdisjoint i
  have hone : pagePerm mmap i = 1 ↔ ¬ (userLoPi ≤ i ∧ i < userHiPi) := by
    unfold pagePerm
    split
    · exact iff_of_true rfl (by omega)
    · refine iff_of_false ?_ (by omega)
      split
      · split <;> decide
      · decide
  unfold initialPerm
  by_cases hlt : i < numPages mmap
  · rw [if_pos hlt]
    refine ⟨htwo, hone.trans (iff_and_self.mpr fun _ => hlt), fun h2 h1 => ?_⟩
    have hle := pagePerm_le mmap i
    omega
  · rw [if_neg hlt]
    refine ⟨iff_of_false (by decide) ?_, iff_of_false (by decide) fun h => hlt h.1, fun _ _ => rfl⟩
    rintro ⟨_, r, hr, _, hpage⟩
    exact hlt (lt_numPages hends hr hpage)

end Ends

theorem disjoint_unalignedMap :
    unalignedMap.Pairwise fun r r' => ∀ a, ¬ (r.Contains a ∧ r'.Contains a) := by
  have hends : unalignedMap.Pairwise fun r r' => r.start.toNat + r.len.toNat ≤ r'.start.toNat := by
    decide
  refine hends.imp fun {r r'} hle a hboth => ?_
  unfold MemRange.Contains at hboth
  omega

/-- The whole page inside a usable range is normal; a page on the border of two ranges is not, although
one of them is usable. -/
theorem page_classification_unaligned : ∃ t, t = pmemInit unalignedMap ∧ t.nps.toNat = 0x40004 ∧
    (t.perm (BitVec.ofNat 32 0x40001)).toNat = 2 ∧ (t.perm (BitVec.ofNat 32 0x40002)).toNat = 0 ∧
    (t.perm (BitVec.ofNat 32 0x3ffff)).toNat = 1 := by
  obtain ⟨hnps, hpages⟩ := page_classification (by decide) disjoint_unalignedMap
  obtain ⟨t, ht⟩ : ∃ t, t = pmemInit unalignedMap := ⟨_, rfl⟩
  rw [← ht] at hnps hpages
  have hpage : ∀ i, (∃ r ∈ unalignedMap, r.usable = true ∧ r.ContainsPage i) ↔
      ∃ r ∈ unalignedMap, r.usable = true ∧ r.start.toNat ≤ i * pageSize ∧
        (i + 1) * pageSize ≤ r.start.toNat + r.len.toNat := by
    simp only [MemRange.containsPage_iff, implies_true]
  have hnps : t.nps.toNat = 0x40004 := hnps.trans (by decide +kernel)
  refine ⟨t, ht, hnps, ?_, ?_, ?_⟩
  · have hclass := (hpages 0x40001 (by decide)).1
    exact hclass.normal.mpr ⟨by decide, (hpage _).mpr (by decide)⟩
  · have hclass := (hpages 0x40002 (by decide)).1
    refine hclass.other (fun h2 => ?_) fun h1 => ?_
    · exact absurd ((hpage _).mp (hclass.normal.mp h2).2) (by decide)
    · exact (hclass.kernel.mp h1).2 (by decide)
  · have hclass := (hpages 0x3ffff (by decide)).1
    rw [hnps] at hclass
    exact hclass.kernel.mpr (by decide)

end AllocTable

end MCertiKOS
