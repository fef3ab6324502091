import Mathlib.Data.List.Chain
import DistributedSystems.MCertiKOS.Pages

/-!
# The physical memory map (`kern/dev/mboot.c`)

The singly linked lists of slots are lists.  The entries of the boot loader are inserted by their
start; then one pass over the list joins an entry with the next one where they overlap or touch and
have one type.  After it has joined two entries the pass goes on with the entry behind them, so a
third one that overlaps stays.
-/

namespace MCertiKOS

/-! ## 1. Slots -/

/-- `mboot_mmap_t`; its `size` is not read. -/
structure MbootMmap where
  baseAddrLow : BitVec 32
  baseAddrHigh : BitVec 32
  lengthLow : BitVec 32
  lengthHigh : BitVec 32
  type : BitVec 32
  deriving DecidableEq

structure Slot where
  start : BitVec 32
  stop : BitVec 32
  type : BitVec 32
  deriving DecidableEq

def memRam : BitVec 32 := 1

/-- `PMMAP_SUBLIST_NR`: `MEM_RAM`, `MEM_RESERVED`, `MEM_ACPI`, `MEM_NVS`. -/
def sublistNr (type : BitVec 32) : Option (Fin 4) :=
  if type = memRam then some 0
  else if type = 2 then some 1
  else if type = 3 then some 2
  else if type = 4 then some 3
  else none

/-- The slot of an entry below 4G: an end beyond the address space is cut off. -/
def clampEntry (p : MbootMmap) : Option Slot :=
  if p.baseAddrHigh ≠ 0 then none
  else
    let start := p.baseAddrLow
    let stop :=
      if p.lengthHigh ≠ 0 ∨ 0xffffffff - start ≤ p.lengthLow then 0xffffffff
      else start + p.lengthLow
    some ⟨start, stop, p.type⟩

/-! ## 2. `pmmap_insert` and `pmmap_merge` -/

/-- The loop of `pmmap_insert`: behind the last slot that does not start later. -/
def insertSlot (new : Slot) : List Slot → List Slot
  | [] => [new]
  | slot :: slots =>
    if new.start < slot.start then new :: slot :: slots else slot :: insertSlot new slots

def insertSlots (slots : List Slot) : List Slot :=
  slots.foldl (fun list new => insertSlot new list) []

/-- `pmmap_slots` has 128 elements. -/
def pmmapInsert (list : List Slot) (new : Slot) : Option (List Slot) :=
  if list.length = 128 then none else some (insertSlot new list)

def mergeable (slot next : Slot) : Bool :=
  slot.start ≤ next.start ∧ next.start ≤ slot.stop ∧ slot.type = next.type

def joined (slot next : Slot) : Slot :=
  { slot with stop := if slot.stop < next.stop then next.stop else slot.stop }

/-- The first loop of `pmmap_merge`. -/
def mergeSlots : List Slot → List Slot
  | [] => []
  | [slot] => [slot]
  | slot :: next :: slots =>
    if mergeable slot next then joined slot next :: mergeSlots slots
    else slot :: mergeSlots (next :: slots)

/-! ## 3. `pmmap_init` -/

structure Pmmap where
  list : List Slot
  sublist : Fin 4 → List Slot
  maxUsableMemory : BitVec 32
  nentries : Nat
  memNpages : BitVec 32

/-- The second loop of `pmmap_merge`: every slot goes to the end of the list of its type. -/
def fillSublists (sublist : Fin 4 → List Slot) (slot : Slot) : Option (Fin 4 → List Slot) :=
  (sublistNr slot.type).map fun nr => Function.update sublist nr (sublist nr ++ [slot])

def pmmapInit (entries : List MbootMmap) : Option Pmmap := do
  let inserted ← (entries.filterMap clampEntry).foldlM pmmapInsert []
  let list := mergeSlots inserted
  let sublist ← list.foldlM fillSublists fun _ => []
  let maxUsableMemory := ((sublist 0).getLast?.map Slot.stop).getD 0
  some
    { list := list
      sublist := sublist
      maxUsableMemory := maxUsableMemory
      nentries := list.length
      memNpages := (maxUsableMemory - maxUsableMemory % BitVec.ofNat 32 pageSize) /
        BitVec.ofNat 32 pageSize }

namespace Pmmap

def getSize (m : Pmmap) : Nat := m.nentries

def getMms (m : Pmmap) (idx : Nat) : BitVec 32 := (m.list[idx]?.map Slot.start).getD 0

def getMml (m : Pmmap) (idx : Nat) : BitVec 32 :=
  (m.list[idx]?.map fun slot => slot.stop - slot.start).getD 0

def isUsable (m : Pmmap) (idx : Nat) : Bool := m.list[idx]?.any fun slot => slot.type = memRam

def memRanges (m : Pmmap) : List MemRange :=
  (List.range m.getSize).map fun idx => ⟨m.getMms idx, m.getMml idx, m.isUsable idx⟩

end Pmmap

/-! ## 4. What a merged map is -/

def Covers (slots : List Slot) (type : BitVec 32) (a : Nat) : Prop :=
  ∃ slot ∈ slots, slot.type = type ∧ slot.start.toNat ≤ a ∧ a < slot.stop.toNat

def Touch (slot slot' : Slot) : Prop :=
  slot.start.toNat ≤ slot'.stop.toNat ∧ slot'.start.toNat ≤ slot.stop.toNat

structure Merged (entries : List MbootMmap) (list : List Slot) : Prop where
  sorted : list.Pairwise fun slot slot' => slot.start.toNat ≤ slot'.start.toNat
  covers : ∀ type a, Covers list type a ↔ Covers (entries.filterMap clampEntry) type a
  separated : list.IsChain fun slot slot' => slot.type = slot'.type → ¬ Touch slot slot'

/-- Three slots of one type of which the second starts in or right behind the first, and the third in
or right behind one of the two. -/
def chained (slot next third : Slot) : Bool :=
  slot.type = next.type ∧ next.type = third.type ∧ next.start ≤ slot.stop ∧
    (third.start ≤ slot.stop ∨ third.start ≤ next.stop)

/-- No three consecutive slots are chained. -/
def unchained : List Slot → Bool
  | slot :: next :: third :: slots => !chained slot next third && unchained (next :: third :: slots)
  | _ => true

/-! ## 5. Insertion -/

def Slot.Wf (slot : Slot) : Prop := slot.start.toNat ≤ slot.stop.toNat

variable {slots : List Slot} {slot : Slot}

theorem wf_of_clampEntry {p : MbootMmap} (h : clampEntry p = some slot) : slot.Wf := by
  unfold clampEntry at h
  split at h
  · contradiction
  · have hslot := Option.some.inj h
    have hlt := p.baseAddrLow.isLt
    unfold Slot.Wf
    rw [← hslot]
    dsimp only
    split
    · show _ ≤ 0xffffffff
      omega
    · rename_i hfits
      have hlen : ¬ (0xffffffff - p.baseAddrLow).toNat ≤ p.lengthLow.toNat :=
        fun hle => hfits (Or.inr hle)
      rw [BitVec.toNat_sub, show (0xffffffff : BitVec 32).toNat = 0xffffffff from rfl] at hlen
      rw [BitVec.toNat_add]
      omega

theorem mem_insertSlot {new : Slot} : slot ∈ insertSlot new slots ↔ slot = new ∨ slot ∈ slots := by
  induction slots with
  | nil => simp [insertSlot]
  | cons first slots ih =>
    unfold insertSlot
    split
    · rw [List.mem_cons]
    · rw [List.mem_cons, ih, List.mem_cons]
      tauto

abbrev SortedSlots (slots : List Slot) : Prop :=
  slots.Pairwise fun slot slot' => slot.start.toNat ≤ slot'.start.toNat

theorem sorted_insertSlot {new : Slot} (h : SortedSlots slots) :
    SortedSlots (insertSlot new slots) := by
  induction slots with
  | nil => exact List.pairwise_singleton _ _
  | cons first slots ih =>
    obtain ⟨hfirst, hslots⟩ := List.pairwise_cons.mp h
    unfold insertSlot
    split
    · rename_i hlt
      have hle : new.start.toNat ≤ first.start.toNat := Nat.le_of_lt hlt
      refine List.pairwise_cons.mpr ⟨fun slot hslot => ?_, h⟩
      rcases List.mem_cons.mp hslot with rfl | hslot
      · exact hle
      · exact hle.trans (hfirst slot hslot)
    · rename_i hge
      refine List.pairwise_cons.mpr ⟨fun slot hslot => ?_, ih hslots⟩
      rcases mem_insertSlot.mp hslot with rfl | hslot
      · exact Nat.le_of_not_lt hge
      · exact hfirst slot hslot

theorem foldl_insertSlot (slots : List Slot) : ∀ list, SortedSlots list →
    SortedSlots (slots.foldl (fun list new => insertSlot new list) list) ∧
      ∀ slot, slot ∈ slots.foldl (fun list new => insertSlot new list) list ↔
        slot ∈ list ∨ slot ∈ slots := by
  induction slots with
  | nil => exact fun list h => ⟨h, fun slot => by simp⟩
  | cons new slots ih =>
    intro list h
    obtain ⟨hsorted, hmem⟩ := ih (insertSlot new list) (sorted_insertSlot h)
    refine ⟨hsorted, fun slot => ?_⟩
    rw [List.foldl_cons, hmem, mem_insertSlot, List.mem_cons]
    tauto

theorem sorted_insertSlots (slots : List Slot) : SortedSlots (insertSlots slots) :=
  (foldl_insertSlot slots [] List.Pairwise.nil).1

theorem mem_insertSlots : slot ∈ insertSlots slots ↔ slot ∈ slots := by
  unfold insertSlots
  rw [(foldl_insertSlot slots [] List.Pairwise.nil).2]
  simp

theorem length_insertSlot (new : Slot) (slots : List Slot) :
    (insertSlot new slots).length = slots.length + 1 := by
  induction slots with
  | nil => rfl
  | cons first slots ih =>
    unfold insertSlot
    split
    · rfl
    · rw [List.length_cons, ih, List.length_cons]

theorem foldlM_pmmapInsert (slots : List Slot) : ∀ list, list.length + slots.length ≤ 128 →
    slots.foldlM pmmapInsert list =
      some (slots.foldl (fun list new => insertSlot new list) list) := by
  induction slots with
  | nil => exact fun _ _ => rfl
  | cons new slots ih =>
    intro list hlength
    rw [List.length_cons] at hlength
    rw [List.foldlM_cons, List.foldl_cons]
    unfold pmmapInsert
    rw [if_neg (by omega)]
    apply ih
    rw [length_insertSlot]
    omega

/-! ## 6. The merge pass -/

theorem mergeable_iff {next : Slot} : mergeable slot next = true ↔
    slot.start.toNat ≤ next.start.toNat ∧ next.start.toNat ≤ slot.stop.toNat ∧
      slot.type = next.type := by
  unfold mergeable
  rw [decide_eq_true_iff, BitVec.le_def, BitVec.le_def]

theorem toNat_joined_stop (slot next : Slot) :
    (joined slot next).stop.toNat = max slot.stop.toNat next.stop.toNat := by
  unfold joined
  split
  · rename_i hlt
    rw [Nat.max_eq_right (Nat.le_of_lt hlt)]
  · rename_i hge
    rw [Nat.max_eq_left (Nat.le_of_not_lt hge)]

theorem mergeSlots_head {first : Slot} (h : first ∈ (mergeSlots slots).head?) :
    ∃ slot ∈ slots.head?, first.start = slot.start ∧ first.type = slot.type := by
  match slots with
  | [] => contradiction
  | [slot] =>
    obtain rfl := Option.some.inj h
    exact ⟨slot, rfl, rfl, rfl⟩
  | slot :: next :: slots =>
    refine ⟨slot, rfl, ?_⟩
    unfold mergeSlots at h
    split at h
    · obtain rfl := Option.some.inj h
      exact ⟨rfl, rfl⟩
    · obtain rfl := Option.some.inj h
      exact ⟨rfl, rfl⟩

theorem exists_mergeSlots_head (h : slot ∈ slots.head?) :
    ∃ first ∈ (mergeSlots slots).head?, first.start = slot.start ∧ first.type = slot.type := by
  match slots with
  | [] => contradiction
  | [only] =>
    obtain rfl := Option.some.inj h
    exact ⟨only, rfl, rfl, rfl⟩
  | only :: next :: slots =>
    obtain rfl := Option.some.inj h
    unfold mergeSlots
    split
    · exact ⟨_, rfl, rfl, rfl⟩
    · exact ⟨_, rfl, rfl, rfl⟩

theorem mergeable_congr {next next' : Slot} (hstart : next.start = next'.start)
    (htype : next.type = next'.type) : mergeable slot next = mergeable slot next' := by
  unfold mergeable
  rw [hstart, htype]

theorem forall_mergeSlots_head :
    (∀ first ∈ (mergeSlots slots).head?, mergeable slot first = false) ↔
      slots.head?.all (fun third => !mergeable slot third) = true := by
  rw [Option.all_eq_true]
  constructor
  · intro h third hthird
    obtain ⟨first, hfirst, hstart, htype⟩ := exists_mergeSlots_head hthird
    rw [← mergeable_congr hstart htype, h first hfirst]
    rfl
  · intro h first hfirst
    obtain ⟨third, hthird, hstart, htype⟩ := mergeSlots_head hfirst
    rw [mergeable_congr hstart htype]
    simpa using h third hthird

theorem chained_iff {next third : Slot} : chained slot next third = true ↔
    (next.start.toNat ≤ slot.stop.toNat ∧ slot.type = next.type) ∧
      (third.start.toNat ≤ slot.stop.toNat ∨ third.start.toNat ≤ next.stop.toNat) ∧
      next.type = third.type := by
  unfold chained
  rw [decide_eq_true_iff, BitVec.le_def, BitVec.le_def, BitVec.le_def]
  tauto

theorem chained_eq_mergeable {next third : Slot} (hmerge : mergeable slot next = true)
    (hle : slot.start.toNat ≤ third.start.toNat) :
    chained slot next third = mergeable (joined slot next) third := by
  obtain ⟨_, htouch, htype⟩ := mergeable_iff.mp hmerge
  rw [Bool.eq_iff_iff, chained_iff, mergeable_iff, toNat_joined_stop]
  show _ ↔ slot.start.toNat ≤ _ ∧ _ ∧ slot.type = _
  rw [htype]
  constructor
  · rintro ⟨_, hthird, htype'⟩
    exact ⟨hle, by omega, htype'⟩
  · rintro ⟨_, hthird, htype'⟩
    exact ⟨⟨htouch, rfl⟩, by omega, htype'⟩

/-- A slot that another one has joined is the first of no three that are chained, unless it was the
second of such three. -/
theorem unchained_next {next : Slot} (hmerge : mergeable slot next = true)
    (hhead : slots.head?.all (fun third => !chained slot next third) = true) :
    unchained (next :: slots) = unchained slots := by
  match slots with
  | [] => rfl
  | [_] => rfl
  | third :: fourth :: rest =>
    show (!chained next third fourth && _) = _
    have hfree : chained next third fourth = false := by
      rw [← Bool.not_eq_true]
      intro hc
      obtain ⟨_, htouch, htype⟩ := mergeable_iff.mp hmerge
      obtain ⟨⟨htouch', htype'⟩, _⟩ := chained_iff.mp hc
      have hfirst := chained_iff.mpr ⟨⟨htouch, htype⟩, Or.inr htouch', htype'⟩
      simp [hfirst] at hhead
    rw [hfree]
    rfl

theorem isChain_mergeSlots_iff (hsorted : SortedSlots slots) :
    (mergeSlots slots).IsChain (fun slot next => mergeable slot next = false) ↔
      unchained slots = true := by
  induction slots using mergeSlots.induct with
  | case1 => exact iff_of_true List.IsChain.nil rfl
  | case2 slot => exact iff_of_true (List.IsChain.singleton _) rfl
  | case3 slot next slots hmerge ih =>
    obtain ⟨hslot, hrest⟩ := List.pairwise_cons.mp hsorted
    have hthird : slots.head?.all (fun third => !mergeable (joined slot next) third) =
        slots.head?.all (fun third => !chained slot next third) := by
      cases slots with
      | nil => rfl
      | cons third slots =>
        show (!_) = (!_)
        rw [chained_eq_mergeable hmerge (hslot third (by simp))]
    have hsplit : unchained (slot :: next :: slots) =
        (slots.head?.all (fun third => !chained slot next third) && unchained (next :: slots)) := by
      cases slots with
      | nil => rfl
      | cons third slots => rfl
    unfold mergeSlots
    rw [if_pos hmerge, List.isChain_cons, ih (List.pairwise_cons.mp hrest).2, forall_mergeSlots_head,
      hthird, hsplit, Bool.and_eq_true]
    exact and_congr_right fun hhead => by rw [unchained_next hmerge hhead]
  | case4 slot next slots hmerge ih =>
    obtain ⟨hslot, hrest⟩ := List.pairwise_cons.mp hsorted
    have hsplit : unchained (slot :: next :: slots) = unchained (next :: slots) := by
      cases slots with
      | nil => rfl
      | cons third slots =>
        have hfree : chained slot next third = false := by
          rw [← Bool.not_eq_true]
          intro hc
          obtain ⟨⟨htouch, htype⟩, _⟩ := chained_iff.mp hc
          exact hmerge (mergeable_iff.mpr ⟨hslot next List.mem_cons_self, htouch, htype⟩)
        show (!chained slot next third && _) = _
        rw [hfree]
        rfl
    unfold mergeSlots
    rw [if_neg hmerge, List.isChain_cons, ih hrest, forall_mergeSlots_head, hsplit]
    exact and_iff_right (by simpa using hmerge)

theorem sorted_mergeSlots (h : SortedSlots slots) :
    SortedSlots (mergeSlots slots) ∧
      ∀ slot ∈ mergeSlots slots, ∃ slot' ∈ slots, slot'.start = slot.start := by
  induction slots using mergeSlots.induct with
  | case1 => exact ⟨List.Pairwise.nil, fun _ h => absurd h List.not_mem_nil⟩
  | case2 slot => exact ⟨h, fun slot' h => ⟨slot', h, rfl⟩⟩
  | case3 slot next slots hmerge ih =>
    obtain ⟨hslot, hrest⟩ := List.pairwise_cons.mp h
    obtain ⟨hsorted, hstarts⟩ := ih (List.pairwise_cons.mp hrest).2
    unfold mergeSlots
    rw [if_pos hmerge]
    refine ⟨List.pairwise_cons.mpr ⟨fun slot' hmem => ?_, hsorted⟩, fun slot' hmem => ?_⟩
    · obtain ⟨old, hold, hstart⟩ := hstarts slot' hmem
      rw [← hstart]
      exact hslot old (List.mem_cons_of_mem _ hold)
    · rcases List.mem_cons.mp hmem with rfl | hmem
      · exact ⟨slot, List.mem_cons_self, rfl⟩
      · obtain ⟨old, hold, hstart⟩ := hstarts slot' hmem
        exact ⟨old, List.mem_cons_of_mem _ (List.mem_cons_of_mem _ hold), hstart⟩
  | case4 slot next slots hmerge ih =>
    obtain ⟨hslot, hrest⟩ := List.pairwise_cons.mp h
    obtain ⟨hsorted, hstarts⟩ := ih hrest
    unfold mergeSlots
    rw [if_neg hmerge]
    refine ⟨List.pairwise_cons.mpr ⟨fun slot' hmem => ?_, hsorted⟩, fun slot' hmem => ?_⟩
    · obtain ⟨old, hold, hstart⟩ := hstarts slot' hmem
      rw [← hstart]
      exact hslot old hold
    · rcases List.mem_cons.mp hmem with rfl | hmem
      · exact ⟨slot', List.mem_cons_self, rfl⟩
      · obtain ⟨old, hold, hstart⟩ := hstarts slot' hmem
        exact ⟨old, List.mem_cons_of_mem _ hold, hstart⟩

theorem covers_cons {type : BitVec 32} {a : Nat} :
    Covers (slot :: slots) type a ↔
      (slot.type = type ∧ slot.start.toNat ≤ a ∧ a < slot.stop.toNat) ∨ Covers slots type a := by
  constructor
  · rintro ⟨slot', hmem, h⟩
    rcases List.mem_cons.mp hmem with rfl | hmem
    · exact Or.inl h
    · exact Or.inr ⟨slot', hmem, h⟩
  · rintro (h | ⟨slot', hmem, h⟩)
    · exact ⟨slot, List.mem_cons_self, h⟩
    · exact ⟨slot', List.mem_cons_of_mem _ hmem, h⟩

theorem covers_insertSlots {type : BitVec 32} {a : Nat} :
    Covers (insertSlots slots) type a ↔ Covers slots type a := by
  unfold Covers
  simp only [mem_insertSlots]

theorem covers_mergeSlots (slots : List Slot) (type : BitVec 32) (a : Nat) :
    Covers (mergeSlots slots) type a ↔ Covers slots type a := by
  induction slots using mergeSlots.induct with
  | case1 => rfl
  | case2 slot => rfl
  | case3 slot next slots hmerge ih =>
    obtain ⟨hstart, htouch, htype⟩ := mergeable_iff.mp hmerge
    unfold mergeSlots
    rw [if_pos hmerge, covers_cons, covers_cons, covers_cons, ih, toNat_joined_stop, ← or_assoc]
    apply or_congr_left
    show slot.type = type ∧ slot.start.toNat ≤ a ∧ _ ↔ _
    -- the two ranges have no gap between them
    rw [← htype, ← and_or_left]
    apply and_congr_right'
    omega
  | case4 slot next slots hmerge ih =>
    unfold mergeSlots
    rw [if_neg hmerge, covers_cons, covers_cons, ih]

theorem wf_mergeSlots (h : ∀ slot ∈ slots, slot.Wf) :
    ∀ slot ∈ mergeSlots slots, slot.Wf ∧ ∃ slot' ∈ slots, slot'.type = slot.type := by
  induction slots using mergeSlots.induct with
  | case1 => exact fun _ hmem => absurd hmem List.not_mem_nil
  | case2 slot => exact fun slot' hmem => ⟨h slot' hmem, slot', hmem, rfl⟩
  | case3 slot next slots hmerge ih =>
    intro slot' hmem
    unfold mergeSlots at hmem
    rw [if_pos hmerge] at hmem
    rcases List.mem_cons.mp hmem with rfl | hmem
    · have hwf : slot.start.toNat ≤ slot.stop.toNat := h slot List.mem_cons_self
      refine ⟨?_, slot, List.mem_cons_self, rfl⟩
      show slot.start.toNat ≤ _
      rw [toNat_joined_stop]
      omega
    · obtain ⟨hwf, old, hold, htype⟩ := ih (fun s hs =>
        h s (List.mem_cons_of_mem _ (List.mem_cons_of_mem _ hs))) slot' hmem
      exact ⟨hwf, old, List.mem_cons_of_mem _ (List.mem_cons_of_mem _ hold), htype⟩
  | case4 slot next slots hmerge ih =>
    intro slot' hmem
    unfold mergeSlots at hmem
    rw [if_neg hmerge] at hmem
    rcases List.mem_cons.mp hmem with rfl | hmem
    · exact ⟨h slot' List.mem_cons_self, slot', List.mem_cons_self, rfl⟩
    · obtain ⟨hwf, old, hold, htype⟩ := ih (fun s hs => h s (List.mem_cons_of_mem _ hs)) slot' hmem
      exact ⟨hwf, old, List.mem_cons_of_mem _ hold, htype⟩

theorem separated_iff (hsorted : SortedSlots slots) (hwf : ∀ slot ∈ slots, slot.Wf) :
    slots.IsChain (fun slot slot' => slot.type = slot'.type → ¬ Touch slot slot') ↔
      slots.IsChain (fun slot next => mergeable slot next = false) := by
  rw [List.isChain_iff_getElem, List.isChain_iff_getElem]
  apply forall_congr'
  intro i
  apply forall_congr'
  intro hi
  have hle : slots[i].start.toNat ≤ slots[i + 1].start.toNat :=
    List.pairwise_iff_getElem.mp hsorted i (i + 1) (by omega) hi (by omega)
  have hnext : slots[i + 1].start.toNat ≤ slots[i + 1].stop.toNat := hwf _ (List.getElem_mem hi)
  rw [← Bool.not_eq_true, mergeable_iff]
  constructor
  · rintro h ⟨_, htouch, htype⟩
    exact h htype ⟨by omega, htouch⟩
  · rintro h htype ⟨_, htouch⟩
    exact h ⟨hle, htouch, htype⟩

/-! ## 7. Initialisation -/

theorem foldlM_fillSublists (slots : List Slot)
    (hknown : ∀ slot ∈ slots, (sublistNr slot.type).isSome = true) :
    ∀ sublist, ∃ sublist', slots.foldlM fillSublists sublist = some sublist' := by
  induction slots with
  | nil => exact fun sublist => ⟨sublist, rfl⟩
  | cons slot slots ih =>
    intro sublist
    obtain ⟨nr, hnr⟩ := Option.isSome_iff_exists.mp (hknown slot List.mem_cons_self)
    rw [List.foldlM_cons]
    unfold fillSublists
    rw [hnr]
    exact ih (fun s hs => hknown s (List.mem_cons_of_mem _ hs)) _

/-- **Memory map merging.**  For at most 128 entries below 4G, all of known types, `pmmap_init`
returns; its list is sorted and covers, for each type, what the entries cover, and the list is merged
exactly when no three consecutive slots of the sorted map are chained. -/
theorem pmmap_merged_iff (entries : List MbootMmap)
    (hlength : (entries.filterMap clampEntry).length ≤ 128)
    (hknown : ∀ slot ∈ entries.filterMap clampEntry, (sublistNr slot.type).isSome = true) :
    ∃ m, pmmapInit entries = some m ∧
      (Merged entries m.list ↔ unchained (insertSlots (entries.filterMap clampEntry)) = true) := by
  have hwf : ∀ slot ∈ entries.filterMap clampEntry, slot.Wf := by
    intro slot hslot
    obtain ⟨p, _, hp⟩ := List.mem_filterMap.mp hslot
    exact wf_of_clampEntry hp
  generalize hslots : entries.filterMap clampEntry = slots at hlength hknown hwf
  have hmerged := wf_mergeSlots fun slot hslot => hwf slot (mem_insertSlots.mp hslot)
  obtain ⟨sublist, hsublist⟩ := foldlM_fillSublists (mergeSlots (insertSlots slots)) (by
    intro slot hslot
    obtain ⟨_, old, hold, htype⟩ := hmerged slot hslot
    rw [← htype]
    exact hknown old (mem_insertSlots.mp hold)) fun _ => []
  have hinserted : slots.foldlM pmmapInsert [] = some (insertSlots slots) :=
    foldlM_pmmapInsert slots [] (by rw [List.length_nil]; omega)
  have hinit : ∃ m, pmmapInit entries = some m ∧ m.list = mergeSlots (insertSlots slots) := by
    unfold pmmapInit
    simp only [hslots, hinserted, hsublist, Option.bind_eq_bind, Option.bind_some]
    exact ⟨_, rfl, rfl⟩
  obtain ⟨m, hm, hlist⟩ := hinit
  have hcovers : ∀ type a, Covers (mergeSlots (insertSlots slots)) type a ↔
      Covers (entries.filterMap clampEntry) type a := by
    intro type a
    rw [covers_mergeSlots, hslots, covers_insertSlots]
  have hsorted := (sorted_mergeSlots (sorted_insertSlots slots)).1
  have hseparated := separated_iff hsorted fun slot hslot => (hmerged slot hslot).1
  refine ⟨m, hm, ?_⟩
  rw [hlist, ← isChain_mergeSlots_iff (sorted_insertSlots slots), ← hseparated]
  exact ⟨fun h => h.separated, fun h => ⟨hsorted, hcovers, h⟩⟩

/-- Memory below 640K, the BIOS area in two pieces that overlap, and memory above 1M, out of
order. -/
def pcMap : List MbootMmap :=
  [⟨0x100000, 0, 0x700000, 0, 1⟩, ⟨0, 0, 0x9fc00, 0, 1⟩, ⟨0xf0000, 0, 0x10000, 0, 2⟩,
    ⟨0x9fc00, 0, 0x60000, 0, 2⟩]

theorem pmmap_merged_iff_pcMap : ∃ m, pmmapInit pcMap = some m ∧ Merged pcMap m.list := by
  obtain ⟨m, hinit, hmerged⟩ := pmmap_merged_iff pcMap (by decide) (by decide)
  exact ⟨m, hinit, hmerged.mpr (by decide)⟩

def chainedMap : List MbootMmap :=
  [⟨0, 0, 0x2000, 0, 1⟩, ⟨0x1000, 0, 0x2000, 0, 1⟩, ⟨0x2000, 0, 0x2000, 0, 1⟩]

theorem chained_not_merged :
    (pmmapInit chainedMap).map Pmmap.list = some [⟨0, 0x3000, 1⟩, ⟨0x2000, 0x4000, 1⟩] ∧
      Touch ⟨0, 0x3000, 1⟩ ⟨0x2000, 0x4000, 1⟩ ∧
      ¬ Merged chainedMap [⟨0, 0x3000, 1⟩, ⟨0x2000, 0x4000, 1⟩] := by
  refine ⟨by decide, by unfold Touch; decide, fun h => ?_⟩
  have hapart := (List.isChain_cons_cons.mp h.separated).1
  exact hapart rfl (by unfold Touch; decide)

/-! ## 8. The allocator's pages -/

theorem foldlM_pmmapInsert_eq {slots list inserted : List Slot}
    (h : slots.foldlM pmmapInsert list = some inserted) :
    inserted = slots.foldl (fun list new => insertSlot new list) list := by
  induction slots generalizing list with
  | nil => exact (Option.some.inj h).symm
  | cons new slots ih =>
    obtain ⟨list', hnew, h⟩ := Option.bind_eq_some_iff.mp h
    unfold pmmapInsert at hnew
    split at hnew
    · contradiction
    · obtain rfl := Option.some.inj hnew
      exact ih h

namespace Pmmap

variable {entries : List MbootMmap} {m : Pmmap}

theorem of_init (h : pmmapInit entries = some m) :
    m.nentries = m.list.length ∧
      ∀ type a, Covers m.list type a ↔ Covers (entries.filterMap clampEntry) type a := by
  obtain ⟨inserted, hinserted, h⟩ := Option.bind_eq_some_iff.mp h
  obtain ⟨sublist, _, h⟩ := Option.bind_eq_some_iff.mp h
  obtain rfl := Option.some.inj h
  refine ⟨rfl, fun type a => ?_⟩
  show Covers (mergeSlots inserted) type a ↔ _
  rw [covers_mergeSlots, foldlM_pmmapInsert_eq hinserted]
  exact covers_insertSlots

theorem mem_memRanges (hn : m.nentries = m.list.length) {r : MemRange} (hr : r ∈ m.memRanges) :
    ∃ slot ∈ m.list, r = ⟨slot.start, slot.stop - slot.start, slot.type = memRam⟩ := by
  obtain ⟨idx, hidx, rfl⟩ := List.mem_map.mp hr
  have hlt : idx < m.list.length := by
    rw [← hn]
    exact List.mem_range.mp hidx
  refine ⟨m.list[idx], List.getElem_mem hlt, ?_⟩
  unfold getMms getMml isUsable
  rw [List.getElem?_eq_getElem hlt]
  rfl

/-- Every page that the allocator may give out is in memory that the boot loader says is usable. -/
theorem norm_page_ram (h : pmmapInit entries = some m) {i : Nat}
    (hnorm : (pmemInit m.memRanges).atIsNorm i = true) {a : Nat} (hlo : i * pageSize ≤ a)
    (hhi : a < (i + 1) * pageSize) : Covers (entries.filterMap clampEntry) memRam a := by
  obtain ⟨hn, hcovers⟩ := of_init h
  rw [← hcovers]
  have hperm : 1 < initialPerm m.memRanges i := of_decide_eq_true hnorm
  have hwindow := initialPerm_norm m.memRanges i hperm
  unfold initialPerm pagePerm at hperm
  rw [if_pos hwindow.2.2, if_neg (by omega)] at hperm
  split at hperm
  case h_1 r hfind =>
    obtain ⟨slot, hslot, rfl⟩ := mem_memRanges hn (List.mem_of_find?_eq_some hfind)
    have hfound := List.find?_some hfind
    have hpage := of_decide_eq_true hfound
    dsimp only at hperm hpage
    rw [BitVec.add_comm, BitVec.sub_add_cancel] at hpage
    refine ⟨slot, hslot, ?_, by omega, by omega⟩
    by_contra htype
    rw [if_neg (by simpa using htype)] at hperm
    contradiction
  case h_2 => contradiction

end Pmmap

end MCertiKOS
