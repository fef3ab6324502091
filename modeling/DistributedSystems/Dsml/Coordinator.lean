import Mathlib.Data.List.Basic
import Mathlib.Algebra.Group.Nat.Defs

/-!
# The coordinator of the simulated devices

The handlers of `GPUCoordinatorService` that manage communicators.  A device is known by its position
in `availableDevices` and a communicator by its position in `objects`, which lists the communicators
in the order they were made: these positions are the pointers of the source, so that an
`AllReduceRing` call can still hold a communicator that is no longer in the map.
-/

namespace Dsml

open Function

/-! ## 1. State -/

inductive Status where
  | inProgress
  | success
  | failed
  deriving DecidableEq, Repr

structure DeviceMetadata where
  deviceId : UInt64
  minMemAddr : UInt64
  maxMemAddr : UInt64
  rank : UInt32
  deriving DecidableEq, Repr

structure Device where
  metadata : DeviceMetadata
  assigned : Bool
  currentComm : UInt64
  deriving DecidableEq, Repr

structure Communicator where
  devices : List Nat
  rankMapping : UInt32 → Option Nat
  status : Status

structure Service where
  commStatus : UInt64 → Option Status
  availableDevices : List Device
  communicators : UInt64 → Option Nat
  objects : List Communicator
  nextCommID : UInt64
  streamIDCounter : UInt64

/-- The devices get the lower bounds `0x1000`, `0x2000` and so on, whatever they report. -/
def newDevice (i : Nat) (metadata : DeviceMetadata) : Device where
  metadata := { metadata with minMemAddr := 0x1000 * UInt64.ofNat (i + 1) }
  assigned := false
  currentComm := 0

def newGPUCoordinatorService (initialDevices : List DeviceMetadata) : Service where
  commStatus := fun _ => none
  availableDevices := initialDevices.mapIdx newDevice
  communicators := fun _ => none
  objects := []
  nextCommID := 1
  streamIDCounter := 0

inductive CoordinatorError where
  | notEnoughDevices (requested : UInt32) (available : Nat)
  | doesNotExist (commId : UInt64)
  | notInProgress (commId : UInt64)
  deriving DecidableEq, Repr

def CoordinatorError.text : CoordinatorError → String
  | .notEnoughDevices requested available =>
    s!"not enough devices available: requested {requested}, available {available}"
  | .doesNotExist commId => s!"communicator {commId} does not exist"
  | .notInProgress commId => s!"communicator {commId} is not in progress"

inductive Outcome (α : Type) where
  | returned (response : α) (err : Option CoordinatorError)
  | panicked

/-! ## 2. `CommInit` -/

structure CommInitResponse where
  success : Bool
  commId : UInt64
  devices : List (Option DeviceMetadata)

/-- The loop that takes unassigned devices; `i` is the position of the first device of the list. -/
def selectDevices (comm : UInt64) (n : UInt32) :
    List Device → Nat → List Nat → List Device × List Nat
  | [], _, selected => ([], selected)
  | d :: ds, i, selected =>
    if d.assigned then
      let r := selectDevices comm n ds (i + 1) selected
      (d :: r.1, r.2)
    else
      let selected := selected ++ [i]
      let d := { d with assigned := true, currentComm := comm }
      if UInt32.ofNat selected.length = n then
        (d :: ds, selected)
      else
        let r := selectDevices comm n ds (i + 1) selected
        (d :: r.1, r.2)

/-- The loop that fills the response and the ranks; it panics on an index outside of the response. -/
def fillRanks (devices : List Device) :
    List Nat → Nat → List (Option DeviceMetadata) → (UInt32 → Option Nat) →
      Option (List (Option DeviceMetadata) × (UInt32 → Option Nat))
  | [], _, metadata, ranks => some (metadata, ranks)
  | p :: ps, i, metadata, ranks =>
    if i < metadata.length then
      let entry := (devices[p]?).map fun d => { d.metadata with rank := UInt32.ofNat i }
      fillRanks devices ps (i + 1) (metadata.set i entry) (update ranks (UInt32.ofNat i) (some p))
    else
      none

namespace Service

def available (s : Service) : Nat := s.availableDevices.countP fun d => !d.assigned

def addCommunicator (s : Service) (devices : List Nat) (ranks : UInt32 → Option Nat) : Service :=
  { s with
    nextCommID := s.nextCommID + 1
    objects := s.objects ++ [⟨devices, ranks, .inProgress⟩]
    communicators := update s.communicators s.nextCommID (some s.objects.length)
    commStatus := update s.commStatus s.nextCommID (some .inProgress) }

def commInit (s : Service) (numDevices : UInt32) : Service × Outcome CommInitResponse :=
  if UInt32.ofNat s.available < numDevices then
    (s, .returned ⟨false, 0, []⟩ (some (.notEnoughDevices numDevices s.available)))
  else
    let r := selectDevices s.nextCommID numDevices s.availableDevices 0 []
    -- The devices are marked before anything else can go wrong.
    let s := { s with availableDevices := r.1 }
    match fillRanks r.1 r.2 0 (List.replicate numDevices.toNat none) fun _ => none with
    | none => (s, .panicked)
    | some (metadata, ranks) =>
      (s.addCommunicator r.2 ranks, .returned ⟨true, s.nextCommID, metadata⟩ none)

/-! ## 3. The other handlers -/

/-- `s.communicators[commId]`: the pointer and what it points to. -/
def lookup (s : Service) (commId : UInt64) : Option (Nat × Communicator) :=
  (s.communicators commId).bind fun p => (s.objects[p]?).map fun comm => (p, comm)

def setStatus (s : Service) (p : Nat) (status : Status) : Service :=
  { s with objects := s.objects.modify p fun comm => { comm with status := status } }

def releaseDevice (devices : List Device) (i : Nat) : List Device :=
  devices.modify i fun d => { d with assigned := false, currentComm := 0 }

/-- What the three ways to end a communicator share: its devices are released, it gets its last
status and it leaves the map. -/
def remove (s : Service) (commId : UInt64) (p : Nat) (comm : Communicator) (status : Status) :
    Service :=
  let s := { s with availableDevices := comm.devices.foldl releaseDevice s.availableDevices }
  let s := s.setStatus p status
  { s with communicators := update s.communicators commId none }

/-- The source sets the status of the communicator twice here and never that of `commStatus`. -/
def commFinalize (s : Service) (commId : UInt64) : Service × Outcome Bool :=
  match s.lookup commId with
  | none => (s, .returned false (some (.doesNotExist commId)))
  | some (p, comm) => (s.remove commId p comm .success, .returned true none)

def commDestroy (s : Service) (commId : UInt64) : Service × Outcome Bool :=
  match s.lookup commId with
  | none => (s, .returned false (some (.doesNotExist commId)))
  | some (p, comm) =>
    ({ s.remove commId p comm .failed with
        commStatus := update s.commStatus commId (some .failed) },
      .returned true none)

def markCommunicatorFailed (s : Service) (commId : UInt64) : Service :=
  match s.lookup commId with
  | none => s
  | some (p, comm) =>
    { s.remove commId p comm .failed with
      commStatus := update s.commStatus commId (some .failed) }

def getCommStatus (s : Service) (commId : UInt64) : Status :=
  (s.commStatus commId).getD .failed

/-- The check and the write that `GroupStart` and `GroupEnd` make, both on `commStatus` only. -/
def group (s : Service) (commId : UInt64) (status : Status) : Service × Outcome Bool :=
  match s.commStatus commId with
  | none => (s, .returned false none)
  | some _ =>
    ({ s with commStatus := update s.commStatus commId (some status) }, .returned true none)

def groupStart (s : Service) (commId : UInt64) : Service × Outcome Bool :=
  s.group commId .inProgress

def groupEnd (s : Service) (commId : UInt64) : Service × Outcome Bool :=
  s.group commId .success

/-- The first critical section of `AllReduceRing`; the call goes on with the pointer it returns. -/
def beginAllReduce (s : Service) (commId : UInt64) : Service × Except CoordinatorError Nat :=
  match s.lookup commId with
  | none => (s, .error (.doesNotExist commId))
  | some (p, comm) =>
    if comm.status ≠ .inProgress then
      (s, .error (.notInProgress commId))
    else
      (s.setStatus p .inProgress, .ok p)

/-- The second one.  It does not look whether the communicator is still in the map. -/
def finishAllReduce (s : Service) (commId : UInt64) (p : Nat) : Service :=
  { s.setStatus p .success with
    commStatus := update s.commStatus commId (some .success) }

end Service

/-! ## 4. What `CommInit` does to the devices -/

/-- The devices at the positions `picks` were unassigned and are now assigned to `comm`; the others
are as they were.  Positions count from `i`. -/
structure Selected (comm : UInt64) (ds : List Device) (i : Nat) (picks : List Nat)
    (ds' : List Device) : Prop where
  taken : ∀ j, i + j ∈ picks → ∃ d, ds[j]? = some d ∧ d.assigned = false ∧
    ds'[j]? = some { d with assigned := true, currentComm := comm }
  kept : ∀ j, i + j ∉ picks → ds'[j]? = ds[j]?
  range : ∀ k ∈ picks, i ≤ k ∧ k < i + ds.length
  nodup : picks.Nodup

theorem Selected.nothing (comm : UInt64) (ds : List Device) (i : Nat) :
    Selected comm ds i [] ds where
  taken _ h := absurd h List.not_mem_nil
  kept _ _ := rfl
  range _ h := absurd h List.not_mem_nil
  nodup := List.nodup_nil

theorem Selected.skip {comm : UInt64} {ds ds' : List Device} {i : Nat} {picks : List Nat}
    (h : Selected comm ds (i + 1) picks ds') (d : Device) :
    Selected comm (d :: ds) i picks (d :: ds') where
  taken j hj := by
    cases j with
    | zero =>
      have := (h.range _ hj).1
      omega
    | succ j => exact h.taken j (by rwa [Nat.add_assoc, Nat.add_comm 1])
  kept j hj := by
    cases j with
    | zero => rfl
    | succ j => exact h.kept j (by rwa [Nat.add_assoc, Nat.add_comm 1])
  range k hk := by
    have := h.range k hk
    simp only [List.length_cons]
    omega
  nodup := h.nodup

theorem Selected.take {comm : UInt64} {ds ds' : List Device} {i : Nat} {picks : List Nat}
    (h : Selected comm ds (i + 1) picks ds') {d : Device} (hd : d.assigned = false) :
    Selected comm (d :: ds) i (i :: picks)
      ({ d with assigned := true, currentComm := comm } :: ds') where
  taken j hj := by
    cases j with
    | zero => exact ⟨d, rfl, hd, rfl⟩
    | succ j =>
      apply h.taken j
      have := (List.mem_cons.mp hj).resolve_left (by omega)
      rwa [Nat.add_assoc, Nat.add_comm 1]
  kept j hj := by
    cases j with
    | zero => exact absurd List.mem_cons_self hj
    | succ j =>
      apply h.kept j
      intro hm
      apply hj
      rw [Nat.add_assoc, Nat.add_comm 1] at hm
      exact List.mem_cons_of_mem _ hm
  range k hk := by
    simp only [List.length_cons]
    rcases List.mem_cons.mp hk with rfl | hk
    · omega
    · have := h.range k hk
      omega
  nodup := by
    apply List.nodup_cons.mpr
    constructor
    · intro hm
      have := (h.range i hm).1
      omega
    · exact h.nodup

theorem selectDevices_selected (comm : UInt64) (n : UInt32) (ds : List Device) :
    ∀ (i : Nat) (selected : List Nat), ∃ picks,
      (selectDevices comm n ds i selected).2 = selected ++ picks ∧
        Selected comm ds i picks (selectDevices comm n ds i selected).1 := by
  induction ds with
  | nil =>
    intro i selected
    exact ⟨[], (List.append_nil _).symm, Selected.nothing comm [] i⟩
  | cons d ds ih =>
    intro i selected
    unfold selectDevices
    by_cases hd : d.assigned = true
    · obtain ⟨picks, hsel, hpicks⟩ := ih (i + 1) selected
      rw [if_pos hd]
      exact ⟨picks, hsel, hpicks.skip d⟩
    · rw [if_neg hd]
      have hd : d.assigned = false := Bool.eq_false_iff.mpr hd
      dsimp only
      split
      · exact ⟨[i], rfl, (Selected.nothing comm ds (i + 1)).take hd⟩
      · obtain ⟨picks, hsel, hpicks⟩ := ih (i + 1) (selected ++ [i])
        refine ⟨i :: picks, ?_, hpicks.take hd⟩
        rw [hsel, List.append_assoc, List.singleton_append]

theorem selectDevices_length (comm : UInt64) (n : UInt32) (ds : List Device) :
    ∀ (i : Nat) (selected : List Nat), selected.length < n.toNat →
      n.toNat ≤ selected.length + ds.countP (fun d => !d.assigned) →
        (selectDevices comm n ds i selected).2.length = n.toNat := by
  induction ds with
  | nil =>
    intro i selected hlt hle
    simp only [List.countP_nil] at hle
    omega
  | cons d ds ih =>
    intro i selected hlt hle
    unfold selectDevices
    by_cases hd : d.assigned = true
    · rw [if_pos hd]
      apply ih
      · exact hlt
      · simpa [hd] using hle
    · rw [if_neg hd]
      have hd : d.assigned = false := Bool.eq_false_iff.mpr hd
      have hn := n.toNat_lt
      have hlen : (selected ++ [i]).length = selected.length + 1 := by simp
      dsimp only
      split
      · next heq =>
        -- the comparison is made on 32 bits, which hold the length of the selection
        have := congrArg UInt32.toNat heq
        rw [UInt32.toNat_ofNat', Nat.mod_eq_of_lt (by omega)] at this
        exact this
      · next hne =>
        apply ih
        · have : (selected ++ [i]).length ≠ n.toNat := fun he => hne (by rw [he, UInt32.ofNat_toNat])
          omega
        · simp only [List.countP_cons, hd, Bool.not_false, if_true] at hle
          omega

theorem selectDevices_none (comm : UInt64) (n : UInt32) (ds : List Device)
    (hds : ∀ d ∈ ds, d.assigned = true) :
    ∀ (i : Nat) (selected : List Nat), selectDevices comm n ds i selected = (ds, selected) := by
  induction ds with
  | nil => intro i selected; rfl
  | cons d ds ih =>
    intro i selected
    unfold selectDevices
    rw [if_pos (hds d List.mem_cons_self)]
    rw [ih fun d hd => hds d (List.mem_cons_of_mem _ hd)]

theorem fillRanks_spec (devices : List Device) (picks : List Nat) :
    ∀ (i : Nat) (metadata : List (Option DeviceMetadata)) (ranks : UInt32 → Option Nat),
      i + picks.length ≤ metadata.length → metadata.length < 2 ^ 32 →
      ∃ metadata' ranks', fillRanks devices picks i metadata ranks = some (metadata', ranks') ∧
        metadata'.length = metadata.length ∧
        (∀ r : UInt32, ranks' r =
          if i ≤ r.toNat ∧ r.toNat < i + picks.length then picks[r.toNat - i]? else ranks r) ∧
        ∀ k, metadata'[k]? = if i ≤ k ∧ k < i + picks.length then
          some ((picks[k - i]?).bind fun p => (devices[p]?).map fun d =>
            { d.metadata with rank := UInt32.ofNat k }) else metadata[k]? := by
  induction picks with
  | nil =>
    intro i metadata ranks _ _
    refine ⟨metadata, ranks, rfl, rfl, ?_, ?_⟩
    · intro r
      rw [if_neg (by simp only [List.length_nil]; omega)]
    · intro k
      rw [if_neg (by simp only [List.length_nil]; omega)]
  | cons p picks ih =>
    intro i metadata ranks hle hlt
    simp only [List.length_cons] at hle
    unfold fillRanks
    rw [if_pos (by omega)]
    generalize hentry : ((devices[p]?).map fun d =>
      { d.metadata with rank := UInt32.ofNat i } : Option DeviceMetadata) = entry
    obtain ⟨metadata', ranks', hfill, hlen, hranks, hmeta⟩ :=
      ih (i + 1) (metadata.set i entry) (update ranks (UInt32.ofNat i) (some p))
        (by rw [List.length_set]; omega) (by rwa [List.length_set])
    refine ⟨metadata', ranks', hfill, by rw [hlen, List.length_set], ?_, ?_⟩
    · intro r
      rw [hranks r]
      rcases Nat.lt_trichotomy r.toNat i with hr | hr | hr
      · have hne : r ≠ UInt32.ofNat i := by
          intro he
          rw [he, UInt32.toNat_ofNat', Nat.mod_eq_of_lt (by omega)] at hr
          omega
        rw [if_neg (by omega), if_neg (by omega), update_of_ne hne]
      · have he : r = UInt32.ofNat i := by rw [← hr, UInt32.ofNat_toNat]
        rw [if_neg (by omega), if_pos (by simp only [List.length_cons]; omega), he,
          update_self, ← he, hr, Nat.sub_self, List.getElem?_cons_zero]
      · have hne : r ≠ UInt32.ofNat i := by
          intro he
          rw [he, UInt32.toNat_ofNat', Nat.mod_eq_of_lt (by omega)] at hr
          omega
        rw [update_of_ne hne]
        simp only [List.length_cons]
        by_cases hin : r.toNat < i + 1 + picks.length
        · rw [if_pos (by omega), if_pos (by omega), show r.toNat - i = r.toNat - (i + 1) + 1 by omega,
            List.getElem?_cons_succ]
        · rw [if_neg (by omega), if_neg (by omega)]
    · intro k
      rw [hmeta k]
      simp only [List.length_cons]
      rcases Nat.lt_trichotomy k i with hk | hk | hk
      · rw [if_neg (by omega), if_neg (by omega), List.getElem?_set_ne (by omega)]
      · rw [if_neg (by omega), if_pos (by omega), hk, Nat.sub_self, List.getElem?_cons_zero,
          List.getElem?_set_self (by omega), Option.bind_some, hentry]
      · by_cases hin : k < i + 1 + picks.length
        · rw [if_pos (by omega), if_pos (by omega), show k - i = k - (i + 1) + 1 by omega,
            List.getElem?_cons_succ]
        · rw [if_neg (by omega), if_neg (by omega), List.getElem?_set_ne (by omega)]

end Dsml
