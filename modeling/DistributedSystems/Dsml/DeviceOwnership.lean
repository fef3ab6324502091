import DistributedSystems.Dsml.Lifecycle

/-!
# Which communicator owns a device

A device is assigned to `c` exactly when the live communicator `c` lists it.  This holds in every run
in which `CommInit` is not asked for zero devices while some are left, and finds its next id not in
use.
-/

namespace Dsml

open Transition Function

/-! ## 1. Devices and rosters -/

structure Roster where
  devices : List Nat
  rankMapping : UInt32 → Option Nat

def Communicator.roster (comm : Communicator) : Roster := ⟨comm.devices, comm.rankMapping⟩

def Service.roster (s : Service) (c : UInt64) : Option Roster :=
  (s.live c).map Communicator.roster

structure Owned (roster : UInt64 → Option Roster) (ds : List Device) : Prop where
  owner : ∀ i d, ds[i]? = some d → ∀ c, (d.assigned = true ∧ d.currentComm = c) ↔
    ∃ g, roster c = some g ∧ i ∈ g.devices
  range : ∀ c g, roster c = some g → ∀ i ∈ g.devices, i < ds.length
  nodup : ∀ c g, roster c = some g → g.devices.Nodup
  ranks : ∀ c g, roster c = some g → ∀ r : UInt32, g.rankMapping r = g.devices[r.toNat]?

theorem getElem?_release (picks : List Nat) : ∀ (ds : List Device) (i : Nat),
    (picks.foldl Service.releaseDevice ds)[i]? = if i ∈ picks then
      (ds[i]?).map fun d => { d with assigned := false, currentComm := 0 } else ds[i]? := by
  induction picks with
  | nil => intro ds i; rfl
  | cons p picks ih =>
    intro ds i
    rw [List.foldl_cons, ih]
    unfold Service.releaseDevice
    rw [List.getElem?_modify]
    by_cases hp : p = i
    · rw [if_pos (show i ∈ p :: picks from hp ▸ List.mem_cons_self)]
      cases ds[i]? with
      | none => simp only [Option.map_none, Option.map_eq_map, ite_self]
      | some d => simp only [Option.map_some, Option.map_eq_map, if_pos hp, ite_self]
    · have hmem : i ∈ p :: picks ↔ i ∈ picks := by
        rw [List.mem_cons]
        exact or_iff_right fun he => hp he.symm
      simp only [hmem, if_neg hp, Option.map_eq_map, Option.map_id']

namespace Owned

variable {roster : UInt64 → Option Roster} {ds ds' : List Device} {c : UInt64}

variable {g : Roster}

theorem assigned (h : Owned roster ds) (hg : roster c = some g) {i : Nat} (hi : i ∈ g.devices) :
    ∃ d, ds[i]? = some d ∧ d.assigned = true ∧ d.currentComm = c := by
  have hlt := h.range c g hg i hi
  exact ⟨ds[i], List.getElem?_eq_getElem hlt,
    (h.owner i ds[i] (List.getElem?_eq_getElem hlt) c).mpr ⟨g, hg, hi⟩⟩

theorem disjoint (h : Owned roster ds) {c' : UInt64} {g' : Roster} (hg : roster c = some g)
    (hg' : roster c' = some g') {i : Nat} (hi : i ∈ g.devices) (hi' : i ∈ g'.devices) : c = c' := by
  obtain ⟨d, hd, _, hc⟩ := h.assigned hg hi
  obtain ⟨d', hd', _, hc'⟩ := h.assigned hg' hi'
  rw [hd] at hd'
  rw [← hc, ← hc', Option.some.inj hd']

theorem release (h : Owned roster ds) (hg : roster c = some g) :
    Owned (update roster c none) (g.devices.foldl Service.releaseDevice ds) := by
  have hold : ∀ {c' : UInt64} {g' : Roster}, update roster c none c' = some g' →
      c' ≠ c ∧ roster c' = some g' := by
    intro c' g' hg'
    by_cases hc : c' = c
    · rw [hc, update_self] at hg'
      exact absurd hg'.symm (Option.some_ne_none _)
    · rw [update_of_ne hc] at hg'
      exact ⟨hc, hg'⟩
  constructor
  · intro i d hd c'
    rw [getElem?_release] at hd
    by_cases hi : i ∈ g.devices
    · -- a released device: no other roster lists it
      rw [if_pos hi] at hd
      obtain ⟨d₀, _, rfl⟩ := Option.map_eq_some_iff.mp hd
      constructor
      · intro hassigned
        exact absurd hassigned.1 Bool.false_ne_true
      · intro ⟨g', hg', hi'⟩
        exact absurd (h.disjoint (hold hg').2 hg hi' hi) (hold hg').1
    · rw [if_neg hi] at hd
      rw [h.owner i d hd c']
      constructor
      · intro ⟨g', hg', hi'⟩
        have hc : c' ≠ c := by
          intro hc
          rw [hc, hg] at hg'
          exact hi (Option.some.inj hg' ▸ hi')
        exact ⟨g', by rwa [update_of_ne hc], hi'⟩
      · intro ⟨g', hg', hi'⟩
        exact ⟨g', (hold hg').2, hi'⟩
  · intro c' g' hg' i hi'
    have hlt := h.range c' g' (hold hg').2 i hi'
    have hsome : (g.devices.foldl Service.releaseDevice ds)[i]? ≠ none := by
      rw [getElem?_release, List.getElem?_eq_getElem hlt]
      split <;> exact Option.some_ne_none _
    exact (List.getElem?_eq_some_iff.mp (Option.ne_none_iff_exists'.mp hsome).choose_spec).1
  · intro c' g' hg'
    exact h.nodup c' g' (hold hg').2
  · intro c' g' hg'
    exact h.ranks c' g' (hold hg').2

theorem select (h : Owned roster ds) (hfree : roster c = none) {picks : List Nat}
    (hpicks : Selected c ds 0 picks ds') {ranks : UInt32 → Option Nat}
    (hranks : ∀ r : UInt32, ranks r = picks[r.toNat]?) :
    Owned (update roster c (some ⟨picks, ranks⟩)) ds' := by
  have hnew : ∀ {c' : UInt64} {g' : Roster},
      update roster c (some ⟨picks, ranks⟩) c' = some g' →
      (c' = c ∧ g' = ⟨picks, ranks⟩) ∨ (c' ≠ c ∧ roster c' = some g') := by
    intro c' g' hg'
    by_cases hc : c' = c
    · rw [hc, update_self] at hg'
      exact Or.inl ⟨hc, (Option.some.inj hg').symm⟩
    · rw [update_of_ne hc] at hg'
      exact Or.inr ⟨hc, hg'⟩
  have htaken : ∀ i ∈ picks, ∃ d, ds[i]? = some d ∧ d.assigned = false ∧
      ds'[i]? = some { d with assigned := true, currentComm := c } := by
    intro i hi
    exact hpicks.taken i (by rwa [Nat.zero_add])
  have hkept : ∀ i, i ∉ picks → ds'[i]? = ds[i]? := by
    intro i hi
    exact hpicks.kept i (by rwa [Nat.zero_add])
  -- what was taken was in no roster
  have hunowned : ∀ {i : Nat} {c' : UInt64} {g' : Roster}, i ∈ picks → roster c' = some g' →
      i ∉ g'.devices := by
    intro i c' g' hi hg' hi'
    obtain ⟨d, hd, hfalse, _⟩ := htaken i hi
    obtain ⟨d', hd', htrue, _⟩ := h.assigned hg' hi'
    rw [hd] at hd'
    rw [← Option.some.inj hd', hfalse] at htrue
    exact absurd htrue Bool.false_ne_true
  constructor
  · intro i d hd c'
    by_cases hi : i ∈ picks
    · obtain ⟨d₀, _, _, hd'⟩ := htaken i hi
      rw [hd'] at hd
      rw [← Option.some.inj hd]
      constructor
      · intro ⟨_, hc⟩
        refine ⟨⟨picks, ranks⟩, ?_, hi⟩
        rw [← hc, update_self]
      · intro ⟨g', hg', hi'⟩
        rcases hnew hg' with ⟨hc, _⟩ | ⟨_, hold⟩
        · exact ⟨rfl, hc.symm⟩
        · exact absurd hi' (hunowned hi hold)
    · rw [hkept i hi] at hd
      rw [h.owner i d hd c']
      constructor
      · intro ⟨g', hg', hi'⟩
        have hc : c' ≠ c := by
          intro hc
          rw [hc, hfree] at hg'
          exact absurd hg'.symm (Option.some_ne_none _)
        exact ⟨g', by rwa [update_of_ne hc], hi'⟩
      · intro ⟨g', hg', hi'⟩
        rcases hnew hg' with ⟨_, hg''⟩ | ⟨_, hold⟩
        · rw [hg''] at hi'
          exact absurd hi' hi
        · exact ⟨g', hold, hi'⟩
  · intro c' g' hg' i hi'
    rcases hnew hg' with ⟨_, hg''⟩ | ⟨_, hold⟩
    · rw [hg''] at hi'
      obtain ⟨_, _, _, hd'⟩ := htaken i hi'
      exact (List.getElem?_eq_some_iff.mp hd').1
    · have hi : i ∉ picks := fun hi => hunowned hi hold hi'
      obtain ⟨d, hd, _⟩ := h.assigned hold hi'
      rw [← hkept i hi] at hd
      exact (List.getElem?_eq_some_iff.mp hd).1
  · intro c' g' hg'
    rcases hnew hg' with ⟨_, hg''⟩ | ⟨_, hold⟩
    · rw [hg'']
      exact hpicks.nodup
    · exact h.nodup c' g' hold
  · intro c' g' hg'
    rcases hnew hg' with ⟨_, hg''⟩ | ⟨_, hold⟩
    · rw [hg'']
      exact hranks
    · exact h.ranks c' g' hold

end Owned

/-! ## 2. The rosters after each handler -/

namespace Service

theorem roster_setStatus (s : Service) (p : Nat) (status : Status) :
    (s.setStatus p status).roster = s.roster := by
  funext c
  unfold roster live
  rw [lookup_setStatus]
  cases s.lookup c with
  | none => rfl
  | some x =>
    simp only [Option.map_some]
    split <;> rfl

theorem roster_remove (s : Service) (c : UInt64) (p : Nat) (comm : Communicator) (status : Status) :
    (s.remove c p comm status).roster = update s.roster c none := by
  funext c'
  unfold roster live
  rw [lookup_remove]
  by_cases hc : c' = c
  · rw [if_pos hc, hc, update_self]
    rfl
  · rw [if_neg hc, update_of_ne hc]
    exact congrFun (roster_setStatus s p status) c'

theorem roster_addCommunicator {s : Service} (devices : List Nat) (ranks : UInt32 → Option Nat)
    (hrange : ∀ c p, s.communicators c = some p → p < s.objects.length) :
    (s.addCommunicator devices ranks).roster =
      update s.roster s.nextCommID (some ⟨devices, ranks⟩) := by
  funext c
  unfold roster live
  rw [lookup_addCommunicator devices ranks hrange]
  by_cases hc : c = s.nextCommID
  · rw [if_pos hc, hc, update_self]
    rfl
  · rw [if_neg hc, update_of_ne hc]

theorem roster_eq_some {s : Service} {c : UInt64} {g : Roster} :
    s.roster c = some g ↔ ∃ comm, s.live c = some comm ∧ comm.roster = g :=
  Option.map_eq_some_iff

end Service

/-! ## 3. Runs -/

namespace Sys

/-- A condition on calls: `CommInit` asks for at least one device, or none is left, and the id that it
will give is not in use. -/
def InitSound (s : Sys) : Call → Prop
  | .commInit n => (n ≠ 0 ∨ ∀ d ∈ s.service.availableDevices, d.assigned = true) ∧
      (s.service.live s.service.nextCommID).isNone = true
  | _ => True

instance (s : Sys) : ∀ a, Decidable (s.InitSound a)
  | .commInit _ => inferInstanceAs (Decidable (_ ∧ _))
  | .commFinalize _ | .commDestroy _ | .groupStart _ | .groupEnd _ => .isTrue trivial
  | .allReduceBegin _ | .allReduceFinish _ | .allReduceFail _ => .isTrue trivial

structure Created (s s' : Service) (n : UInt32) (metadata : List (Option DeviceMetadata)) : Prop where
  comm : ∃ comm, s'.live s.nextCommID = some comm ∧ comm.devices.length = n.toNat ∧
    comm.devices.Nodup ∧ (∀ r : UInt32, comm.rankMapping r = comm.devices[r.toNat]?) ∧
    ∀ k < n.toNat, ∃ i d, comm.devices[k]? = some i ∧ s'.availableDevices[i]? = some d ∧
      metadata[k]? = some (some { d.metadata with rank := UInt32.ofNat k })
  length : metadata.length = n.toNat

structure Ownership (s : Sys) : Prop where
  disjoint : ∀ c c' comm comm', s.service.live c = some comm → s.service.live c' = some comm' →
    c ≠ c' → List.Disjoint comm.devices comm'.devices
  assigned : ∀ i d, s.service.availableDevices[i]? = some d → ∀ c,
    (d.assigned = true ∧ d.currentComm = c) ↔
      ∃ comm, s.service.live c = some comm ∧ i ∈ comm.devices
  commInit : ∀ n, s.InitSound (.commInit n) →
    (∃ metadata, (s.service.commInit n).2 =
        .returned ⟨true, s.service.nextCommID, metadata⟩ none ∧
        Created s.service (s.service.commInit n).1 n metadata) ∨
      ∃ response err, (s.service.commInit n).2 = .returned response (some err) ∧
        response.success = false ∧
        (s.service.commInit n).1.availableDevices = s.service.availableDevices

theorem owned_start (initialDevices : List DeviceMetadata) :
    Owned (start initialDevices).service.roster (start initialDevices).service.availableDevices where
  owner i d hd c := by
    have hd : (initialDevices.mapIdx newDevice)[i]? = some d := hd
    rw [List.getElem?_mapIdx] at hd
    obtain ⟨metadata, _, rfl⟩ := Option.map_eq_some_iff.mp hd
    constructor
    · intro hassigned
      exact absurd hassigned.1 Bool.false_ne_true
    · intro ⟨g, hg, _⟩
      exact absurd hg.symm (Option.some_ne_none _)
  range _ _ h := absurd h.symm (Option.some_ne_none _)
  nodup _ _ h := absurd h.symm (Option.some_ne_none _)
  ranks _ _ h := absurd h.symm (Option.some_ne_none _)

variable {s : Sys}

theorem owned_init (hp : Pointers s) (h : Owned s.service.roster s.service.availableDevices)
    {n : UInt32} (hsound : s.InitSound (.commInit n)) :
    Owned (s.service.commInit n).1.roster (s.service.commInit n).1.availableDevices := by
  rcases s.service.commInit_sound n hsound.1 with ⟨err, he⟩ | ⟨ds, picks, ranks, metadata, hsel, _,
    hranks, _, _, he⟩
  · rw [he]
    exact h
  · rw [he]
    have hfree : s.service.roster s.service.nextCommID = none := by
      unfold Service.roster
      rw [Option.isNone_iff_eq_none.mp hsound.2, Option.map_none]
    have hroster := Service.roster_addCommunicator picks ranks
      (s := { s.service with availableDevices := ds }) hp.range
    rw [hroster]
    exact h.select hfree hsel hranks

theorem owned_step {s' : Sys} {a : Call} (hp : Pointers s)
    (h : Owned s.service.roster s.service.availableDevices) (hsound : s.InitSound a)
    (hstep : Step s a s') : Owned s'.service.roster s'.service.availableDevices := by
  have hremoved : ∀ {c p comm} (status : Status), s.service.lookup c = some (p, comm) →
      Owned (s.service.remove c p comm status).roster
        (s.service.remove c p comm status).availableDevices := by
    intro c p comm status hl
    have hg : s.service.roster c = some comm.roster :=
      Service.roster_eq_some.mpr ⟨comm, Service.live_eq_some.mpr ⟨p, hl⟩, rfl⟩
    rw [Service.roster_remove]
    exact h.release hg
  cases step_effect hstep with
  | init n => exact owned_init hp h hsound
  | idle => exact h
  | finalized hl => exact hremoved .success hl
  | failed hl => exact hremoved .failed hl
  | group => exact h
  | @began c p =>
    have := Service.roster_setStatus s.service p .inProgress
    rwa [this]
  | @finished i c p =>
    have := Service.roster_setStatus s.service p .success
    show Owned (s.service.setStatus p .success).roster s.service.availableDevices
    rwa [this]

theorem owned {initialDevices : List DeviceMetadata} {past : List (Sys × Call)}
    (hr : Reaches initialDevices past s) (hsound : ∀ x ∈ past, x.1.InitSound x.2) :
    Pointers s ∧ Owned s.service.roster s.service.availableDevices := by
  apply hr.invariant_of _ _ hsound
  · intro s hs
    rw [hs]
    exact ⟨Pointers.start initialDevices, owned_start initialDevices⟩
  · intro s a s' h ha hstep
    exact ⟨h.1.step hstep, owned_step h.1 h.2 ha hstep⟩

theorem created (hp : Pointers s) {n : UInt32} {ds : List Device} {picks : List Nat}
    {ranks : UInt32 → Option Nat} {metadata : List (Option DeviceMetadata)}
    (hsel : Selected s.service.nextCommID s.service.availableDevices 0 picks ds)
    (hlen : picks.length = n.toNat) (hranks : ∀ r : UInt32, ranks r = picks[r.toNat]?)
    (hmlen : metadata.length = n.toNat)
    (hmeta : ∀ k < n.toNat, metadata[k]? = some ((picks[k]?).bind fun p => (ds[p]?).map fun d =>
      { d.metadata with rank := UInt32.ofNat k })) :
    Created s.service (({ s.service with availableDevices := ds } : Service).addCommunicator picks
      ranks) n metadata := by
  refine ⟨⟨⟨picks, ranks, .inProgress⟩, ?_, hlen, hsel.nodup, hranks, ?_⟩, hmlen⟩
  · apply Service.live_eq_some.mpr
    refine ⟨s.service.objects.length, ?_⟩
    rw [Service.lookup_addCommunicator (s := { s.service with availableDevices := ds }) picks ranks
      hp.range]
    exact if_pos rfl
  · intro k hk
    have hk' : k < picks.length := by omega
    obtain ⟨d, _, _, hd⟩ := hsel.taken picks[k] (by
      rw [Nat.zero_add]
      exact List.getElem_mem hk')
    refine ⟨picks[k], _, List.getElem?_eq_getElem hk', hd, ?_⟩
    rw [hmeta k hk, List.getElem?_eq_getElem hk', Option.bind_some, hd, Option.map_some]

/-- In every run with sound `CommInit` calls the devices are owned as promised. -/
theorem device_ownership {initialDevices : List DeviceMetadata} {past : List (Sys × Call)} {s : Sys}
    (hr : Reaches initialDevices past s) (hsound : ∀ x ∈ past, x.1.InitSound x.2) :
    Ownership s := by
  obtain ⟨hp, h⟩ := owned hr hsound
  constructor
  · intro c c' comm comm' hc hc' hne i hi hi'
    apply hne
    exact h.disjoint (Service.roster_eq_some.mpr ⟨comm, hc, rfl⟩)
      (Service.roster_eq_some.mpr ⟨comm', hc', rfl⟩) hi hi'
  · intro i d hd c
    rw [h.owner i d hd c]
    constructor
    · intro ⟨g, hg, hi⟩
      obtain ⟨comm, hcomm, rfl⟩ := Service.roster_eq_some.mp hg
      exact ⟨comm, hcomm, hi⟩
    · intro ⟨comm, hcomm, hi⟩
      exact ⟨comm.roster, Service.roster_eq_some.mpr ⟨comm, hcomm, rfl⟩, hi⟩
  · intro n hn
    rcases s.service.commInit_sound n hn.1 with ⟨err, he⟩ | ⟨ds, picks, ranks, metadata, hsel, hlen,
      hranks, hmlen, hmeta, he⟩
    · rw [he]
      exact Or.inr ⟨_, err, rfl, rfl, rfl⟩
    · rw [he]
      exact Or.inl ⟨metadata, rfl, created hp hsel hlen hranks hmlen hmeta⟩

def threeDevices : List DeviceMetadata :=
  [⟨1, 0x1000, 0x1FFFFF, 0⟩, ⟨2, 0x1000, 0x1FFFFF, 1⟩, ⟨3, 0x1000, 0x1FFFFF, 2⟩]

def reassigned : List (Sys × Call) × Sys :=
  replay exec [] (start threeDevices)
    [.commInit 2, .commInit 1, .commInit 1, .commDestroy 1, .commInit 2, .allReduceBegin 3,
      .allReduceFail 0, .commInit 1]

theorem device_ownership_reassigned :
    (∀ x ∈ reassigned.1, x.1.InitSound x.2) ∧
      (reassigned.2.service.live 4).map (·.devices) = some [0] ∧ Ownership reassigned.2 :=
  ⟨by decide +kernel, by decide +kernel,
    device_ownership (replay_run (fun _ _ _ h => h) _ _ _ (Run.start rfl)) (by decide +kernel)⟩

/-- A request for zero devices marks every device, makes no communicator and panics. -/
theorem commInit_zero_panics :
    ∃ s, Reaches threeDevices [] s ∧ (s.service.commInit 0).2 = .panicked ∧
      (s.service.commInit 0).1.availableDevices.map (fun d => (d.assigned, d.currentComm)) =
        [(true, 1), (true, 1), (true, 1)] ∧
      (s.service.commInit 0).1.live 1 = none :=
  ⟨start threeDevices, Run.start rfl, rfl, by decide +kernel, rfl⟩

end Sys

end Dsml
