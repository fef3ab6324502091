import DistributedSystems.Library.Runs
import DistributedSystems.Dsml.Coordinator

/-!
# The life of communicators

The coordinator serves calls in any order.  Every handler is one step, except `AllReduceRing`: it has
two critical sections and any other call may come between them.  While it is between them it is *in
flight* with the communicator that it looked up.  It ends in the second section or, when a device
fails it, in `markCommunicatorFailed`.
-/

namespace Dsml

open Transition Function

/-! ## 1. Runs of the coordinator -/

structure Sys where
  service : Service
  inFlight : List (UInt64 × Nat)

inductive Call where
  | commInit (numDevices : UInt32)
  | commFinalize (commId : UInt64)
  | commDestroy (commId : UInt64)
  | groupStart (commId : UInt64)
  | groupEnd (commId : UInt64)
  | allReduceBegin (commId : UInt64)
  | allReduceFinish (i : Nat)
  | allReduceFail (i : Nat)
  deriving DecidableEq, Repr

namespace Sys

def start (initialDevices : List DeviceMetadata) : Sys :=
  ⟨newGPUCoordinatorService initialDevices, []⟩

def exec (s : Sys) : Call → Option Sys
  | .commInit n => some { s with service := (s.service.commInit n).1 }
  | .commFinalize c => some { s with service := (s.service.commFinalize c).1 }
  | .commDestroy c => some { s with service := (s.service.commDestroy c).1 }
  | .groupStart c => some { s with service := (s.service.groupStart c).1 }
  | .groupEnd c => some { s with service := (s.service.groupEnd c).1 }
  | .allReduceBegin c =>
    match s.service.beginAllReduce c with
    | (service, .error _) => some { s with service := service }
    | (service, .ok p) => some ⟨service, s.inFlight ++ [(c, p)]⟩
  | .allReduceFinish i =>
    (s.inFlight[i]?).map fun call =>
      ⟨s.service.finishAllReduce call.1 call.2, s.inFlight.eraseIdx i⟩
  | .allReduceFail i =>
    (s.inFlight[i]?).map fun call =>
      ⟨s.service.markCommunicatorFailed call.1, s.inFlight.eraseIdx i⟩

def Step (s : Sys) (a : Call) (s' : Sys) : Prop := s.exec a = some s'

abbrev Reaches (initialDevices : List DeviceMetadata) : List (Sys × Call) → Sys → Prop :=
  Run (fun s => s = start initialDevices) Step

end Sys

/-! ## 2. The map of communicators after each handler -/

namespace Service

def live (s : Service) (commId : UInt64) : Option Communicator := (s.lookup commId).map Prod.snd

variable {s : Service} {c : UInt64}

theorem lookup_eq_some {p : Nat} {comm : Communicator} :
    s.lookup c = some (p, comm) ↔ s.communicators c = some p ∧ s.objects[p]? = some comm := by
  unfold lookup
  rw [Option.bind_eq_some_iff]
  constructor
  · intro ⟨q, hq, hm⟩
    obtain ⟨x, hx, he⟩ := Option.map_eq_some_iff.mp hm
    obtain ⟨rfl, rfl⟩ := Prod.mk.inj he
    exact ⟨hq, hx⟩
  · intro ⟨hp, hx⟩
    exact ⟨p, hp, Option.map_eq_some_iff.mpr ⟨comm, hx, rfl⟩⟩

theorem lookup_eq_none (h : s.communicators c = none) : s.lookup c = none := by
  unfold lookup
  rw [h, Option.bind_none]

theorem live_eq_some {comm : Communicator} :
    s.live c = some comm ↔ ∃ p, s.lookup c = some (p, comm) := by
  unfold live
  rw [Option.map_eq_some_iff]
  constructor
  · intro ⟨x, hx, he⟩
    exact ⟨x.1, by rw [hx, ← he]⟩
  · intro ⟨p, hp⟩
    exact ⟨(p, comm), hp, rfl⟩

theorem lookup_setStatus (s : Service) (p : Nat) (status : Status) (c : UInt64) :
    (s.setStatus p status).lookup c = (s.lookup c).map fun x =>
      (x.1, if p = x.1 then { x.2 with status := status } else x.2) := by
  unfold lookup setStatus
  cases s.communicators c with
  | none => rfl
  | some q =>
    simp only [Option.bind_some, List.getElem?_modify]
    cases s.objects[q]? with
    | none => rfl
    | some comm => rfl

theorem lookup_remove (s : Service) (c : UInt64) (p : Nat) (comm : Communicator) (status : Status)
    (c' : UInt64) : (s.remove c p comm status).lookup c' =
      if c' = c then none else (s.setStatus p status).lookup c' := by
  by_cases hc : c' = c
  · rw [if_pos hc]
    apply lookup_eq_none
    show update s.communicators c none c' = none
    rw [hc, update_self]
  · rw [if_neg hc]
    show (update s.communicators c none c').bind _ = _
    rw [update_of_ne hc]
    rfl

theorem lookup_addCommunicator (devices : List Nat) (ranks : UInt32 → Option Nat)
    (hrange : ∀ c p, s.communicators c = some p → p < s.objects.length) (c : UInt64) :
    (s.addCommunicator devices ranks).lookup c =
      if c = s.nextCommID then some (s.objects.length, ⟨devices, ranks, .inProgress⟩)
      else s.lookup c := by
  unfold addCommunicator lookup
  dsimp only
  by_cases hc : c = s.nextCommID
  · rw [if_pos hc, hc, update_self, Option.bind_some, List.getElem?_append_right (Nat.le_refl _),
      Nat.sub_self, List.getElem?_cons_zero, Option.map_some]
  · rw [if_neg hc, update_of_ne hc]
    cases hp : s.communicators c with
    | none => rfl
    | some p => rw [Option.bind_some, Option.bind_some, List.getElem?_append_left (hrange c p hp)]

/-! ## 3. What a call does -/

theorem commInit_cases (s : Service) (n : UInt32) :
    (∃ err, s.commInit n = (s, .returned ⟨false, 0, []⟩ (some err))) ∨
      (∃ ds, s.commInit n = ({ s with availableDevices := ds }, .panicked)) ∨
      ∃ ds picks ranks metadata, s.commInit n =
        (({ s with availableDevices := ds } : Service).addCommunicator picks ranks,
          .returned ⟨true, s.nextCommID, metadata⟩ none) := by
  unfold commInit
  split
  · exact Or.inl ⟨_, rfl⟩
  · apply Or.inr
    dsimp only
    split
    · exact Or.inl ⟨_, rfl⟩
    · exact Or.inr ⟨_, _, _, _, rfl⟩

theorem commInit_sound (s : Service) (n : UInt32)
    (h : n ≠ 0 ∨ ∀ d ∈ s.availableDevices, d.assigned = true) :
    (∃ err, s.commInit n = (s, .returned ⟨false, 0, []⟩ (some err))) ∨
      ∃ ds picks ranks metadata, Selected s.nextCommID s.availableDevices 0 picks ds ∧
        picks.length = n.toNat ∧ (∀ r : UInt32, ranks r = picks[r.toNat]?) ∧
        metadata.length = n.toNat ∧
        (∀ k < n.toNat, metadata[k]? = some ((picks[k]?).bind fun p => (ds[p]?).map fun d =>
          { d.metadata with rank := UInt32.ofNat k })) ∧
        s.commInit n = (({ s with availableDevices := ds } : Service).addCommunicator picks ranks,
          .returned ⟨true, s.nextCommID, metadata⟩ none) := by
  unfold commInit
  split
  · exact Or.inl ⟨_, rfl⟩
  · next hle =>
    apply Or.inr
    have hn := n.toNat_lt
    have havailable : n.toNat ≤ s.available := by
      have := UInt32.le_iff_toNat_le.mp (UInt32.not_lt.mp hle)
      rw [UInt32.toNat_ofNat'] at this
      exact Nat.le_trans this (Nat.mod_le _ _)
    obtain ⟨picks, hpicks, hselected⟩ :=
      selectDevices_selected s.nextCommID n s.availableDevices 0 []
    rw [List.nil_append] at hpicks
    have hlen : picks.length = n.toNat := by
      rw [← hpicks]
      by_cases h0 : n = 0
      · -- no device is left, and the selection stays empty
        rw [selectDevices_none _ _ _ (h.resolve_left fun hne => hne h0), h0]
        rfl
      · apply selectDevices_length
        · rw [List.length_nil]
          exact Nat.pos_of_ne_zero fun he => h0 (UInt32.toNat_inj.mp he)
        · rw [List.length_nil, Nat.zero_add]
          exact havailable
    obtain ⟨metadata, ranks, hfill, hmlen, hranks, hmeta⟩ := fillRanks_spec
      (selectDevices s.nextCommID n s.availableDevices 0 []).1 picks 0
      (List.replicate n.toNat none) (fun _ => none)
      (by rw [List.length_replicate]; omega) (by rw [List.length_replicate]; exact hn)
    dsimp only
    rw [hpicks, hfill]
    refine ⟨_, picks, ranks, metadata, hselected, hlen, ?_, ?_, ?_, rfl⟩
    · intro r
      rw [hranks r, Nat.sub_zero]
      by_cases hr : r.toNat < picks.length
      · rw [if_pos (by omega)]
      · rw [if_neg (by omega), List.getElem?_eq_none (by omega)]
    · rw [hmlen, List.length_replicate]
    · intro k hk
      rw [hmeta k, if_pos (by omega), Nat.sub_zero]

end Service

namespace Sys

/-- What a call can do to the coordinator; `commInit_cases` says it for `CommInit`. -/
inductive Effect (s : Sys) : Call → Sys → Prop
  | init (n : UInt32) : Effect s (.commInit n) ⟨(s.service.commInit n).1, s.inFlight⟩
  | idle {a : Call} {calls : List (UInt64 × Nat)} (hcalls : calls ⊆ s.inFlight) :
      Effect s a ⟨s.service, calls⟩
  | finalized {c : UInt64} {p : Nat} {comm : Communicator}
      (h : s.service.lookup c = some (p, comm)) :
      Effect s (.commFinalize c) ⟨s.service.remove c p comm .success, s.inFlight⟩
  | failed {a : Call} {c : UInt64} {p : Nat} {comm : Communicator} {calls : List (UInt64 × Nat)}
      (h : s.service.lookup c = some (p, comm)) (hcalls : calls ⊆ s.inFlight) :
      Effect s a ⟨{ s.service.remove c p comm .failed with
        commStatus := update s.service.commStatus c (some .failed) }, calls⟩
  | group {a : Call} {c : UInt64} {status : Status}
      (ha : a = .groupStart c ∧ status = .inProgress ∨ a = .groupEnd c ∧ status = .success)
      (h : s.service.commStatus c ≠ none) :
      Effect s a ⟨{ s.service with
        commStatus := update s.service.commStatus c (some status) }, s.inFlight⟩
  | began {c : UInt64} {p : Nat} {comm : Communicator}
      (h : s.service.lookup c = some (p, comm)) (hstatus : comm.status = .inProgress) :
      Effect s (.allReduceBegin c) ⟨s.service.setStatus p .inProgress, s.inFlight ++ [(c, p)]⟩
  | finished {i : Nat} {c : UInt64} {p : Nat} {calls : List (UInt64 × Nat)}
      (h : s.inFlight[i]? = some (c, p)) (hcalls : calls ⊆ s.inFlight) :
      Effect s (.allReduceFinish i) ⟨s.service.finishAllReduce c p, calls⟩

variable {s s' : Sys}

theorem step_effect {a : Call} (h : Step s a s') : Effect s a s' := by
  unfold Step at h
  cases a with
  | commInit n =>
    cases h
    exact .init n
  | commFinalize c =>
    cases h
    unfold Service.commFinalize
    split
    · exact .idle (List.Subset.refl _)
    · next hl => exact .finalized hl
  | commDestroy c =>
    cases h
    unfold Service.commDestroy
    split
    · exact .idle (List.Subset.refl _)
    · next hl => exact .failed hl (List.Subset.refl _)
  | groupStart c =>
    cases h
    unfold Service.groupStart Service.group
    split
    · exact .idle (List.Subset.refl _)
    · next hs => exact .group (Or.inl ⟨rfl, rfl⟩) (by rw [hs]; exact Option.some_ne_none _)
  | groupEnd c =>
    cases h
    unfold Service.groupEnd Service.group
    split
    · exact .idle (List.Subset.refl _)
    · next hs => exact .group (Or.inr ⟨rfl, rfl⟩) (by rw [hs]; exact Option.some_ne_none _)
  | allReduceBegin c =>
    unfold exec Service.beginAllReduce at h
    cases hl : s.service.lookup c with
    | none =>
      simp only [hl] at h
      cases h
      exact .idle (List.Subset.refl _)
    | some x =>
      by_cases hst : x.2.status = .inProgress
      · simp only [hl, hst, ne_eq, not_true_eq_false, if_false] at h
        cases h
        exact .began hl hst
      · simp only [hl, ne_eq, hst, not_false_eq_true, if_true] at h
        cases h
        exact .idle (List.Subset.refl _)
  | allReduceFinish i =>
    obtain ⟨⟨c, p⟩, hi, rfl⟩ := Option.map_eq_some_iff.mp h
    exact .finished hi (List.eraseIdx_subset)
  | allReduceFail i =>
    obtain ⟨⟨c, p⟩, hi, rfl⟩ := Option.map_eq_some_iff.mp h
    unfold Service.markCommunicatorFailed
    split
    · exact .idle (List.eraseIdx_subset)
    · next hl => exact .failed hl (List.eraseIdx_subset)

/-! ## 4. Pointers -/

/-- Two ids never lead to one communicator, and a call in flight holds the communicator of its own
id, if it is still in the map at all. -/
structure Pointers (s : Sys) : Prop where
  range : ∀ c p, s.service.communicators c = some p → p < s.service.objects.length
  inj : ∀ c c' p, s.service.communicators c = some p → s.service.communicators c' = some p → c = c'
  flight : ∀ c p, (c, p) ∈ s.inFlight → p < s.service.objects.length ∧
    ∀ c', s.service.communicators c' = some p → c' = c

theorem Pointers.start (initialDevices : List DeviceMetadata) : Pointers (Sys.start initialDevices) where
  range _ _ h := absurd h.symm (Option.some_ne_none _)
  inj _ _ _ h := absurd h.symm (Option.some_ne_none _)
  flight _ _ h := absurd h List.not_mem_nil

theorem Pointers.shrink (h : Pointers s)
    (hmap : ∀ c p, s'.service.communicators c = some p → s.service.communicators c = some p)
    (hlen : s'.service.objects.length = s.service.objects.length)
    (hcalls : s'.inFlight ⊆ s.inFlight) : Pointers s' where
  range c p hp := by
    rw [hlen]
    exact h.range c p (hmap c p hp)
  inj c c' p hp hp' := h.inj c c' p (hmap c p hp) (hmap c' p hp')
  flight c p hf := by
    rw [hlen]
    have := h.flight c p (hcalls hf)
    exact ⟨this.1, fun c' hp => this.2 c' (hmap c' p hp)⟩

theorem Pointers.add (h : Pointers s) (ds : List Device) (devices : List Nat)
    (ranks : UInt32 → Option Nat) :
    Pointers ⟨({ s.service with availableDevices := ds } : Service).addCommunicator devices ranks,
      s.inFlight⟩ := by
  -- the new pointer is past all others
  have hnew : ∀ c p, update s.service.communicators s.service.nextCommID
      (some s.service.objects.length) c = some p →
      (c = s.service.nextCommID ∧ p = s.service.objects.length) ∨
        s.service.communicators c = some p := by
    intro c p hp
    by_cases hc : c = s.service.nextCommID
    · rw [hc, update_self] at hp
      exact Or.inl ⟨hc, (Option.some.inj hp).symm⟩
    · rw [update_of_ne hc] at hp
      exact Or.inr hp
  have hlen : (s.service.objects ++ [(⟨devices, ranks, .inProgress⟩ : Communicator)]).length =
      s.service.objects.length + 1 := by simp
  constructor
  · intro c p hp
    show p < (s.service.objects ++ [_]).length
    rw [hlen]
    rcases hnew c p hp with ⟨_, he⟩ | hold
    · omega
    · have := h.range c p hold
      omega
  · intro c c' p hp hp'
    rcases hnew c p hp with ⟨hc, he⟩ | hold
    · rcases hnew c' p hp' with ⟨hc', _⟩ | hold'
      · rw [hc, hc']
      · have := h.range c' p hold'
        omega
    · rcases hnew c' p hp' with ⟨_, he⟩ | hold'
      · have := h.range c p hold
        omega
      · exact h.inj c c' p hold hold'
  · intro c p hf
    have hflight := h.flight c p hf
    constructor
    · show p < (s.service.objects ++ [_]).length
      rw [hlen]
      omega
    · intro c' hp
      rcases hnew c' p hp with ⟨_, he⟩ | hold
      · omega
      · exact hflight.2 c' hold

theorem removed_of (m : UInt64 → Option Nat) (c c' : UInt64) (p : Nat)
    (h : update m c none c' = some p) : m c' = some p := by
  by_cases hc : c' = c
  · rw [hc, update_self] at h
    exact absurd h.symm (Option.some_ne_none _)
  · rwa [update_of_ne hc] at h

theorem Pointers.step {a : Call} (h : Pointers s) (hstep : Step s a s') : Pointers s' := by
  cases step_effect hstep with
  | init n =>
    rcases s.service.commInit_cases n with ⟨err, he⟩ | ⟨ds, he⟩ | ⟨ds, picks, ranks, metadata, he⟩
    · rw [he]
      exact h
    · rw [he]
      exact h.shrink (fun _ _ hp => hp) rfl (List.Subset.refl _)
    · rw [he]
      exact h.add ds picks ranks
  | idle hcalls => exact h.shrink (fun _ _ hp => hp) rfl hcalls
  | finalized hl => exact h.shrink (removed_of _ _) (List.length_modify _ _ _) (List.Subset.refl _)
  | failed hl hcalls => exact h.shrink (removed_of _ _) (List.length_modify _ _ _) hcalls
  | group ha hc => exact h.shrink (fun _ _ hp => hp) rfl (List.Subset.refl _)
  | @began c p comm hl hstatus =>
    have hp := (Service.lookup_eq_some.mp hl).1
    have hbase : Pointers ⟨s.service.setStatus p .inProgress, s.inFlight⟩ :=
      h.shrink (fun _ _ hp => hp) (List.length_modify _ _ _) (List.Subset.refl _)
    refine ⟨hbase.range, hbase.inj, ?_⟩
    intro c' q hf
    rcases List.mem_append.mp hf with hold | hnew
    · exact hbase.flight c' q hold
    · obtain ⟨rfl, rfl⟩ := Prod.mk.inj (List.mem_singleton.mp hnew)
      exact ⟨hbase.range _ _ hp, fun c'' hp' => h.inj c'' c' q hp' hp⟩
  | finished hi hcalls => exact h.shrink (fun _ _ hp => hp) (List.length_modify _ _ _) hcalls

end Sys

end Dsml
