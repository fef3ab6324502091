import DistributedSystems.Dsml.Lifecycle

/-!
# The two records of a communicator's status

`commStatus` is what `GetCommStatus` reports and what `GroupStart` and `GroupEnd` check and write; the
`Status` field of the communicator is what `AllReduceRing` checks.  Removal takes a communicator out of
the map but leaves its entry in `commStatus`.  This module says for which runs a removed communicator
stays removed and for which runs the two records agree.
-/

namespace Dsml.Sys

open Transition Function

/-! ## 1. Removed communicators -/

/-- The call removes the live communicator `c`, which should then report this status for ever. -/
def Removes (s : Sys) (c : UInt64) : Call → Status → Prop
  | .commFinalize c', status => c' = c ∧ (s.service.live c).isSome = true ∧ status = .success
  | .commDestroy c', status => c' = c ∧ (s.service.live c).isSome = true ∧ status = .failed
  | .allReduceFail i, status => (s.inFlight[i]?).map Prod.fst = some c ∧
      (s.service.live c).isSome = true ∧ status = .failed
  | _, _ => False

/-- The call names the communicator `c` in a request that only a live one may serve. -/
def Names (c : UInt64) : Call → Prop
  | .groupStart c' => c' = c
  | .groupEnd c' => c' = c
  | .allReduceBegin c' => c' = c
  | _ => False

def Fails (s : Sys) : Call → Prop
  | .groupStart c => ∃ err, (s.service.groupStart c).2 = .returned false err
  | .groupEnd c => ∃ err, (s.service.groupEnd c).2 = .returned false err
  | .allReduceBegin c => ∃ err, (s.service.beginAllReduce c).2 = .error err
  | _ => False

/-- A condition on calls: a group operation names no removed communicator, `CommFinalize` comes when
the reported status is `SUCCESS`, an `AllReduceRing` call that ends well finds its communicator live
or reported as `SUCCESS`, and `CommInit` gives out an id that was never used. -/
def Orderly (s : Sys) : Call → Prop
  | .commInit _ => s.service.commStatus s.service.nextCommID = none
  | .commFinalize c => (s.service.live c).isSome = true → s.service.commStatus c = some .success
  | .groupStart c => s.service.commStatus c = none ∨ (s.service.live c).isSome = true
  | .groupEnd c => s.service.commStatus c = none ∨ (s.service.live c).isSome = true
  | .allReduceFinish i => ∀ call, s.inFlight[i]? = some call →
      (s.service.live call.1).isSome = true ∨ s.service.commStatus call.1 = some .success
  | .commDestroy _ | .allReduceBegin _ | .allReduceFail _ => True

instance (s : Sys) : ∀ a, Decidable (s.Orderly a)
  | .commInit _ => inferInstanceAs (Decidable (_ = _))
  | .commFinalize _ => inferInstanceAs (Decidable (_ → _))
  | .groupStart _ | .groupEnd _ => inferInstanceAs (Decidable (_ ∨ _))
  | .allReduceFinish i =>
    match h : s.inFlight[i]? with
    | none => .isTrue fun call hcall => absurd (h.symm.trans hcall).symm (Option.some_ne_none _)
    | some call =>
      decidable_of_iff ((s.service.live call.1).isSome = true ∨
          s.service.commStatus call.1 = some .success) <| by
        constructor
        · intro hc call' hcall'
          rw [h] at hcall'
          exact Option.some.inj hcall' ▸ hc
        · intro hc
          exact hc call h
  | .commDestroy _ | .allReduceBegin _ | .allReduceFail _ => .isTrue trivial

def Dead (s : Sys) (c : UInt64) (status : Status) : Prop :=
  s.service.communicators c = none ∧ s.service.commStatus c = some status

variable {status : Status} {c : UInt64} {s : Sys} {a : Call}

theorem Dead.not_live (h : Dead s c status) : s.service.live c = none := by
  unfold Service.live
  rw [Service.lookup_eq_none h.1, Option.map_none]

variable {s' : Sys}

theorem Dead.step (h : Dead s c status) (ha : s.Orderly a) (hstep : Step s a s') :
    Dead s' c status := by
  have hgroup : ∀ {c'} (st : Status),
      (s.service.commStatus c' = none ∨ (s.service.live c').isSome = true) →
      s.service.commStatus c' ≠ none →
      update s.service.commStatus c' (some st) c = some status := by
    intro c' st hnamed hne
    have hc : c ≠ c' := by
      intro hc
      have hlive := hnamed.resolve_left hne
      rw [← hc, h.not_live] at hlive
      exact absurd hlive Bool.false_ne_true
    rw [update_of_ne hc]
    exact h.2
  cases step_effect hstep with
  | init n =>
    rcases s.service.commInit_cases n with ⟨err, he⟩ | ⟨ds, he⟩ | ⟨ds, picks, ranks, metadata, he⟩
    · rw [he]
      exact h
    · rw [he]
      exact h
    · rw [he]
      -- the id of the new communicator was never used
      have hc : c ≠ s.service.nextCommID := by
        intro hc
        have hnone : s.service.commStatus s.service.nextCommID = none := ha
        rw [← hc, h.2] at hnone
        exact Option.some_ne_none _ hnone
      constructor
      · show update s.service.communicators s.service.nextCommID _ c = none
        rw [update_of_ne hc]
        exact h.1
      · show update s.service.commStatus s.service.nextCommID _ c = some status
        rw [update_of_ne hc]
        exact h.2
  | idle => exact h
  | @finalized c' p comm hl =>
    refine ⟨?_, h.2⟩
    show update s.service.communicators c' none c = none
    by_cases hc : c = c'
    · rw [hc, update_self]
    · rw [update_of_ne hc]
      exact h.1
  | @failed a c' p comm calls hl =>
    -- only a live communicator can fail
    have hc : c ≠ c' := by
      intro hc
      rw [← hc, Service.lookup_eq_none h.1] at hl
      exact absurd hl.symm (Option.some_ne_none _)
    constructor
    · show update s.service.communicators c' none c = none
      rw [update_of_ne hc]
      exact h.1
    · show update s.service.commStatus c' _ c = some status
      rw [update_of_ne hc]
      exact h.2
  | @group a c' st hkind hne =>
    refine ⟨h.1, ?_⟩
    rcases hkind with ⟨rfl, _⟩ | ⟨rfl, _⟩
    · exact hgroup st ha hne
    · exact hgroup st ha hne
  | began => exact h
  | @finished i c' p calls hi =>
    refine ⟨h.1, ?_⟩
    show update s.service.commStatus c' (some .success) c = some status
    by_cases hc : c = c'
    · rcases ha (c', p) hi with hlive | hsuccess
      · rw [← hc, h.not_live] at hlive
        exact absurd hlive Bool.false_ne_true
      · rw [← hc, h.2] at hsuccess
        rw [hc, update_self, ← hsuccess]
    · rw [update_of_ne hc]
      exact h.2

theorem Removes.dead (h : s.Removes c a status) (ha : s.Orderly a) (hstep : Step s a s') :
    Dead s' c status := by
  have hlookup : (s.service.live c).isSome = true → ∃ p comm, s.service.lookup c = some (p, comm) := by
    intro hlive
    obtain ⟨comm, hcomm⟩ := Option.isSome_iff_exists.mp hlive
    obtain ⟨p, hp⟩ := Service.live_eq_some.mp hcomm
    exact ⟨p, comm, hp⟩
  cases a with
  | commFinalize c' =>
    obtain ⟨rfl, hlive, rfl⟩ := h
    obtain ⟨p, comm, hl⟩ := hlookup hlive
    cases hstep
    unfold Service.commFinalize
    rw [hl]
    exact ⟨update_self _ _ _, ha hlive⟩
  | commDestroy c' =>
    obtain ⟨rfl, hlive, rfl⟩ := h
    obtain ⟨p, comm, hl⟩ := hlookup hlive
    cases hstep
    unfold Service.commDestroy
    rw [hl]
    exact ⟨update_self _ _ _, update_self _ _ _⟩
  | allReduceFail i =>
    obtain ⟨hi, hlive, rfl⟩ := h
    obtain ⟨p, comm, hl⟩ := hlookup hlive
    obtain ⟨call, hcall, rfl⟩ := Option.map_eq_some_iff.mp hi
    obtain ⟨call', hcall', rfl⟩ := Option.map_eq_some_iff.mp hstep
    obtain rfl := Option.some.inj (hcall.symm.trans hcall')
    unfold Service.markCommunicatorFailed
    rw [hl]
    exact ⟨update_self _ _ _, update_self _ _ _⟩
  | commInit n => exact h.elim
  | groupStart c' => exact h.elim
  | groupEnd c' => exact h.elim
  | allReduceBegin c' => exact h.elim
  | allReduceFinish i => exact h.elim

theorem dead_of_removed {initialDevices : List DeviceMetadata} {past : List (Sys × Call)}
    (hr : Reaches initialDevices past s) (horderly : ∀ x ∈ past, x.1.Orderly x.2) {x : Sys}
    (hx : (x, a) ∈ past) (hremoved : x.Removes c a status) :
    Dead s c status := by
  induction hr with
  | start => exact absurd hx List.not_mem_nil
  | @next past s s' b _ hstep ih =>
    have hb : s.Orderly b := horderly (s, b) List.mem_cons_self
    rcases List.mem_cons.mp hx with he | hold
    · obtain ⟨rfl, rfl⟩ := Prod.mk.inj he
      exact hremoved.dead hb hstep
    · have hdead := ih (fun y hy => horderly y (List.mem_cons_of_mem _ hy)) hold
      exact hdead.step hb hstep

/-- In an orderly run a removed communicator keeps the status of its removal, and no orderly request
that names it succeeds. -/
theorem removed_communicator_stays_dead {initialDevices : List DeviceMetadata}
    {past : List (Sys × Call)} {s : Sys} (hr : Reaches initialDevices past s)
    (horderly : ∀ x ∈ past, x.1.Orderly x.2) {x : Sys} {a : Call} (hx : (x, a) ∈ past) {c : UInt64}
    {status : Status} (hremoved : x.Removes c a status) :
    s.service.getCommStatus c = status ∧ ∀ b, Names c b → s.Orderly b → s.Fails b := by
  have hdead := dead_of_removed hr horderly hx hremoved
  constructor
  · unfold Service.getCommStatus
    rw [hdead.2, Option.getD_some]
  · intro b hnames hb
    have hgroup : ¬ (s.service.commStatus c = none ∨ (s.service.live c).isSome = true) := by
      rw [hdead.2, hdead.not_live]
      simp
    cases b with
    | groupStart c' =>
      obtain rfl : c' = c := hnames
      exact absurd hb hgroup
    | groupEnd c' =>
      obtain rfl : c' = c := hnames
      exact absurd hb hgroup
    | allReduceBegin c' =>
      obtain rfl : c' = c := hnames
      refine ⟨.doesNotExist c', ?_⟩
      unfold Service.beginAllReduce
      rw [Service.lookup_eq_none hdead.1]
    | commInit n => exact hnames.elim
    | commFinalize c' => exact hnames.elim
    | commDestroy c' => exact hnames.elim
    | allReduceFinish i => exact hnames.elim
    | allReduceFail i => exact hnames.elim

def oneDevice : List DeviceMetadata := [⟨1, 0x1000, 0x1FFFFF, 0⟩]

def finalized : List (Sys × Call) × Sys :=
  replay exec [] (start oneDevice)
    [.commInit 1, .groupStart 1, .allReduceBegin 1, .allReduceFinish 0, .groupEnd 1,
      .commFinalize 1, .commInit 1]

theorem removed_communicator_stays_dead_finalized :
    (∀ x ∈ finalized.1, x.1.Orderly x.2) ∧
      (∃ x ∈ finalized.1, x.1.Removes 1 x.2 .success) ∧
      finalized.2.service.getCommStatus 1 = .success ∧
      (∀ b, Names 1 b → finalized.2.Orderly b → finalized.2.Fails b) := by
  have hremoved : ∃ x ∈ finalized.1, x.1.Removes 1 x.2 .success :=
    ⟨_, List.mem_cons_of_mem _ List.mem_cons_self, rfl, rfl, rfl⟩
  refine ⟨by decide +kernel, hremoved, ?_⟩
  have hr : Reaches oneDevice finalized.1 finalized.2 :=
    replay_run (fun _ _ _ h => h) _ _ _ (Run.start rfl)
  obtain ⟨x, hx, hrem⟩ := hremoved
  exact removed_communicator_stays_dead hr (by decide +kernel) hx hrem

def finalizedAtOnce : List (Sys × Call) × Sys :=
  replay exec [] (start oneDevice) [.commInit 1, .commFinalize 1]

def destroyedInFlight : List (Sys × Call) × Sys :=
  replay exec [] (start oneDevice) [.commInit 1, .allReduceBegin 1, .commDestroy 1]

/-- A finalized communicator is not reported as finalized and serves `GroupEnd`, which changes its
status; a reduction that ends after the destruction turns `FAILED` into `SUCCESS`. -/
theorem removed_communicator_revives :
    (Reaches oneDevice finalizedAtOnce.1 finalizedAtOnce.2 ∧
      (∃ x ∈ finalizedAtOnce.1, x.1.Removes 1 x.2 .success) ∧
      finalizedAtOnce.2.service.getCommStatus 1 = .inProgress ∧
      (finalizedAtOnce.2.service.groupEnd 1).2 = .returned true none ∧
      (finalizedAtOnce.2.service.groupEnd 1).1.getCommStatus 1 = .success) ∧
    (Reaches oneDevice destroyedInFlight.1 destroyedInFlight.2 ∧
      (∃ x ∈ destroyedInFlight.1, x.1.Removes 1 x.2 .failed) ∧
      destroyedInFlight.2.service.getCommStatus 1 = .failed ∧
      (destroyedInFlight.2.exec (.allReduceFinish 0)).map (·.service.getCommStatus 1) =
        some .success) :=
  ⟨⟨replay_run (fun _ _ _ h => h) _ _ _ (Run.start rfl),
      ⟨_, List.mem_cons_self, rfl, rfl, rfl⟩, rfl, rfl, rfl⟩,
    ⟨replay_run (fun _ _ _ h => h) _ _ _ (Run.start rfl),
      ⟨_, List.mem_cons_self, rfl, rfl, rfl⟩, rfl, rfl⟩⟩

/-! ## 2. Agreement of the two records -/

/-- A condition on calls: a group operation on a live communicator writes the status that the
communicator has already, and `CommInit` gives out no id that a reduction in flight works for. -/
def StatusKept (s : Sys) : Call → Prop
  | .commInit _ => ∀ call ∈ s.inFlight, call.1 ≠ s.service.nextCommID
  | .groupStart c => ∀ comm ∈ s.service.live c, comm.status = .inProgress
  | .groupEnd c => ∀ comm ∈ s.service.live c, comm.status = .success
  | .commFinalize _ | .commDestroy _ | .allReduceBegin _ | .allReduceFinish _ | .allReduceFail _ => True

instance (s : Sys) : ∀ a, Decidable (s.StatusKept a)
  | .commInit _ => inferInstanceAs (Decidable (∀ call ∈ s.inFlight, _))
  | .groupStart _ | .groupEnd _ => inferInstanceAs (Decidable (∀ comm ∈ s.service.live _, _))
  | .commFinalize _ | .commDestroy _ | .allReduceBegin _ => .isTrue trivial
  | .allReduceFinish _ | .allReduceFail _ => .isTrue trivial

/-- The two records agree, and a call in flight holds the communicator that is live under its id. -/
structure Agreement (s : Sys) : Prop where
  pointers : Pointers s
  agree : ∀ c p comm, s.service.lookup c = some (p, comm) →
    s.service.commStatus c = some comm.status
  held : ∀ c p q, (c, p) ∈ s.inFlight → s.service.communicators c = some q → q = p

theorem Agreement.start (initialDevices : List DeviceMetadata) :
    Agreement (Sys.start initialDevices) where
  pointers := Pointers.start initialDevices
  agree _ _ _ h := absurd h.symm (Option.some_ne_none _)
  held _ _ _ h := absurd h List.not_mem_nil

theorem lookup_of_setStatus {s : Service} {p q : Nat} {comm : Communicator}
    (h : (s.setStatus p status).lookup c = some (q, comm)) :
    ∃ old, s.lookup c = some (q, old) ∧
      comm = if p = q then { old with status := status } else old := by
  rw [Service.lookup_setStatus] at h
  obtain ⟨⟨q', old⟩, hold, he⟩ := Option.map_eq_some_iff.mp h
  obtain ⟨rfl, rfl⟩ := Prod.mk.inj he
  exact ⟨old, hold, rfl⟩

theorem lookup_of_remove (hp : Pointers s) {c' : UInt64} {p q : Nat} {comm comm' : Communicator}
    (hl : s.service.lookup c = some (p, comm))
    (h : (s.service.remove c p comm status).lookup c' = some (q, comm')) :
    c' ≠ c ∧ s.service.lookup c' = some (q, comm') := by
  rw [Service.lookup_remove] at h
  by_cases hc : c' = c
  · rw [if_pos hc] at h
    exact absurd h.symm (Option.some_ne_none _)
  · rw [if_neg hc] at h
    obtain ⟨old, hold, he⟩ := lookup_of_setStatus h
    have hne : p ≠ q := by
      intro hpq
      apply hc
      exact hp.inj c' c q (Service.lookup_eq_some.mp hold).1 (hpq ▸ (Service.lookup_eq_some.mp hl).1)
    rw [if_neg hne] at he
    exact ⟨hc, he ▸ hold⟩

theorem Agreement.init (h : Agreement s) {n : UInt32} (ha : s.StatusKept (.commInit n)) :
    Agreement ⟨(s.service.commInit n).1, s.inFlight⟩ := by
  have hpointers : Pointers ⟨(s.service.commInit n).1, s.inFlight⟩ :=
    h.pointers.step (a := .commInit n) rfl
  rcases s.service.commInit_cases n with ⟨err, he⟩ | ⟨ds, he⟩ | ⟨ds, picks, ranks, metadata, he⟩
  · rw [he] at hpointers ⊢
    exact h
  · rw [he] at hpointers ⊢
    exact ⟨hpointers, h.agree, h.held⟩
  · rw [he] at hpointers ⊢
    refine ⟨hpointers, ?_, ?_⟩
    · intro c p comm hl
      have hlookup := Service.lookup_addCommunicator (s := { s.service with availableDevices := ds })
        picks ranks h.pointers.range c
      rw [hlookup] at hl
      show update s.service.commStatus s.service.nextCommID (some .inProgress) c = _
      by_cases hc : c = s.service.nextCommID
      · rw [if_pos hc] at hl
        rw [hc, update_self, ← (Prod.mk.inj (Option.some.inj hl)).2]
      · rw [if_neg hc] at hl
        rw [update_of_ne hc]
        exact h.agree c p comm hl
    · intro c p q hf hq
      have hc : c ≠ s.service.nextCommID := ha (c, p) hf
      have hq : update s.service.communicators s.service.nextCommID _ c = some q := hq
      rw [update_of_ne hc] at hq
      exact h.held c p q hf hq

theorem Agreement.step (h : Agreement s) (ha : s.StatusKept a) (hstep : Step s a s') :
    Agreement s' := by
  have hpointers := h.pointers.step hstep
  cases step_effect hstep with
  | init n => exact h.init ha
  | idle hcalls => exact ⟨hpointers, h.agree, fun c p q hf => h.held c p q (hcalls hf)⟩
  | @finalized c p comm hl =>
    refine ⟨hpointers, ?_, ?_⟩
    · intro c' q comm' hl'
      exact h.agree c' q comm' (lookup_of_remove h.pointers hl hl').2
    · intro c' q q' hf hq
      exact h.held c' q q' hf (removed_of _ _ _ _ hq)
  | @failed a c p comm calls hl hcalls =>
    refine ⟨hpointers, ?_, ?_⟩
    · intro c' q comm' hl'
      obtain ⟨hc, hold⟩ := lookup_of_remove h.pointers hl hl'
      show update s.service.commStatus c _ c' = _
      rw [update_of_ne hc]
      exact h.agree c' q comm' hold
    · intro c' q q' hf hq
      exact h.held c' q q' (hcalls hf) (removed_of _ _ _ _ hq)
  | @group a c status hkind hne =>
    refine ⟨hpointers, ?_, h.held⟩
    intro c' p comm hl
    show update s.service.commStatus c (some status) c' = _
    by_cases hc : c' = c
    · have hlive : comm ∈ s.service.live c := Service.live_eq_some.mpr ⟨p, hc ▸ hl⟩
      rw [hc, update_self]
      rcases hkind with ⟨rfl, rfl⟩ | ⟨rfl, rfl⟩
      · rw [ha comm hlive]
      · rw [ha comm hlive]
    · rw [update_of_ne hc]
      exact h.agree c' p comm hl
  | @began c p comm hl hstatus =>
    refine ⟨hpointers, ?_, ?_⟩
    · intro c' q comm' hl'
      obtain ⟨old, hold, he⟩ := lookup_of_setStatus hl'
      show s.service.commStatus c' = _
      rw [h.agree c' q old hold, he]
      by_cases hpq : p = q
      · -- the write stores what was there
        have hobjects := (Service.lookup_eq_some.mp hold).2
        rw [← hpq, (Service.lookup_eq_some.mp hl).2] at hobjects
        rw [if_pos hpq, ← Option.some.inj hobjects, hstatus]
      · rw [if_neg hpq]
    · intro c' q q' hf hq
      rcases List.mem_append.mp hf with hold | hnew
      · exact h.held c' q q' hold hq
      · obtain ⟨rfl, rfl⟩ := Prod.mk.inj (List.mem_singleton.mp hnew)
        exact Option.some.inj (hq.symm.trans (Service.lookup_eq_some.mp hl).1)
  | @finished i c p calls hi hcalls =>
    refine ⟨hpointers, ?_, fun c' q q' hf hq => h.held c' q q' (hcalls hf) hq⟩
    have hflight : (c, p) ∈ s.inFlight := List.mem_of_getElem? hi
    intro c' q comm' hl'
    have hl' : (s.service.setStatus p .success).lookup c' = some (q, comm') := hl'
    obtain ⟨old, hold, he⟩ := lookup_of_setStatus hl'
    have hq := (Service.lookup_eq_some.mp hold).1
    show update s.service.commStatus c (some .success) c' = _
    by_cases hc : c' = c
    · have hpq : p = q := (h.held c p q hflight (hc ▸ hq)).symm
      rw [hc, update_self, he, if_pos hpq]
    · have hpq : p ≠ q := fun hpq => hc ((h.pointers.flight c p hflight).2 c' (hpq ▸ hq))
      rw [update_of_ne hc, he, if_neg hpq]
      exact h.agree c' q old hold

/-- In a run that meets the condition `GetCommStatus` reports the status that `AllReduceRing`
consults, and a reduction right after a successful `GroupStart` is not turned down for its status. -/
theorem status_agreement {initialDevices : List DeviceMetadata} {past : List (Sys × Call)} {s : Sys}
    (hr : Reaches initialDevices past s) (hkept : ∀ x ∈ past, x.1.StatusKept x.2) :
    (∀ c comm, s.service.live c = some comm → s.service.getCommStatus c = comm.status) ∧
      ∀ c, s.StatusKept (.groupStart c) → (s.service.groupStart c).2 = .returned true none →
        ((s.service.groupStart c).1.beginAllReduce c).2 ≠ .error (.notInProgress c) := by
  have h : Agreement s := by
    apply hr.invariant_of _ _ hkept
    · intro s hs
      rw [hs]
      exact Agreement.start initialDevices
    · intro s a s' h ha hstep
      exact h.step ha hstep
  constructor
  · intro c comm hlive
    obtain ⟨p, hl⟩ := Service.live_eq_some.mp hlive
    unfold Service.getCommStatus
    rw [h.agree c p comm hl, Option.getD_some]
  · intro c hc _
    have hsame : (s.service.groupStart c).1.lookup c = s.service.lookup c := by
      unfold Service.groupStart Service.group
      split <;> rfl
    unfold Service.beginAllReduce
    rw [hsame]
    cases hl : s.service.lookup c with
    | none => simp
    | some x =>
      have hstatus : x.2.status = .inProgress := hc x.2 (Service.live_eq_some.mpr ⟨x.1, hl⟩)
      simp [hstatus]

theorem status_agreement_finalized :
    (∀ x ∈ finalized.1, x.1.StatusKept x.2) ∧
      (finalized.2.service.live 2).isSome = true ∧
      (∀ c comm, finalized.2.service.live c = some comm →
        finalized.2.service.getCommStatus c = comm.status) := by
  have hr : Reaches oneDevice finalized.1 finalized.2 :=
    replay_run (fun _ _ _ h => h) _ _ _ (Run.start rfl)
  exact ⟨by decide +kernel, rfl, (status_agreement hr (by decide +kernel)).1⟩

def secondGroup : List (Sys × Call) × Sys :=
  replay exec [] (start oneDevice)
    [.commInit 1, .groupStart 1, .allReduceBegin 1, .allReduceFinish 0, .groupEnd 1, .groupStart 1]

/-- The second `GroupStart` is answered with success, and the reduction after it is turned down. -/
theorem second_group_refused :
    Reaches oneDevice secondGroup.1 secondGroup.2 ∧
      secondGroup.2.service.getCommStatus 1 = .inProgress ∧
      (secondGroup.2.service.live 1).map (·.status) = some .success ∧
      (secondGroup.2.service.beginAllReduce 1).2 = .error (.notInProgress 1) :=
  ⟨replay_run (fun _ _ _ h => h) _ _ _ (Run.start rfl), rfl, rfl, rfl⟩

end Dsml.Sys
