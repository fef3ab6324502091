import DistributedSystems.Library.Runs
import DistributedSystems.ShardedKv.Checker

/-!
# The stress test and its checker (`cmd/stress/tester.go`)

Writers and readers of registers with expiry, each of whose calls to the checker is one step, in any
interleaving.  A write takes effect at one moment between `BeginWrite` and `CompleteWrite`, or never
if it reports an error.
-/

namespace ShardedKv

open Transition ConsistencyChecker Function

/-! ## 1. State -/

structure Written where
  value : String
  effectAt : Int
deriving DecidableEq

inductive WritePhase where
  | started
  | writing (initialVersion : Int)
  | returned (initialVersion endTime : Int) (err : Option String)
  | completed
deriving DecidableEq

structure Writer where
  key : String
  value : String
  startTime : Int
  effect : Option Int
  phase : WritePhase

inductive ReadPhase where
  | started
  | reading (initialVersion : Int) (writesPending : Bool)
  /-- The register held `seen` when it was read. -/
  | returned (initialVersion : Int) (writesPending : Bool) (seen : Option Written) (readAt : Int)
  | checked (err : Option CheckError)

structure Reader where
  key : String
  startTime : Int
  phase : ReadPhase

structure Stress where
  now : Int
  cc : ConsistencyChecker
  register : String → Option Written
  writers : List Writer
  readers : List Reader

structure StressFlags where
  checker : CheckerFlags
  ttl : Int

namespace StressFlags

/-- What a `Get` returns: a value is readable until its TTL is over. -/
def readable (flags : StressFlags) (now : Int) (held : Option Written) : Option String :=
  held.bind fun w => if w.effectAt + flags.ttl < now then none else some w.value

end StressFlags

namespace Writer

def pending (w : Writer) : Bool :=
  match w.phase with
  | .writing _ | .returned .. => true
  | _ => false

def pendingOn (key : String) (w : Writer) : Bool := w.pending && decide (w.key = key)

theorem pendingOn_iff {key : String} {w : Writer} :
    w.pendingOn key = true ↔ w.pending = true ∧ w.key = key := by
  simp [pendingOn]

def initialVersion (w : Writer) : Option Int :=
  match w.phase with
  | .writing v | .returned v .. => some v
  | _ => none

def failed (w : Writer) : Bool :=
  match w.phase with
  | .returned _ _ (some _) => true
  | _ => false

theorem pending_of_initialVersion {w : Writer} {v : Int} (h : w.initialVersion = some v) :
    w.pending = true := by
  unfold initialVersion at h
  unfold pending
  cases hp : w.phase with
  | started =>
    rw [hp] at h
    contradiction
  | completed =>
    rw [hp] at h
    contradiction
  | writing version => rfl
  | returned version endTime err => rfl

end Writer

/-! ## 2. Steps -/

inductive StressEvent where
  | tick (dt : Nat)
  | startSet (key value : String)
  | beginWrite (i : Nat)
  | takeEffect (i : Nat)
  | returnSet (i : Nat) (err : Option String)
  | completeWrite (i : Nat)
  | startGet (key : String)
  | beginRead (i : Nat)
  | read (i : Nat)
  | checkReadCorrect (i : Nat)

namespace Stress

def setWriter (s : Stress) (i : Nat) (w : Writer) : Stress :=
  { s with writers := s.writers.set i w }

def setReader (s : Stress) (i : Nat) (r : Reader) : Stress :=
  { s with readers := s.readers.set i r }

def writeStep (flags : StressFlags) (s : Stress) (i : Nat) (w : Writer) :
    StressEvent → Option Stress
  | .beginWrite _ =>
    match w.phase with
    | .started =>
      let (cc, version) := s.cc.beginWrite flags.checker w.key
      some ({ s with cc }.setWriter i { w with phase := .writing version })
    | _ => none
  | .takeEffect _ =>
    if w.pending = true ∧ w.effect = none then
      some ({ s with register := update s.register w.key (some ⟨w.value, s.now⟩) }.setWriter
        i { w with effect := some s.now })
    else none
  | .returnSet _ err =>
    match w.phase with
    | .writing version => some (s.setWriter i { w with phase := .returned version s.now err })
    | _ => none
  | .completeWrite _ =>
    match w.phase with
    | .returned version endTime err =>
      if err = none ∧ w.effect = none then none
      else do
        let cc ← s.cc.completeWrite flags.checker s.now w.key w.value err version
          (w.startTime + flags.ttl) (endTime + flags.ttl)
        some ({ s with cc }.setWriter i { w with phase := .completed })
    | _ => none
  | _ => none

def verdict (flags : StressFlags) (s : Stress) (r : Reader) :
    Option (ConsistencyChecker × Option CheckError) :=
  match r.phase with
  | .returned version writesPending seen readAt =>
    some (s.cc.checkReadCorrect flags.checker s.now r.key (flags.readable readAt seen) r.startTime
      version writesPending)
  | _ => none

def readStep (flags : StressFlags) (s : Stress) (i : Nat) (r : Reader) :
    StressEvent → Option Stress
  | .beginRead _ =>
    match r.phase with
    | .started =>
      let (version, writesPending) := s.cc.beginRead flags.checker r.key
      some (s.setReader i { r with phase := .reading version writesPending })
    | _ => none
  | .read _ =>
    match r.phase with
    | .reading version writesPending =>
      some (s.setReader i
        { r with phase := .returned version writesPending (s.register r.key) s.now })
    | _ => none
  | .checkReadCorrect _ => do
    let (cc, err) ← s.verdict flags r
    some ({ s with cc }.setReader i { r with phase := .checked err })
  | _ => none

def perform (flags : StressFlags) (s : Stress) (a : StressEvent) : Option Stress :=
  match a with
  | .tick dt => some { s with now := s.now + dt }
  | .startSet key value =>
    some { s with writers := s.writers ++ [⟨key, value, s.now, none, .started⟩] }
  | .beginWrite i | .takeEffect i | .returnSet i _ | .completeWrite i =>
    s.writers[i]?.bind fun w => s.writeStep flags i w a
  | .startGet key => some { s with readers := s.readers ++ [⟨key, s.now, .started⟩] }
  | .beginRead i | .read i | .checkReadCorrect i =>
    s.readers[i]?.bind fun r => s.readStep flags i r a

structure Initial (s : Stress) : Prop where
  cc : s.cc = makeConsistencyChecker
  register : ∀ key, s.register key = none
  writers : s.writers = []
  readers : s.readers = []

abbrev Reaches (flags : StressFlags) : List (Stress × StressEvent) → Stress → Prop :=
  Run Initial fun s a s' => s.perform flags a = some s'

end Stress

/-! ## 3. Counting -/

section Counting

variable {α : Type} {p : α → Bool} {l : List α}

variable {i : Nat}

variable {old : α}

theorem countP_set_add {new : α} (h : l[i]? = some old) :
    (l.set i new).countP p + (p old).toNat = l.countP p + (p new).toNat := by
  obtain ⟨hi, hold⟩ := List.getElem?_eq_some_iff.mp h
  rw [List.countP_set hi, hold]
  -- the element that goes is one of those counted
  have hpos : p old = true → 0 < l.countP p := fun hp =>
    List.countP_pos_iff.mpr ⟨old, List.mem_of_getElem? h, hp⟩
  cases hp : p old with
  | true =>
    have := hpos hp
    cases p new <;> simp <;> omega
  | false => cases p new <;> simp

theorem eq_of_countP_one (h : l.countP p = 1) {a b : α} (ha : a ∈ l) (hb : b ∈ l)
    (hpa : p a = true) (hpb : p b = true) : a = b := by
  rw [List.countP_eq_length_filter] at h
  obtain ⟨x, hx⟩ := List.length_eq_one_iff.mp h
  have hmem : ∀ y, y ∈ l → p y = true → y = x := by
    intro y hy hp
    have : y ∈ l.filter p := List.mem_filter.mpr ⟨hy, hp⟩
    rw [hx] at this
    exact List.mem_singleton.mp this
  rw [hmem a ha hpa, hmem b hb hpb]

theorem mem_set_or_eq {new a : α} (h : l[i]? = some old) (ha : a ∈ l) :
    a ∈ l.set i new ∨ a = old := by
  obtain ⟨j, hj⟩ := List.mem_iff_getElem?.mp ha
  by_cases hij : i = j
  · right
    rw [← hij, h] at hj
    exact (Option.some.inj hj).symm
  · left
    apply List.mem_iff_getElem?.mpr
    exact ⟨j, by rw [List.getElem?_set_ne hij, hj]⟩

theorem mem_set_self (new : α) (h : l[i]? = some old) : new ∈ l.set i new :=
  List.mem_set (List.getElem?_eq_some_iff.mp h).1 new

end Counting

/-! ## 4. The invariant -/

namespace Stress

/-- The entry that the checker has for what the register holds. -/
def Records (flags : StressFlags) (held : Written) (val : StateValue) : Prop :=
  val.maybeExpiredBy ≤ held.effectAt + flags.ttl ∧
    (val.err = none → held.effectAt + flags.ttl ≤ val.definitelyExpiredBy)

structure WriterOk (s : Stress) (w : Writer) : Prop where
  version : ∀ v, w.initialVersion = some v → v ≤ s.cc.version w.key
  /-- A write that overlaps no other is the last one to take effect. -/
  alone : ∀ t, w.initialVersion = some (s.cc.version w.key) → s.cc.rc w.key = 1 →
    w.effect = some t → s.register w.key = some ⟨w.value, t⟩
  written : w.effect ≠ none → s.register w.key ≠ none
  start : w.startTime ≤ s.now
  effect : ∀ t, w.effect = some t → w.startTime ≤ t ∧ t ≤ s.now
  idle : w.phase = .started → w.effect = none
  prompt : ∀ v e, w.phase = .returned v e none → ∃ t, w.effect = some t ∧ t ≤ e

def ReaderOk (s : Stress) (r : Reader) : Prop :=
  r.startTime ≤ s.now ∧
    match r.phase with
    | .reading version _ => version ≤ s.cc.version r.key
    | .returned version writesPending seen readAt =>
      version ≤ s.cc.version r.key ∧ r.startTime ≤ readAt ∧ readAt ≤ s.now ∧
        (s.cc.version r.key = version → writesPending = false → s.cc.rc r.key = 0 →
          s.register r.key = seen)
    | _ => True

structure Inv (flags : StressFlags) (s : Stress) : Prop where
  count : ∀ key, s.cc.rc key = s.writers.countP (Writer.pendingOn key)
  writer : ∀ w ∈ s.writers, s.WriterOk w
  reader : ∀ r ∈ s.readers, s.ReaderOk r
  /-- What a register holds is known to the checker, or its write is pending. -/
  recorded : ∀ key held, s.register key = some held →
    (∃ val, (s.cc.values key).lookup held.value = some val ∧ Records flags held val) ∨
      ∃ w ∈ s.writers, w.pendingOn key = true ∧ w.value = held.value ∧ w.effect = some held.effectAt
  nonempty : ∀ key, s.cc.values key ≠ ∅ → s.register key ≠ none

/-- Time passes, and a register changes only under a pending write. -/
structure Advance (s s' : Stress) : Prop where
  now : s.now ≤ s'.now
  version : ∀ key, s.cc.version key ≤ s'.cc.version key
  quiet : ∀ key, s'.cc.version key = s.cc.version key → s'.cc.rc key = 0 →
    s.cc.rc key = 0 ∧ s'.register key = s.register key

variable {flags : StressFlags} {s : Stress} {i : Nat} {w : Writer} {r : Reader} {version : Int}

variable {s' : Stress}

theorem ReaderOk.advance (h : Advance s s') (hr : s.ReaderOk r) : s'.ReaderOk r := by
  have hnow := h.now
  have hversion := h.version r.key
  obtain ⟨hstart, hphase⟩ := hr
  refine ⟨by omega, ?_⟩
  cases hp : r.phase with
  | started => trivial
  | checked err => trivial
  | reading version writesPending =>
    rw [hp] at hphase
    omega
  | returned version writesPending seen readAt =>
    rw [hp] at hphase
    obtain ⟨hle, hfrom, hto, hseen⟩ := hphase
    refine ⟨by omega, hfrom, by omega, fun hv hw hrc => ?_⟩
    -- no write has completed since the read began
    have hsame : s'.cc.version r.key = s.cc.version r.key := by omega
    obtain ⟨hrc', hregister⟩ := h.quiet r.key hsame hrc
    rw [hregister]
    exact hseen (by omega) hw hrc'

theorem Inv.rc_pos (h : s.Inv flags) (hw : w ∈ s.writers) (hp : w.pending = true) :
    1 ≤ s.cc.rc w.key := by
  have hpos : 0 < s.writers.countP (Writer.pendingOn w.key) :=
    List.countP_pos_iff.mpr ⟨w, hw, Writer.pendingOn_iff.mpr ⟨hp, rfl⟩⟩
  rw [h.count]
  omega

theorem WriterOk.advance (h : Advance s s') (hw : s.WriterOk w)
    (hkept : s.register w.key ≠ none → s'.register w.key ≠ none)
    (halone : ∀ t, w.initialVersion = some (s'.cc.version w.key) → s'.cc.rc w.key = 1 →
      w.effect = some t → s'.register w.key = some ⟨w.value, t⟩) : s'.WriterOk w where
  version v hv := Int.le_trans (hw.version v hv) (h.version w.key)
  alone := halone
  written he := hkept (hw.written he)
  start := Int.le_trans hw.start h.now
  effect t ht := ⟨(hw.effect t ht).1, Int.le_trans (hw.effect t ht).2 h.now⟩
  idle := hw.idle
  prompt := hw.prompt

theorem Inv.withReaders (h : s.Inv flags) (hnow : s.now ≤ s'.now)
    (hversion : s'.cc.version = s.cc.version) (hrc : s'.cc.rc = s.cc.rc)
    (hvalues : s'.cc.values = s.cc.values) (hregister : s'.register = s.register)
    (hwriters : s'.writers = s.writers) (hreaders : Advance s s' → ∀ r ∈ s'.readers, s'.ReaderOk r) :
    s'.Inv flags := by
  have hadvance : Advance s s' := by
    refine ⟨hnow, fun key => by rw [hversion], fun key _ hzero => ?_⟩
    rw [hrc] at hzero
    exact ⟨hzero, by rw [hregister]⟩
  refine ⟨?_, ?_, hreaders hadvance, ?_, ?_⟩
  · rw [hrc, hwriters]
    exact h.count
  · rw [hwriters]
    intro w hw
    apply (h.writer w hw).advance hadvance
    · rw [hregister]
      exact id
    · rw [hversion, hrc, hregister]
      exact (h.writer w hw).alone
  · rw [hregister, hvalues, hwriters]
    exact h.recorded
  · rw [hvalues, hregister]
    exact h.nonempty

theorem Inv.tick (h : s.Inv flags) (dt : Nat) :
    ({ s with now := s.now + dt } : Stress).Inv flags := by
  refine h.withReaders ?_ rfl rfl rfl rfl rfl ?_
  · dsimp only
    omega
  · exact fun hadvance r hr => (h.reader r hr).advance hadvance

theorem Inv.setReader (h : s.Inv flags)
    (hr : ∀ s' : Stress, s'.now = s.now → s'.cc = s.cc → s'.register = s.register →
      s'.ReaderOk r) : (s.setReader i r).Inv flags := by
  refine h.withReaders (Int.le_refl _) rfl rfl rfl rfl rfl ?_
  intro hadvance q hq
  rcases List.mem_or_eq_of_mem_set hq with hold | rfl
  · exact (h.reader q hold).advance hadvance
  · exact hr _ rfl rfl rfl

theorem Inv.startGet (h : s.Inv flags) (key : String) :
    ({ s with readers := s.readers ++ [⟨key, s.now, .started⟩] } : Stress).Inv flags := by
  refine h.withReaders (Int.le_refl _) rfl rfl rfl rfl rfl ?_
  intro hadvance r hr
  rcases List.mem_append.mp hr with hold | hnew
  · exact (h.reader r hold).advance hadvance
  · rw [List.mem_singleton.mp hnew]
    exact ⟨Int.le_refl _, trivial⟩

/-! ## 5. Steps of writers -/

theorem Inv.startSet (h : s.Inv flags) (key value : String) :
    ({ s with writers := s.writers ++ [⟨key, value, s.now, none, .started⟩] } : Stress).Inv
      flags := by
  have hadvance : Advance s { s with writers := s.writers ++ [⟨key, value, s.now, none, .started⟩] } :=
    ⟨Int.le_refl _, fun _ => Int.le_refl _, fun _ _ hzero => ⟨hzero, rfl⟩⟩
  refine ⟨fun k => ?_, fun w hw => ?_, fun r hr => (h.reader r hr).advance hadvance,
    fun k held hheld => ?_, h.nonempty⟩
  · rw [List.countP_append]
    exact h.count k
  · rcases List.mem_append.mp hw with hold | hnew
    · exact (h.writer w hold).advance hadvance id (h.writer w hold).alone
    · rw [List.mem_singleton.mp hnew]
      refine ⟨?_, ?_, fun he => absurd rfl he, Int.le_refl _, ?_, fun _ => rfl, ?_⟩
      · intro v hv
        contradiction
      · intro t hv
        contradiction
      · intro t ht
        contradiction
      · intro v e hphase
        contradiction
  · refine (h.recorded k held hheld).imp_right ?_
    intro ⟨w, hw, hpending, hvalue, heffect⟩
    exact ⟨w, List.mem_append_left _ hw, hpending, hvalue, heffect⟩

theorem Inv.count_set (h : s.Inv flags) (hi : s.writers[i]? = some w) (new : Writer)
    (hkey : new.key = w.key) (f : String → Int) (hother : ∀ key, key ≠ w.key → f key = s.cc.rc key)
    (hself : f w.key + w.pending.toNat = s.cc.rc w.key + new.pending.toNat) (key : String) :
    f key = (s.writers.set i new).countP (Writer.pendingOn key) := by
  have hset : (s.writers.set i new).countP (Writer.pendingOn key) + _ = _ := countP_set_add hi
  have hcount := h.count key
  unfold Writer.pendingOn at hset
  rw [hkey] at hset
  by_cases hk : key = w.key
  · rw [← hk] at hset hself
    simp only [decide_true, Bool.and_true] at hset
    unfold Writer.pendingOn at hcount ⊢
    omega
  · simp only [decide_eq_false fun hc : w.key = key => hk hc.symm, Bool.and_false,
      Bool.toNat_false] at hset
    rw [hother key hk]
    unfold Writer.pendingOn at hcount ⊢
    omega

theorem recorded_set {new : Writer} {held : Written} {key : String} (hi : s.writers[i]? = some w)
    (hnew : w.pendingOn key = true → w.value = held.value → w.effect = some held.effectAt →
      new.pendingOn key = true ∧ new.value = held.value ∧ new.effect = some held.effectAt)
    (h : ∃ w ∈ s.writers, w.pendingOn key = true ∧ w.value = held.value ∧
      w.effect = some held.effectAt) :
    ∃ w ∈ s.writers.set i new, w.pendingOn key = true ∧ w.value = held.value ∧
      w.effect = some held.effectAt := by
  obtain ⟨w₁, hw₁, hpending, hvalue, heffect⟩ := h
  rcases mem_set_or_eq hi hw₁ with hstays | rfl
  · exact ⟨w₁, hstays, hpending, hvalue, heffect⟩
  · exact ⟨new, mem_set_self new hi, hnew hpending hvalue heffect⟩

theorem Inv.beginWrite (hflag : flags.checker.checkCorrectness = true) (h : s.Inv flags)
    (hi : s.writers[i]? = some w) (hphase : w.phase = .started) :
    ({ s with cc := (s.cc.beginWrite flags.checker w.key).1 }.setWriter i
      { w with phase := .writing (s.cc.beginWrite flags.checker w.key).2 }).Inv flags := by
  have hw := h.writer w (List.mem_of_getElem? hi)
  have hidle : w.pending = false := by
    unfold Writer.pending
    rw [hphase]
  have hbegin : s.cc.beginWrite flags.checker w.key =
      ({ s.cc with rc := update s.cc.rc w.key (s.cc.rc w.key + 1) }, s.cc.version w.key) := by
    unfold ConsistencyChecker.beginWrite
    rw [hflag]
    rfl
  rw [hbegin]
  have hrc : ∀ key, 0 ≤ s.cc.rc key := fun key => by
    rw [h.count key]
    omega
  have hadvance : Advance s ({ s with cc := { s.cc with
      rc := update s.cc.rc w.key (s.cc.rc w.key + 1) } }.setWriter i
      { w with phase := .writing (s.cc.version w.key) }) := by
    refine ⟨Int.le_refl _, fun _ => Int.le_refl _, fun key _ hzero => ?_⟩
    change update s.cc.rc w.key (s.cc.rc w.key + 1) key = 0 at hzero
    rw [update_apply] at hzero
    split at hzero
    · have := hrc w.key
      omega
    · exact ⟨hzero, rfl⟩
  refine ⟨fun key => ?_, fun w₁ hw₁ => ?_, fun r hr => (h.reader r hr).advance hadvance,
    fun key held hheld => (h.recorded key held hheld).imp_right (recorded_set hi ?_), h.nonempty⟩
  · refine h.count_set hi { w with phase := .writing (s.cc.version w.key) } rfl _
      (fun key hkey => update_of_ne hkey _ _) ?_ key
    rw [hidle]
    show update s.cc.rc w.key (s.cc.rc w.key + 1) w.key + 0 = s.cc.rc w.key + 1
    rw [update_self, Int.add_zero]
  · rcases List.mem_or_eq_of_mem_set hw₁ with hold | rfl
    · apply (h.writer w₁ hold).advance hadvance id
      intro t hversion hone heffect
      change update s.cc.rc w.key (s.cc.rc w.key + 1) w₁.key = 1 at hone
      rw [update_apply] at hone
      split at hone
      · next hkey =>
        -- a pending write of the key and the new one are two
        have hpos := h.rc_pos hold (Writer.pending_of_initialVersion hversion)
        rw [hkey] at hpos
        omega
      · exact (h.writer w₁ hold).alone t hversion hone heffect
    · have hnone := hw.idle hphase
      refine ⟨?_, ?_, fun he => absurd hnone he, hw.start, ?_, fun _ => hnone, ?_⟩
      · intro v hv
        rw [← Option.some.inj hv]
        exact Int.le_refl _
      · intro t _ _ ht
        rw [hnone] at ht
        contradiction
      · intro t ht
        rw [hnone] at ht
        contradiction
      · intro v e hp
        contradiction
  · intro hpending
    rw [(Writer.pendingOn_iff.mp hpending).1] at hidle
    contradiction

theorem Inv.takeEffect (h : s.Inv flags) (hi : s.writers[i]? = some w) (hpending : w.pending = true)
    (hnone : w.effect = none) :
    ({ s with register := update s.register w.key (some ⟨w.value, s.now⟩) }.setWriter i
      { w with effect := some s.now }).Inv flags := by
  have hmem := List.mem_of_getElem? hi
  have hw := h.writer w hmem
  have hpos := h.rc_pos hmem hpending
  have hadvance : Advance s
      ({ s with register := update s.register w.key (some ⟨w.value, s.now⟩) }.setWriter i
        { w with effect := some s.now }) := by
    refine ⟨Int.le_refl _, fun _ => Int.le_refl _, fun key _ hzero => ?_⟩
    change s.cc.rc key = 0 at hzero
    have hkey : key ≠ w.key := fun hkey => by
      rw [hkey] at hzero
      omega
    exact ⟨hzero, update_of_ne hkey _ _⟩
  have hkept : ∀ key, s.register key ≠ none →
      update s.register w.key (some ⟨w.value, s.now⟩) key ≠ none := by
    intro key hkey
    rw [update_apply]
    split
    · exact Option.some_ne_none _
    · exact hkey
  refine ⟨fun key => ?_, fun w₁ hw₁ => ?_, fun r hr => (h.reader r hr).advance hadvance,
    fun key held hheld => ?_, fun key hkey => hkept key (h.nonempty key hkey)⟩
  · exact h.count_set hi { w with effect := some s.now } rfl _ (fun _ _ => rfl) rfl key
  · rcases List.mem_or_eq_of_mem_set hw₁ with hold | rfl
    · apply (h.writer w₁ hold).advance hadvance (hkept w₁.key)
      intro t hversion hone heffect
      show update s.register w.key (some ⟨w.value, s.now⟩) w₁.key = _
      by_cases hkey : w₁.key = w.key
      · -- the only pending write of the key is the one that takes effect now
        have hcount : s.writers.countP (Writer.pendingOn w.key) = 1 := by
          have hc := h.count w.key
          change s.cc.rc w₁.key = 1 at hone
          rw [hkey] at hone
          omega
        have hsame := eq_of_countP_one hcount hold hmem
          (Writer.pendingOn_iff.mpr ⟨Writer.pending_of_initialVersion hversion, hkey⟩)
          (Writer.pendingOn_iff.mpr ⟨hpending, rfl⟩)
        rw [hsame, hnone] at heffect
        contradiction
      · rw [update_of_ne hkey]
        exact (h.writer w₁ hold).alone t hversion hone heffect
    · refine ⟨hw.version, ?_, ?_, hw.start, ?_, ?_, ?_⟩
      · intro t _ _ ht
        rw [← Option.some.inj ht]
        exact update_self _ _ _
      · intro _
        show update s.register w.key _ w.key ≠ none
        rw [update_self]
        exact Option.some_ne_none _
      · intro t ht
        rw [← Option.some.inj ht]
        exact ⟨hw.start, Int.le_refl _⟩
      · intro hp
        unfold Writer.pending at hpending
        rw [show w.phase = .started from hp] at hpending
        contradiction
      · intro v e hp
        obtain ⟨t, ht, _⟩ := hw.prompt v e hp
        rw [hnone] at ht
        contradiction
  · change update s.register w.key (some ⟨w.value, s.now⟩) key = some held at hheld
    rw [update_apply] at hheld
    split at hheld
    · next hkey =>
      right
      rw [← Option.some.inj hheld]
      exact ⟨_, mem_set_self _ hi, Writer.pendingOn_iff.mpr ⟨hpending, hkey.symm⟩, rfl, rfl⟩
    · refine (h.recorded key held hheld).imp_right (recorded_set hi ?_)
      intro _ _ heffect
      rw [hnone] at heffect
      contradiction

theorem Inv.returnSet (h : s.Inv flags) (hi : s.writers[i]? = some w)
    (hphase : w.phase = .writing version) {err : Option String}
    (hprompt : err = none → w.effect ≠ none) :
    (s.setWriter i { w with phase := .returned version s.now err }).Inv flags := by
  have hw := h.writer w (List.mem_of_getElem? hi)
  have hpending : w.pending = true := by
    unfold Writer.pending
    rw [hphase]
  have hversion : w.initialVersion = some version := by
    unfold Writer.initialVersion
    rw [hphase]
  have hadvance : Advance s (s.setWriter i { w with phase := .returned version s.now err }) :=
    ⟨Int.le_refl _, fun _ => Int.le_refl _, fun _ _ hzero => ⟨hzero, rfl⟩⟩
  refine ⟨fun key => ?_, fun w₁ hw₁ => ?_, fun r hr => (h.reader r hr).advance hadvance,
    fun key held hheld => (h.recorded key held hheld).imp_right (recorded_set hi ?_), h.nonempty⟩
  · refine h.count_set hi { w with phase := .returned version s.now err } rfl _ (fun _ _ => rfl) ?_ key
    rw [hpending]
    rfl
  · rcases List.mem_or_eq_of_mem_set hw₁ with hold | rfl
    · exact (h.writer w₁ hold).advance hadvance id (h.writer w₁ hold).alone
    · refine ⟨fun v hv => hw.version v (hversion.trans hv), fun t hv => hw.alone t (hversion.trans hv),
        hw.written, hw.start, hw.effect, fun hp => by contradiction, fun v e hp => ?_⟩
      obtain ⟨_, rfl, herr⟩ := WritePhase.returned.inj hp
      obtain ⟨t, ht⟩ := Option.ne_none_iff_exists'.mp (hprompt herr)
      exact ⟨t, ht, (hw.effect t ht).2⟩
  · exact fun hp hvalue heffect =>
      ⟨Writer.pendingOn_iff.mpr ⟨rfl, (Writer.pendingOn_iff.mp hp).2⟩, hvalue, heffect⟩

theorem Inv.completeWrite (hflag : flags.checker.checkCorrectness = true)
    (hbuffer : 0 ≤ flags.checker.ttlCheckBuffer) (h : s.Inv flags) (hi : s.writers[i]? = some w)
    {endTime : Int} {err : Option String} (hphase : w.phase = .returned version endTime err)
    (hfailed : err ≠ none → s.register w.key ≠ none) {cc : ConsistencyChecker}
    (hcc : s.cc.completeWrite flags.checker s.now w.key w.value err version
      (w.startTime + flags.ttl) (endTime + flags.ttl) = some cc) :
    ({ s with cc }.setWriter i { w with phase := .completed }).Inv flags := by
  have hmem := List.mem_of_getElem? hi
  have hw := h.writer w hmem
  have hpending : w.pending = true := by
    unfold Writer.pending
    rw [hphase]
  obtain ⟨hfresh, hrc, hversion, newVal, hmaybe, hdefinitely, herr, hvalues⟩ :=
    completeWrite_some hflag hcc
  have hadvance : Advance s ({ s with cc }.setWriter i { w with phase := .completed }) := by
    refine ⟨Int.le_refl _, fun key => ?_, fun key hsame hzero => ?_⟩
    · show s.cc.version key ≤ cc.version key
      rw [hversion, update_apply]
      split
      · next hkey =>
        rw [hkey]
        omega
      · exact Int.le_refl _
    · change cc.version key = s.cc.version key at hsame
      change cc.rc key = 0 at hzero
      rw [hversion, update_apply] at hsame
      rw [hrc, update_apply] at hzero
      by_cases hkey : key = w.key
      · rw [if_pos hkey, hkey] at hsame
        omega
      · rw [if_neg hkey] at hzero
        exact ⟨hzero, rfl⟩
  -- the write of the register's content is known from now on
  have hrecords : ∀ t, w.effect = some t → Records flags ⟨w.value, t⟩ newVal := by
    intro t ht
    refine ⟨?_, fun hnone => ?_⟩
    · have := (hw.effect t ht).1
      dsimp only
      omega
    · rw [herr] at hnone
      rw [hnone] at hphase
      obtain ⟨t', ht', hle⟩ := hw.prompt version endTime hphase
      rw [ht] at ht'
      obtain rfl := Option.some.inj ht'
      dsimp only
      omega
  have hother : ∀ key, key ≠ w.key → cc.values key = s.cc.values key := by
    intro key hkey
    rcases hvalues with ⟨_, _, _, hvalues⟩ | hvalues
    · rw [hvalues, update_of_ne hkey]
    · rw [hvalues, update_of_ne hkey]
  have hlookup : (cc.values w.key).lookup w.value = some newVal := by
    rcases hvalues with ⟨_, _, _, hvalues⟩ | hvalues
    · rw [hvalues, update_self]
      exact List.dlookup_cons_eq _ _ _
    · rw [hvalues, update_self, AList.lookup_insert]
  refine ⟨fun key => ?_, fun w₁ hw₁ => ?_, fun r hr => (h.reader r hr).advance hadvance,
    fun key held hheld => ?_, fun key hkey => ?_⟩
  · show cc.rc key = _
    refine h.count_set hi { w with phase := .completed } rfl _ ?_ ?_ key
    · intro key hkey
      rw [hrc, update_of_ne hkey]
    · rw [hrc, update_self, hpending]
      show s.cc.rc w.key - 1 + 1 = s.cc.rc w.key + 0
      omega
  · rcases List.mem_or_eq_of_mem_set hw₁ with hold | rfl
    · apply (h.writer w₁ hold).advance hadvance id
      intro t hv hone heffect
      change w₁.initialVersion = some (cc.version w₁.key) at hv
      change cc.rc w₁.key = 1 at hone
      by_cases hkey : w₁.key = w.key
      · -- its version is an old one by now
        have hle := (h.writer w₁ hold).version _ hv
        rw [hversion, hkey, update_self] at hle
        omega
      · rw [hversion, update_of_ne hkey] at hv
        rw [hrc, update_of_ne hkey] at hone
        exact (h.writer w₁ hold).alone t hv hone heffect
    · refine ⟨fun v hv => by contradiction, fun t hv => by contradiction, hw.written, hw.start,
        hw.effect, fun hp => by contradiction, fun v e hp => by contradiction⟩
  · change s.register key = some held at hheld
    by_cases hkey : key = w.key
    · subst hkey
      rcases h.recorded w.key held hheld with ⟨val, hval, hrecord⟩ | ⟨w₁, hw₁, hp₁, hv₁, he₁⟩
      · left
        rcases hvalues with ⟨hnone, hsame, hone, hvalues⟩ | hvalues
        · -- no other write overlapped this one, so the register holds its value
          rw [hnone] at hphase
          obtain ⟨t, ht, _⟩ := hw.prompt version endTime hphase
          have hlast := hw.alone t (by
            unfold Writer.initialVersion
            rw [hphase, hsame]) hone ht
          rw [hheld] at hlast
          rw [Option.some.inj hlast]
          exact ⟨newVal, hlookup, hrecords t ht⟩
        · have hne : held.value ≠ w.value := by
            intro he
            rw [he] at hval
            exact hfresh (AList.lookup_isSome.mp (by rw [hval]; rfl))
          refine ⟨val, ?_, hrecord⟩
          show (cc.values w.key).lookup held.value = some val
          rw [hvalues, update_self, AList.lookup_insert_ne hne]
          exact hval
      · rcases mem_set_or_eq hi hw₁ with hstays | rfl
        · exact Or.inr ⟨w₁, hstays, hp₁, hv₁, he₁⟩
        · left
          rw [← hv₁]
          exact ⟨newVal, hlookup, hrecords _ he₁⟩
    · refine (h.recorded key held hheld).imp ?_ (recorded_set hi ?_)
      · intro ⟨val, hval, hrecord⟩
        refine ⟨val, ?_, hrecord⟩
        show (cc.values key).lookup held.value = some val
        rw [hother key hkey]
        exact hval
      · intro hp
        exact absurd (Writer.pendingOn_iff.mp hp).2.symm hkey
  · by_cases hk : key = w.key
    · rw [hk]
      cases err with
      | some err => exact hfailed (Option.some_ne_none err)
      | none =>
        obtain ⟨t, ht, _⟩ := hw.prompt version endTime hphase
        exact hw.written (by rw [ht]; exact Option.some_ne_none t)
    · change cc.values key ≠ ∅ at hkey
      rw [hother key hk] at hkey
      exact h.nonempty key hkey

/-! ## 6. Steps of readers -/

theorem Inv.beginRead (hflag : flags.checker.checkCorrectness = true) (h : s.Inv flags)
    (hi : s.readers[i]? = some r) :
    (s.setReader i { r with
      phase := .reading (s.cc.beginRead flags.checker r.key).1
        (s.cc.beginRead flags.checker r.key).2 }).Inv flags := by
  have hr := h.reader r (List.mem_of_getElem? hi)
  apply h.setReader
  intro s' hnow hcc _
  unfold ConsistencyChecker.beginRead
  rw [hflag]
  refine ⟨by rw [hnow]; exact hr.1, ?_⟩
  show s.cc.version r.key ≤ s'.cc.version r.key
  rw [hcc]

theorem Inv.read (h : s.Inv flags) (hi : s.readers[i]? = some r) {writesPending : Bool}
    (hphase : r.phase = .reading version writesPending) :
    (s.setReader i { r with
      phase := .returned version writesPending (s.register r.key) s.now }).Inv flags := by
  obtain ⟨hstart, hversion⟩ := h.reader r (List.mem_of_getElem? hi)
  rw [hphase] at hversion
  apply h.setReader
  intro s' hnow hcc hregister
  refine ⟨by rw [hnow]; exact hstart, ?_, hstart, by rw [hnow], fun _ _ _ => by rw [hregister]⟩
  rw [hcc]
  exact hversion

theorem checkReadCorrect_keeps (flags : CheckerFlags) (cc : ConsistencyChecker) (now : Int)
    (key : String) (found : Option String) (startTime initialVersion : Int) (writesPending : Bool) :
    ∃ n, (cc.checkReadCorrect flags now key found startTime initialVersion writesPending).1 =
      { cc with checksRun := n } := by
  unfold ConsistencyChecker.checkReadCorrect
  split
  · exact ⟨cc.checksRun, rfl⟩
  · split
    · exact ⟨cc.checksRun, rfl⟩
    · exact ⟨_, rfl⟩

theorem Inv.checkReadCorrect (h : s.Inv flags) (hi : s.readers[i]? = some r) {n : UInt64}
    {err : Option CheckError} :
    ({ s with cc := { s.cc with checksRun := n } }.setReader i
      { r with phase := .checked err }).Inv flags := by
  have hr := h.reader r (List.mem_of_getElem? hi)
  refine h.withReaders (Int.le_refl _) rfl rfl rfl rfl rfl ?_
  intro hadvance q hq
  rcases List.mem_or_eq_of_mem_set hq with hold | rfl
  · exact (h.reader q hold).advance hadvance
  · exact ⟨hr.1, trivial⟩

/-! ## 7. Runs -/

/-- A `Set` that reports success has taken effect when it returns, and one that reports an error is
not the first: by then some `Set` of the key has taken effect. -/
def Careful (s : Stress) : StressEvent → Prop
  | .returnSet i none => ∀ w ∈ s.writers[i]?, w.effect ≠ none
  | .completeWrite i => ∀ w ∈ s.writers[i]?, w.failed = true → s.register w.key ≠ none
  | _ => True

instance (s : Stress) : (a : StressEvent) → Decidable (s.Careful a)
  | .returnSet i none => inferInstanceAs (Decidable (∀ w ∈ s.writers[i]?, w.effect ≠ none))
  | .completeWrite i =>
    inferInstanceAs (Decidable (∀ w ∈ s.writers[i]?, w.failed = true → s.register w.key ≠ none))
  | .tick _ | .startSet _ _ | .beginWrite _ | .takeEffect _ | .returnSet _ (some _) | .startGet _
  | .beginRead _ | .read _ | .checkReadCorrect _ => inferInstanceAs (Decidable True)

theorem Inv.perform (hflag : flags.checker.checkCorrectness = true)
    (hbuffer : 0 ≤ flags.checker.ttlCheckBuffer) (h : s.Inv flags) {a : StressEvent}
    (hcareful : s.Careful a) (hstep : s.perform flags a = some s') :
    s'.Inv flags := by
  cases a with
  | tick dt =>
    rw [← Option.some.inj hstep]
    exact h.tick dt
  | startSet key value =>
    rw [← Option.some.inj hstep]
    exact h.startSet key value
  | startGet key =>
    rw [← Option.some.inj hstep]
    exact h.startGet key
  | beginWrite i =>
    obtain ⟨w, hi, hstep⟩ := Option.bind_eq_some_iff.mp hstep
    unfold writeStep at hstep
    dsimp only at hstep
    split at hstep
    · next hphase =>
      rw [← Option.some.inj hstep]
      exact h.beginWrite hflag hi hphase
    · contradiction
  | takeEffect i =>
    obtain ⟨w, hi, hstep⟩ := Option.bind_eq_some_iff.mp hstep
    unfold writeStep at hstep
    dsimp only at hstep
    split at hstep
    · next hready =>
      rw [← Option.some.inj hstep]
      exact h.takeEffect hi hready.1 hready.2
    · contradiction
  | returnSet i err =>
    obtain ⟨w, hi, hstep⟩ := Option.bind_eq_some_iff.mp hstep
    unfold writeStep at hstep
    dsimp only at hstep
    split at hstep
    · next version hphase =>
      rw [← Option.some.inj hstep]
      apply h.returnSet hi hphase
      intro hnone
      rw [hnone] at hcareful
      exact hcareful w hi
    · contradiction
  | completeWrite i =>
    obtain ⟨w, hi, hstep⟩ := Option.bind_eq_some_iff.mp hstep
    unfold writeStep at hstep
    dsimp only at hstep
    split at hstep
    · next version endTime err hphase =>
      split at hstep
      · contradiction
      · obtain ⟨cc, hcc, hstep⟩ := Option.bind_eq_some_iff.mp hstep
        rw [← Option.some.inj hstep]
        refine h.completeWrite hflag hbuffer hi hphase (fun herr => ?_) hcc
        obtain ⟨text, rfl⟩ := Option.ne_none_iff_exists'.mp herr
        apply hcareful w hi
        unfold Writer.failed
        rw [hphase]
    · contradiction
  | beginRead i =>
    obtain ⟨r, hi, hstep⟩ := Option.bind_eq_some_iff.mp hstep
    unfold readStep at hstep
    dsimp only at hstep
    split at hstep
    · rw [← Option.some.inj hstep]
      exact h.beginRead hflag hi
    · contradiction
  | read i =>
    obtain ⟨r, hi, hstep⟩ := Option.bind_eq_some_iff.mp hstep
    unfold readStep at hstep
    dsimp only at hstep
    split at hstep
    · next version writesPending hphase =>
      rw [← Option.some.inj hstep]
      exact h.read hi hphase
    · contradiction
  | checkReadCorrect i =>
    obtain ⟨r, hi, hstep⟩ := Option.bind_eq_some_iff.mp hstep
    unfold readStep at hstep
    obtain ⟨⟨cc, err⟩, hverdict, hstep⟩ := Option.bind_eq_some_iff.mp hstep
    rw [← Option.some.inj hstep]
    unfold verdict at hverdict
    split at hverdict
    · next version writesPending seen readAt hphase =>
      obtain ⟨n, hn⟩ := checkReadCorrect_keeps flags.checker s.cc s.now r.key
        (flags.readable readAt seen) r.startTime version writesPending
      rw [Option.some.inj hverdict] at hn
      dsimp only at hn ⊢
      rw [hn]
      exact h.checkReadCorrect hi
    · contradiction

theorem inv_initial (h : s.Initial) : s.Inv flags := by
  refine ⟨fun key => ?_, ?_, ?_, fun key held hheld => ?_, fun key hkey => ?_⟩
  · rw [h.cc, h.writers]
    rfl
  · rw [h.writers]
    exact fun w hw => absurd hw List.not_mem_nil
  · rw [h.readers]
    exact fun r hr => absurd hr List.not_mem_nil
  · rw [h.register key] at hheld
    contradiction
  · rw [h.cc] at hkey
    exact absurd rfl hkey

theorem Inv.verdict_none (h : s.Inv flags) (hr : r ∈ s.readers) {writesPending : Bool}
    {seen : Option Written} {readAt : Int}
    (hphase : r.phase = .returned version writesPending seen readAt) :
    (s.cc.checkReadCorrect flags.checker s.now r.key (flags.readable readAt seen) r.startTime
      version writesPending).2 = none := by
  obtain ⟨_, hok⟩ := h.reader r hr
  rw [hphase] at hok
  obtain ⟨_, hfrom, hto, hseen⟩ := hok
  unfold ConsistencyChecker.checkReadCorrect
  split
  · rfl
  · split
    · rfl
    · next hquiet =>
      rw [not_or, not_or] at hquiet
      obtain ⟨hversion, hpending, hrc⟩ := hquiet
      have hregister := hseen (not_not.mp hversion) (by simpa using hpending) (not_not.mp hrc)
      -- no write is pending, so the checker knows what the register holds
      have hrecorded : ∀ held, seen = some held →
          ∃ val, (s.cc.values r.key).lookup held.value = some val ∧ Records flags held val := by
        intro held hheld
        rcases h.recorded r.key held (hregister.trans hheld) with hknown | ⟨w, hw, hp, _, _⟩
        · exact hknown
        · obtain ⟨hp, hkey⟩ := Writer.pendingOn_iff.mp hp
          have hpos := h.rc_pos hw hp
          rw [hkey] at hpos
          omega
      cases hheld : seen with
      | none =>
        -- nothing has taken effect, so nothing is known
        have hempty : s.cc.values r.key = ∅ := by
          by_contra hne
          exact h.nonempty r.key hne (hregister.trans hheld)
        unfold StressFlags.readable checkMissing
        rw [hempty]
        rfl
      | some held =>
        obtain ⟨val, hval, hmaybe, hdefinitely⟩ := hrecorded held hheld
        unfold StressFlags.readable
        rw [Option.bind_some]
        by_cases hexpired : held.effectAt + flags.ttl < readAt
        · rw [if_pos hexpired]
          unfold checkMissing
          dsimp only
          rw [if_pos]
          right
          apply List.any_eq_true.mpr
          refine ⟨val, List.mem_map.mpr ⟨_, AList.mem_lookup_iff.mp hval, rfl⟩, ?_⟩
          apply decide_eq_true
          omega
        · rw [if_neg hexpired]
          dsimp only
          unfold checkFound
          rw [hval]
          dsimp only
          rw [if_neg]
          intro ⟨_, herr, hlate⟩
          have := hdefinitely herr
          omega

/-- In a run whose steps are careful `CheckReadCorrect` returns no error. -/
theorem checker_sound (flags : StressFlags) (hbuffer : 0 ≤ flags.checker.ttlCheckBuffer)
    {past : List (Stress × StressEvent)} {s : Stress} (hrun : Reaches flags past s)
    (hpast : ∀ x ∈ past, x.1.Careful x.2) {r : Reader} (hr : r ∈ s.readers)
    {cc : ConsistencyChecker} {err : Option CheckError}
    (hverdict : s.verdict flags r = some (cc, err)) : err = none := by
  unfold verdict at hverdict
  split at hverdict
  · next version writesPending seen readAt hphase =>
    have herr := congrArg Prod.snd (Option.some.inj hverdict)
    rw [← show _ = err from herr]
    cases hflag : flags.checker.checkCorrectness with
    | false =>
      unfold ConsistencyChecker.checkReadCorrect
      rw [hflag]
      rfl
    | true =>
      have hinv : s.Inv flags := hrun.invariant_of (I := Inv flags) (C := Careful)
        (fun _ => inv_initial) (fun _ _ _ h hc hstep => h.perform hflag hbuffer hc hstep) hpast
      exact hinv.verdict_none hr hphase
  · contradiction

def defaultFlags : StressFlags := ⟨⟨true, true, 10000000⟩, 1000000000⟩

def beforeStress : Stress := ⟨0, makeConsistencyChecker, fun _ => none, [], []⟩

theorem beforeStress_initial : beforeStress.Initial := ⟨rfl, fun _ => rfl, rfl, rfl⟩

def stressed (events : List StressEvent) : List (Stress × StressEvent) × Stress :=
  replay (perform defaultFlags) [] beforeStress events

theorem reaches_stressed (events : List StressEvent) :
    Reaches defaultFlags (stressed events).1 (stressed events).2 :=
  replay_run (fun _ _ _ h => h) events [] beforeStress (.start beforeStress_initial)

def oneRound : List StressEvent :=
  [.startSet "key" "value", .beginWrite 0, .takeEffect 0, .returnSet 0 none, .completeWrite 0,
    .startGet "key", .beginRead 0, .read 0]

/-- A `Get` of a value that was written before is not reported. -/
theorem checker_sound_oneRound :
    ∃ r ∈ (stressed oneRound).2.readers, ∃ cc,
      (stressed oneRound).2.verdict defaultFlags r = some (cc, none) := by
  have hchecked : ((stressed oneRound).2.readers[0]?.bind fun r =>
      (stressed oneRound).2.verdict defaultFlags r).isSome = true := by decide +kernel
  obtain ⟨⟨cc, err⟩, hv⟩ := Option.isSome_iff_exists.mp hchecked
  obtain ⟨r, hr, hverdict⟩ := Option.bind_eq_some_iff.mp hv
  have hnone := checker_sound defaultFlags (by decide) (reaches_stressed oneRound)
    (by decide +kernel) (List.mem_of_getElem? hr) hverdict
  exact ⟨r, List.mem_of_getElem? hr, cc, by rw [hverdict, hnone]⟩

def alarm (flags : StressFlags) (s : Stress) (i : Nat) : Option CheckError :=
  s.readers[i]?.bind fun r => (s.verdict flags r).bind fun v => v.2

theorem alarm_eq_some {err : CheckError} (h : s.alarm flags i = some err) :
    ∃ r ∈ s.readers, ∃ cc, s.verdict flags r = some (cc, some err) := by
  obtain ⟨r, hr, h⟩ := Option.bind_eq_some_iff.mp h
  obtain ⟨⟨cc, _⟩, hverdict, rfl⟩ := Option.bind_eq_some_iff.mp h
  exact ⟨r, List.mem_of_getElem? hr, cc, hverdict⟩

/-- A `Set` that fails and never takes effect; the `Get` after it finds nothing. -/
def failedFirst : List StressEvent :=
  [.startSet "key" "value", .beginWrite 0, .returnSet 0 (some "unavailable"), .completeWrite 0,
    .startGet "key", .beginRead 0, .read 0]

/-- A `Set` that takes effect late, and a `Get` that starts 20 ms after the bound for the TTL. -/
def lateEffect : List StressEvent :=
  [.startSet "key" "value", .beginWrite 0, .returnSet 0 none, .tick 50000000, .takeEffect 0,
    .completeWrite 0, .tick 980000000, .startGet "key", .beginRead 0, .read 0]

/-- The first write of a key fails without effect and a `Get` that finds nothing is reported; a write
takes effect after its call has returned and a `Get` that finds its value in time is reported. -/
theorem checker_false_alarms :
    (∃ past s, Reaches defaultFlags past s ∧ ∃ r ∈ s.readers, ∃ cc,
      s.verdict defaultFlags r = some (cc, some
        (.noValueFound [⟨"value", 0, 1000000000, 1010000000, some "unavailable", 0⟩]))) ∧
      ∃ past s, Reaches defaultFlags past s ∧ ∃ r ∈ s.readers, ∃ cc,
        s.verdict defaultFlags r = some (cc, some (.expired "value" 30000000)) :=
  ⟨⟨_, _, reaches_stressed failedFirst, alarm_eq_some (i := 0) (by decide +kernel)⟩,
    ⟨_, _, reaches_stressed lateEffect, alarm_eq_some (i := 0) (by decide +kernel)⟩⟩

end Stress

end ShardedKv
