import DistributedSystems.ShardedKv.Server

/-!
# The consistency checker of the stress test (`checker/checker.go`)

The checker remembers, for every key, the values that a `Get` may return.  A write that overlaps no
other write and succeeds replaces them; any other write is added to them.  A read is checked only if
no write overlaps it, which the version and the number of pending writes tell.
-/

namespace ShardedKv

open Function

/-! ## 1. State -/

/-- The flags `-check`, `-check-ttl` and `-ttl-check-buffer`. -/
structure CheckerFlags where
  checkCorrectness : Bool
  checkTtl : Bool
  ttlCheckBuffer : Int

/-- `stateValue`; times are in nanoseconds after the zero time. -/
structure StateValue where
  value : String
  writtenAt : Int
  maybeExpiredBy : Int
  definitelyExpiredBy : Int
  err : Option String
  overwrittenAt : Int
deriving DecidableEq

def StateValue.text (now : Int) (val : StateValue) : String :=
  "\x7bval=" ++ val.value ++
    s!", ttlRemaining={toMilliseconds (timeSub val.maybeExpiredBy now)}ms" ++
    s!", writtenAtAgo={toMilliseconds (timeSub now val.writtenAt)}ms" ++
    s!", wasError={val.err.isSome}\x7d, "

def printValues (now : Int) (vals : List StateValue) : String :=
  String.join (vals.map (StateValue.text now))

abbrev StateValues := AList fun _ : String => StateValue

structure ConsistencyChecker where
  checksRun : UInt64
  values : String → StateValues
  overwrittenValues : String → StateValues
  version : String → Int
  rc : String → Int

def makeConsistencyChecker : ConsistencyChecker where
  checksRun := 0
  values := fun _ => ∅
  overwrittenValues := fun _ => ∅
  version := fun _ => 0
  rc := fun _ => 0

namespace ConsistencyChecker

/-! ## 2. Writes -/

def beginWrite (flags : CheckerFlags) (cc : ConsistencyChecker) (key : String) :
    ConsistencyChecker × Int :=
  if !flags.checkCorrectness then (cc, 0)
  else ({ cc with rc := update cc.rc key (cc.rc key + 1) }, cc.version key)

def overwrite (cc : ConsistencyChecker) (key : String) : StateValues :=
  (cc.values key).entries.foldl (fun old e => old.insert e.2.value e.2) (cc.overwrittenValues key)

/-- The values of the key after a write: the new one alone, if no other write overlapped it. -/
def record (cc : ConsistencyChecker) (key : String) (newVal : StateValue) (initialVersion : Int) :
    ConsistencyChecker :=
  if newVal.err = none ∧ initialVersion = cc.version key ∧ cc.rc key = 1 then
    { cc with
      overwrittenValues := update cc.overwrittenValues key (cc.overwrite key)
      values := update cc.values key (AList.singleton newVal.value newVal) }
  else
    { cc with
      values := update cc.values key ((cc.values key).insert newVal.value newVal) }

/-- Nothing for the panic on a duplicate value. -/
def completeWrite (flags : CheckerFlags) (cc : ConsistencyChecker) (now : Int) (key value : String)
    (err : Option String) (initialVersion maybeExpiredBy definitelyExpiredBy : Int) :
    Option ConsistencyChecker :=
  if !flags.checkCorrectness then some cc
  else
    let newVal : StateValue :=
      { value, writtenAt := now, maybeExpiredBy,
        definitelyExpiredBy := definitelyExpiredBy + flags.ttlCheckBuffer, err, overwrittenAt := 0 }
    if value ∈ cc.values key ∨ value ∈ cc.overwrittenValues key then none
    else
      let cc := cc.record key newVal initialVersion
      some { cc with
        rc := update cc.rc key (cc.rc key - 1)
        version := update cc.version key (cc.version key + 1) }

/-! ## 3. Reads -/

def beginRead (flags : CheckerFlags) (cc : ConsistencyChecker) (key : String) : Int × Bool :=
  if !flags.checkCorrectness then (0, false)
  else (cc.version key, cc.rc key ≠ 0)

inductive CheckError where
  | noValueFound (unexpired : List StateValue)
  | overwritten (value : String) (overwrittenAt : Int)
  /-- The text shows the zero `stateValue`, not the value that was read. -/
  | neverWritten
  | expired (value : String) (timeDiff : Int)
deriving DecidableEq

def CheckError.text (now : Int) : CheckError → String
  | .noValueFound unexpired =>
    "no value found, but there unexpired potential values: " ++ printValues now unexpired
  | .overwritten value overwrittenAt =>
    s!"incorrect value {value}; was overrwritten " ++
      s!"{toMilliseconds (timeSub now overwrittenAt)}ms ago"
  | .neverWritten =>
    "incorrect value " ++ StateValue.text now ⟨"", 0, 0, 0, none, 0⟩ ++ "; never written to key"
  | .expired value timeDiff =>
    s!"value {value} was written, but expired at least {toMilliseconds timeDiff}ms ago"

def checkMissing (values : StateValues) (now : Int) : Option CheckError :=
  let vals := values.entries.map fun e => e.2
  if vals = [] ∨ vals.any (fun val => decide (val.maybeExpiredBy < now)) then none
  else some (.noValueFound (vals.filter fun val => !decide (val.maybeExpiredBy < now)))

def checkFound (flags : CheckerFlags) (values overwrittenValues : StateValues) (value : String)
    (startTime : Int) : Option CheckError :=
  match values.lookup value with
  | none =>
    match overwrittenValues.lookup value with
    | some overwrittenVal => some (.overwritten value overwrittenVal.overwrittenAt)
    | none => some .neverWritten
  | some val =>
    if flags.checkTtl = true ∧ val.err = none ∧ val.definitelyExpiredBy < startTime then
      some (.expired value (timeSub startTime val.maybeExpiredBy))
    else none

/-- `found` is the value when `wasFound` is true. -/
def checkReadCorrect (flags : CheckerFlags) (cc : ConsistencyChecker) (now : Int) (key : String)
    (found : Option String) (startTime initialVersion : Int) (writesPending : Bool) :
    ConsistencyChecker × Option CheckError :=
  if !flags.checkCorrectness then (cc, none)
  else if cc.version key ≠ initialVersion ∨ writesPending = true ∨ cc.rc key ≠ 0 then (cc, none)
  else
    ({ cc with checksRun := cc.checksRun + 1 },
      match found with
      | none => checkMissing (cc.values key) now
      | some value =>
        checkFound flags (cc.values key) (cc.overwrittenValues key) value startTime)

/-! ## 4. What a completed write changes -/

theorem completeWrite_some {flags : CheckerFlags} (hflag : flags.checkCorrectness = true)
    {cc cc' : ConsistencyChecker} {now : Int} {key value : String} {err : Option String}
    {initialVersion maybeExpiredBy definitelyExpiredBy : Int}
    (h : cc.completeWrite flags now key value err initialVersion maybeExpiredBy
      definitelyExpiredBy = some cc') :
    value ∉ cc.values key ∧ cc'.rc = update cc.rc key (cc.rc key - 1) ∧
      cc'.version = update cc.version key (cc.version key + 1) ∧
      ∃ newVal : StateValue, newVal.maybeExpiredBy = maybeExpiredBy ∧
        newVal.definitelyExpiredBy = definitelyExpiredBy + flags.ttlCheckBuffer ∧
        newVal.err = err ∧
        ((err = none ∧ initialVersion = cc.version key ∧ cc.rc key = 1 ∧
            cc'.values = update cc.values key (AList.singleton value newVal)) ∨
          cc'.values = update cc.values key ((cc.values key).insert value newVal)) := by
  unfold completeWrite at h
  rw [hflag] at h
  simp only [Bool.not_true, Bool.false_eq_true, if_false] at h
  split at h
  · contradiction
  · next hfresh =>
    have hvalue : value ∉ cc.values key := fun hv => hfresh (Or.inl hv)
    have hcc' := Option.some.inj h
    unfold record at hcc'
    split at hcc'
    · next halone =>
      rw [← hcc']
      exact ⟨hvalue, rfl, rfl, _, rfl, rfl, rfl, Or.inl ⟨halone.1, halone.2.1, halone.2.2, rfl⟩⟩
    · rw [← hcc']
      exact ⟨hvalue, rfl, rfl, _, rfl, rfl, rfl, Or.inr rfl⟩

end ConsistencyChecker

end ShardedKv
