import Mathlib.Logic.Basic
import Mathlib.Data.List.Basic

/-!
# Programs that may crash between two writes

A program runs on a device that survives a crash and a memory that does not.  Running it yields the
writes it sent to the device, in order, and its result, or no result when it halted.  A crash leaves
the device as some prefix of the writes made it.

Besides the postcondition the weakest precondition has a condition that every write establishes, so
that it holds after a crash at any point, and one that says what a halt means.
-/

namespace Crash

class Device (δ : Type) (ω : outParam Type) where
  write : δ → ω → δ

section Programs

variable {δ ω : Type} [Device δ ω] {σ α β : Type}

def after (d : δ) (ws : List ω) : δ := ws.foldl Device.write d

/-- From a device and a memory: the writes, and the value with the new memory unless it halted. -/
def Prog (δ ω σ α : Type) : Type := δ → σ → List ω × Option (α × σ)

namespace Prog

protected def pure (a : α) : Prog δ ω σ α := fun _ s => ([], some (a, s))

protected def bind (m : Prog δ ω σ α) (f : α → Prog δ ω σ β) : Prog δ ω σ β := fun d s =>
  match m d s with
  | (ws, none) => (ws, none)
  | (ws, some (a, s')) =>
    let r := f a (after d ws) s'
    (ws ++ r.1, r.2)

instance : Monad (Prog δ ω σ) where
  pure := Prog.pure
  bind := Prog.bind

def halt : Prog δ ω σ α := fun _ _ => ([], none)

def get : Prog δ ω σ σ := fun _ s => ([], some (s, s))

def modify (f : σ → σ) : Prog δ ω σ Unit := fun _ s => ([], some ((), f s))

def sense (f : δ → α) : Prog δ ω σ α := fun d s => ([], some (f d, s))

def emit (w : ω) : Prog δ ω σ Unit := fun _ s => ([w], some ((), s))

/-- `for (i = k; n more times; i++) body(i)`. -/
def forUp (body : Nat → Prog δ ω σ Unit) : Nat → Nat → Prog δ ω σ Unit
  | _, 0 => pure ()
  | k, n + 1 => do
    body k
    forUp body (k + 1) n

end Prog

/-! ## 1. Writes -/

/-- After `past` and every further write, the writes so far and the device are as `E` says. -/
def Writes (E : List ω → δ → Prop) : List ω → δ → List ω → Prop
  | _, _, [] => True
  | past, d, w :: ws =>
    E (past ++ [w]) (Device.write d w) ∧ Writes E (past ++ [w]) (Device.write d w) ws

theorem after_append (d : δ) (ws ws' : List ω) : after d (ws ++ ws') = after (after d ws) ws' :=
  List.foldl_append

theorem writes_append {E : List ω → δ → Prop} {ws ws' : List ω} :
    ∀ {past : List ω} {d : δ}, Writes E past d (ws ++ ws') ↔
      Writes E past d ws ∧ Writes E (past ++ ws) (after d ws) ws' := by
  induction ws with
  | nil =>
    intro past d
    rw [List.append_nil]
    exact ⟨fun h => ⟨trivial, h⟩, fun h => h.2⟩
  | cons w ws ih =>
    intro past d
    show _ ∧ Writes E _ _ (ws ++ ws') ↔ (_ ∧ Writes E _ _ ws) ∧ _
    rw [ih, and_assoc, List.append_assoc]
    rfl

variable {m : Prog δ ω σ α} {ws : List ω}

theorem Writes.take {E : List ω → δ → Prop} :
    ∀ {past : List ω} {d : δ}, Writes E past d ws → E past d →
      ∀ k, E (past ++ ws.take k) (after d (ws.take k)) := by
  induction ws with
  | nil =>
    intro past d _ hd k
    rw [List.take_nil, List.append_nil]
    exact hd
  | cons w ws ih =>
    intro past d hw hd k
    cases k with
    | zero =>
      rw [List.take_zero, List.append_nil]
      exact hd
    | succ k =>
      have hrest := ih hw.2 hw.1 k
      rw [List.append_assoc] at hrest
      exact hrest

/-! ## 2. Weakest preconditions -/

/-- After the writes `past`, the program keeps `E` with every write; when it returns, `Q` holds; it
halts only if `X`. -/
def wp (E : List ω → δ → Prop) (X : Prop) (m : Prog δ ω σ α) (Q : α → List ω → δ → σ → Prop)
    (past : List ω) (d : δ) (s : σ) : Prop :=
  Writes E past d (m d s).1 ∧
    match (m d s).2 with
    | none => X
    | some (a, s') => Q a (past ++ (m d s).1) (after d (m d s).1) s'

variable {E : List ω → δ → Prop} {X : Prop} {Q : α → List ω → δ → σ → Prop} {past : List ω} {d : δ}
  {s : σ}

theorem wp_silent {a : α} {s' : σ} (h : m d s = ([], some (a, s'))) :
    wp E X m Q past d s ↔ Q a past d s' := by
  unfold wp
  rw [h]
  show True ∧ Q a (past ++ []) d s' ↔ _
  rw [List.append_nil, true_and]

@[simp] theorem wp_pure (a : α) : wp E X (pure a : Prog δ ω σ α) Q past d s ↔ Q a past d s :=
  wp_silent rfl

@[simp] theorem wp_halt : wp E X (Prog.halt : Prog δ ω σ α) Q past d s ↔ X :=
  ⟨fun h => h.2, fun h => ⟨trivial, h⟩⟩

@[simp] theorem wp_get {Q : σ → List ω → δ → σ → Prop} :
    wp E X (Prog.get : Prog δ ω σ σ) Q past d s ↔ Q s past d s :=
  wp_silent rfl

@[simp] theorem wp_modify (f : σ → σ) {Q : Unit → List ω → δ → σ → Prop} :
    wp E X (Prog.modify f : Prog δ ω σ Unit) Q past d s ↔ Q () past d (f s) :=
  wp_silent rfl

@[simp] theorem wp_sense (f : δ → α) :
    wp E X (Prog.sense f : Prog δ ω σ α) Q past d s ↔ Q (f d) past d s :=
  wp_silent rfl

@[simp] theorem wp_emit (w : ω) {Q : Unit → List ω → δ → σ → Prop} :
    wp E X (Prog.emit w : Prog δ ω σ Unit) Q past d s ↔
      E (past ++ [w]) (Device.write d w) ∧ Q () (past ++ [w]) (Device.write d w) s :=
  ⟨fun h => ⟨h.1.1, h.2⟩, fun h => ⟨⟨h.1, trivial⟩, h.2⟩⟩

theorem bind_halted (f : α → Prog δ ω σ β) (h : m d s = (ws, none)) :
    (m >>= f) d s = (ws, none) := by
  show Prog.bind m f d s = _
  unfold Prog.bind
  rw [h]

theorem bind_returned (f : α → Prog δ ω σ β) {s' : σ} {a : α} (h : m d s = (ws, some (a, s'))) :
    (m >>= f) d s = (ws ++ (f a (after d ws) s').1, (f a (after d ws) s').2) := by
  show Prog.bind m f d s = _
  unfold Prog.bind
  rw [h]

@[simp] theorem wp_bind {f : α → Prog δ ω σ β} {Q : β → List ω → δ → σ → Prop} :
    wp E X (m >>= f) Q past d s ↔
      wp E X m (fun a past' d' s' => wp E X (f a) Q past' d' s') past d s := by
  unfold wp
  cases hr : m d s with
  | mk ws r =>
    cases r with
    | none =>
      rw [bind_halted f hr]
    | some as =>
      obtain ⟨a, s'⟩ := as
      rw [bind_returned f hr]
      dsimp only
      rw [writes_append, after_append, and_assoc, List.append_assoc]

theorem wp_mono {Q' : α → List ω → δ → σ → Prop} (h : wp E X m Q past d s)
    (hQ : ∀ a past' d' s', Q a past' d' s' → Q' a past' d' s') : wp E X m Q' past d s := by
  refine ⟨h.1, ?_⟩
  cases hr : (m d s).2 with
  | none =>
    unfold wp at h
    rw [hr] at h
    exact h.2
  | some as =>
    unfold wp at h
    rw [hr] at h
    exact hQ _ _ _ _ h.2

theorem wp_forUp {I : Nat → List ω → δ → σ → Prop} {body : Nat → Prog δ ω σ Unit} {n : Nat}
    (hbody : ∀ k < n, ∀ past d s, I k past d s → wp E X (body k) (fun _ => I (k + 1)) past d s) :
    ∀ m k past d s, k + m = n → I k past d s →
      wp E X (Prog.forUp body k m) (fun _ => I n) past d s := by
  intro m
  induction m with
  | zero =>
    intro k past d s hk h
    obtain rfl : k = n := hk
    exact (wp_pure (Q := fun _ => I k) ()).mpr h
  | succ m ih =>
    intro k past d s hk h
    show wp E X (body k >>= fun _ => Prog.forUp body (k + 1) m) _ past d s
    rw [wp_bind]
    refine wp_mono (hbody k (by omega) past d s h) fun _ past' d' s' h' => ?_
    exact ih (k + 1) past' d' s' (by omega) h'

/-! ## 3. Programs without a memory

Where the whole state is on the device, a program is a sequence of atomic steps and the condition on
the writes is an invariant of every state it goes through. -/

section Steps

variable {E : δ → Prop} {Q : α → δ → Prop} {past : List ω} {d : δ}

/-- Every state on the way satisfies `E`, the program ends with `Q` and halts only if `X`. -/
def Steps (E : δ → Prop) (X : Prop) (m : Prog δ ω Unit α) (Q : α → δ → Prop) (d : δ) : Prop :=
  wp (fun _ => E) X m (fun a _ d' _ => Q a d') [] d ()

theorem writes_past {past' : List ω} :
    Writes (fun _ => E) past d ws ↔ Writes (fun _ => E) past' d ws := by
  induction ws generalizing past past' d with
  | nil => exact Iff.rfl
  | cons w ws ih => exact and_congr Iff.rfl ih

variable {m : Prog δ ω Unit α}

theorem wp_past : wp (fun _ => E) X m (fun a _ d' _ => Q a d') past d () ↔ Steps E X m Q d :=
  and_congr writes_past Iff.rfl

@[simp] theorem steps_pure (a : α) : Steps E X (pure a : Prog δ ω Unit α) Q d ↔ Q a d := wp_pure a

@[simp] theorem steps_halt : Steps E X (Prog.halt : Prog δ ω Unit α) Q d ↔ X := wp_halt

@[simp] theorem steps_sense (f : δ → α) :
    Steps E X (Prog.sense f : Prog δ ω Unit α) Q d ↔ Q (f d) d := wp_sense f

@[simp] theorem steps_emit (w : ω) {Q : Unit → δ → Prop} :
    Steps E X (Prog.emit w : Prog δ ω Unit Unit) Q d ↔
      E (Device.write d w) ∧ Q () (Device.write d w) := wp_emit w

@[simp] theorem steps_bind {f : α → Prog δ ω Unit β} {Q : β → δ → Prop} :
    Steps E X (m >>= f) Q d ↔ Steps E X m (fun a d' => Steps E X (f a) Q d') d := by
  refine Iff.trans wp_bind ?_
  constructor
  · exact fun h => wp_mono h fun _ _ _ _ h' => wp_past.mp h'
  · exact fun h => wp_mono h fun _ _ _ _ h' => wp_past.mpr h'

theorem Steps.mono {Q' : α → δ → Prop} (h : Steps E X m Q d) (hQ : ∀ a d', Q a d' → Q' a d') :
    Steps E X m Q' d :=
  wp_mono h fun a _ d' _ => hQ a d'

theorem Steps.forUp {I : Nat → δ → Prop} {body : Nat → Prog δ ω Unit Unit} {n : Nat}
    (hbody : ∀ k < n, ∀ d, I k d → Steps E X (body k) (fun _ => I (k + 1)) d) (h : I 0 d) :
    Steps E X (Prog.forUp body 0 n) (fun _ => I n) d := by
  apply wp_forUp (I := fun k _ d' _ => I k d') (n := n)
  · exact fun k hk past d' _ hI => wp_past.mpr (hbody k hk d' hI)
  · exact Nat.zero_add n
  · exact h

theorem Steps.forM {ι : Type} {I : δ → Prop} {body : ι → Prog δ ω Unit PUnit}
    (hbody : ∀ x d, I d → Steps E X (body x) (fun _ => I) d) (xs : List ι) (h : I d) :
    Steps E X (xs.forM body) (fun _ => I) d := by
  induction xs generalizing d with
  | nil => exact (steps_pure (Q := fun _ => I) PUnit.unit).mpr h
  | cons x xs ih =>
    show Steps E X (body x >>= fun _ => xs.forM body) (fun _ => I) d
    rw [steps_bind]
    exact (hbody x d h).mono fun _ d' h' => ih h'

theorem Steps.take (h : Steps E X m Q d) (hd : E d) (k : Nat) : E (after d ((m d ()).1.take k)) :=
  h.1.take hd k

end Steps

end Programs

end Crash
