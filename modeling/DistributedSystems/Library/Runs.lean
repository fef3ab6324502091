import Mathlib.Data.List.Basic

/-!
# Runs of a labelled transition system

A run keeps its whole past, latest moment first, so that a property may compare two moments of one
run.  `replay` executes a partial step function along a list of labels and stops at the first label
that is not enabled; what it produces is a run.
-/

namespace Transition

variable {State Label : Type*}

/-- `Run init step past s`: the run reached `s`, and `past` lists the states it left together with
the labels it left them by. -/
inductive Run (init : State → Prop) (step : State → Label → State → Prop) :
    List (State × Label) → State → Prop
  | start {s : State} (h : init s) : Run init step [] s
  | next {past : List (State × Label)} {s s' : State} {a : Label}
      (hr : Run init step past s) (h : step s a s') : Run init step ((s, a) :: past) s'

def Visited (past : List (State × Label)) (s x : State) : Prop :=
  x = s ∨ ∃ a, (x, a) ∈ past

theorem visited_now (past : List (State × Label)) (s : State) : Visited past s s := Or.inl rfl

variable {past : List (State × Label)}

variable {s : State}

theorem visited_next {s' x : State} {a : Label} :
    Visited ((s, a) :: past) s' x ↔ x = s' ∨ Visited past s x := by
  constructor
  · rintro (h | ⟨b, hb⟩)
    · exact Or.inl h
    · rcases List.mem_cons.mp hb with he | ht
      · exact Or.inr (Or.inl (Prod.mk.inj he).1)
      · exact Or.inr (Or.inr ⟨b, ht⟩)
  · rintro (h | h | ⟨b, hb⟩)
    · exact Or.inl h
    · exact Or.inr ⟨a, by rw [h]; exact List.mem_cons_self⟩
    · exact Or.inr ⟨b, List.mem_cons_of_mem _ hb⟩

variable {init : State → Prop} {step step' : State → Label → State → Prop}

/-- A predicate on states that holds initially and is kept by every step holds all along. -/
theorem Run.invariant {I : State → Prop} (hinit : ∀ s, init s → I s)
    (hstep : ∀ s a s', I s → step s a s' → I s') (hr : Run init step past s) : I s := by
  induction hr with
  | start h => exact hinit _ h
  | next _ h ih => exact hstep _ _ _ ih h

theorem Run.invariant_of {I : State → Prop} {C : State → Label → Prop} (hinit : ∀ s, init s → I s)
    (hstep : ∀ s a s', I s → C s a → step s a s' → I s') (hr : Run init step past s)
    (hC : ∀ x ∈ past, C x.1 x.2) : I s := by
  induction hr with
  | start h => exact hinit _ h
  | next _ h ih =>
    have hold := ih fun x hx => hC x (List.mem_cons_of_mem _ hx)
    exact hstep _ _ _ hold (hC _ List.mem_cons_self) h

/-- Execute `exec` along the labels, collecting the past; stop where a label is not enabled. -/
def replay (exec : State → Label → Option State) :
    List (State × Label) → State → List Label → List (State × Label) × State
  | past, s, [] => (past, s)
  | past, s, a :: as =>
    match exec s a with
    | some s' => replay exec ((s, a) :: past) s' as
    | none => (past, s)

theorem replay_run {exec : State → Label → Option State}
    (hexec : ∀ s a s', exec s a = some s' → step s a s') (as : List Label) :
    ∀ (past : List (State × Label)) (s : State), Run init step past s →
      Run init step (replay exec past s as).1 (replay exec past s as).2 := by
  induction as with
  | nil => intro past s hr; exact hr
  | cons a as ih =>
    intro past s hr
    unfold replay
    split
    · rename_i s' hs
      exact ih _ _ (Run.next hr (hexec s a s' hs))
    · exact hr

theorem replay_label {exec : State → Label → Option State} {as : List Label} {x : State × Label} :
    ∀ {past : List (State × Label)} {s : State}, x ∈ (replay exec past s as).1 →
      x ∈ past ∨ x.2 ∈ as := by
  induction as with
  | nil => exact fun hx => Or.inl hx
  | cons a as ih =>
    intro past s hx
    unfold replay at hx
    split at hx
    · rcases ih hx with hpast | has
      · rcases List.mem_cons.mp hpast with rfl | hpast
        · exact Or.inr List.mem_cons_self
        · exact Or.inl hpast
      · exact Or.inr (List.mem_cons_of_mem _ has)
    · exact Or.inl hx

end Transition
