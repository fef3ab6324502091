import Mathlib.Algebra.BigOperators.Group.List.Basic
import Mathlib.Tactic.Abel
import DistributedSystems.Library.Runs

/-!
# Programs between critical sections

A program that runs atomic sections on a shared state and asks its environment in between; many of
them run interleaved.  `Holds` is a logic for one program, whatever the others do: sections move a
ghost value of the program, answers are added to its log.  Where every section adds a fixed amount to
a quantity of the shared state, no update is lost: the quantity is the sum of what the programs have
added.
-/

namespace Sections

open Transition

/-! ## 1. Programs -/

/-- `Q` are the questions to the environment, `A q` the answers to `q`. -/
inductive Prog (Q : Type) (A : Q → Type) (σ α : Type) where
  | ret (a : α)
  /-- A critical section; the program goes on with the state in which it began. -/
  | sect (f : σ → σ) (next : σ → Prog Q A σ α)
  | ask (q : Q) (next : A q → Prog Q A σ α)
  | stuck

variable {Q : Type} {A : Q → Type} {σ α β ρ : Type}

namespace Prog

def bind : Prog Q A σ α → (α → Prog Q A σ β) → Prog Q A σ β
  | .ret a, k => k a
  | .sect f next, k => .sect f fun s => (next s).bind k
  | .ask q next, k => .ask q fun a => (next a).bind k
  | .stuck, _ => .stuck

instance : Monad (Prog Q A σ) where
  pure := .ret
  bind := bind

def update (f : σ → σ) : Prog Q A σ PUnit := .sect f fun _ => .ret ⟨⟩

def look : Prog Q A σ σ := .sect id .ret

def request (q : Q) : Prog Q A σ (A q) := .ask q .ret

def result : Prog Q A σ α → Option α
  | .ret a => some a
  | _ => none

end Prog

abbrev Log (Q : Type) (A : Q → Type) := List (Sigma A)

/-! ## 2. A logic for one program -/

section Logic

variable {M : Type} (I : σ → Prop) (R : Log Q A → (q : Q) → A q → Prop) (E : M → (σ → σ) → M → Prop)

/-- Whatever states with `I` the program finds and whatever answers with `R` it gets: every section
moves the ghost value as `E` says, and a program that returns ends as `post` says. -/
def Holds (post : Log Q A → M → α → Prop) : Prog Q A σ α → Log Q A → M → Prop
  | .ret a, log, m => post log m a
  | .sect f next, log, m => ∃ m', E m f m' ∧ ∀ s, I s → Holds post (next s) log m'
  | .ask q next, log, m => ∀ a, R log q a → Holds post (next a) (⟨q, a⟩ :: log) m
  | .stuck, _, _ => True

variable {I R E} {post post' : Log Q A → M → α → Prop} {log : Log Q A} {m : M}

theorem holds_mono {p : Prog Q A σ α} (h : ∀ log m a, post log m a → post' log m a) :
    ∀ {log m}, Holds I R E post p log m → Holds I R E post' p log m := by
  induction p with
  | ret a => exact fun hp => h _ _ _ hp
  | sect f next ih =>
    intro log m ⟨m', hE, hnext⟩
    exact ⟨m', hE, fun s hs => ih s (hnext s hs)⟩
  | ask q next ih => exact fun hp a ha => ih a (hp a ha)
  | stuck => exact id

theorem holds_bind {p : Prog Q A σ α} {k : α → Prog Q A σ β} {post : Log Q A → M → β → Prop} :
    ∀ {log m}, Holds I R E (fun log m a => Holds I R E post (k a) log m) p log m →
      Holds I R E post (p >>= k) log m := by
  induction p with
  | ret a => exact id
  | sect f next ih =>
    intro log m ⟨m', hE, hnext⟩
    exact ⟨m', hE, fun s hs => ih s (hnext s hs)⟩
  | ask q next ih => exact fun hp a ha => ih a (hp a ha)
  | stuck => exact id

theorem holds_update {f : σ → σ} {post : Log Q A → M → PUnit → Prop} {m' : M} (hE : E m f m')
    (h : post log m' ⟨⟩) : Holds I R E post (Prog.update f) log m := ⟨m', hE, fun _ _ => h⟩

theorem holds_look {post : Log Q A → M → σ → Prop} (hE : E m id m)
    (h : ∀ s, I s → post log m s) : Holds I R E post Prog.look log m := ⟨m, hE, h⟩

theorem holds_request {q : Q} {post : Log Q A → M → A q → Prop}
    (h : ∀ a, R log q a → post (⟨q, a⟩ :: log) m a) :
    Holds I R E post (Prog.request q) log m := h

end Logic

/-! ## 3. One program alone -/

/-- The program with nobody else; the answers depend on the log. -/
def runAlone (env : Log Q A → (q : Q) → A q) :
    Prog Q A σ α → σ → Log Q A → Option (σ × Log Q A × α)
  | .ret a, s, log => some (s, log, a)
  | .sect f next, s, log => runAlone env (next s) (f s) log
  | .ask q next, s, log => runAlone env (next (env log q)) s (⟨q, env log q⟩ :: log)
  | .stuck, _, _ => none

theorem holds_runAlone {M : Type} {I : σ → Prop} {R : Log Q A → (q : Q) → A q → Prop}
    {E : M → (σ → σ) → M → Prop} (hI : ∀ m f m', E m f m' → ∀ s, I s → I (f s))
    {env : Log Q A → (q : Q) → A q} (hR : ∀ log q, R log q (env log q))
    {post : Log Q A → M → α → Prop} {p : Prog Q A σ α} :
    ∀ {log m s}, Holds I R E post p log m → I s →
      ∀ {s' log' a}, runAlone env p s log = some (s', log', a) → ∃ m', post log' m' a := by
  induction p with
  | ret a =>
    intro log m s hp _ s' log' a' hrun
    obtain ⟨_, rfl, rfl⟩ : s = s' ∧ log = log' ∧ a = a' := by
      simpa [runAlone] using hrun
    exact ⟨m, hp⟩
  | sect f next ih =>
    intro log m s ⟨m', hE, hnext⟩ hs s' log' a hrun
    exact ih s (hnext s hs) (hI m f m' hE s hs) hrun
  | ask q next ih =>
    intro log m s hp hs s' log' a hrun
    exact ih _ (hp _ (hR log q)) hs hrun
  | stuck =>
    intro log m s _ _ s' log' a hrun
    contradiction

/-! ## 4. A program that returns -/

section Sure

variable (I : σ → Prop) (R : (q : Q) → A q → Prop) (C : Q → Prop)

/-- Whatever states with `I` the program finds and whatever answers with `R` it gets: it asks only
what `C` allows, is never stuck, and returns what `post` says. -/
def Sure (post : α → Prop) : Prog Q A σ α → Prop
  | .ret a => post a
  | .sect _ next => ∀ s, I s → Sure post (next s)
  | .ask q next => C q ∧ ∀ a, R q a → Sure post (next a)
  | .stuck => False

variable {I R C} {p : Prog Q A σ α} {post : α → Prop}

theorem sure_bind {k : α → Prog Q A σ β} {post' : β → Prop} (hp : Sure I R C post p)
    (hk : ∀ a, post a → Sure I R C post' (k a)) : Sure I R C post' (p >>= k) := by
  induction p with
  | ret a => exact hk a hp
  | sect f next ih => exact fun s hs => ih s (hp s hs)
  | ask q next ih => exact ⟨hp.1, fun a ha => ih a (hp.2 a ha)⟩
  | stuck => exact hp

theorem sure_mono {post' : α → Prop} (hp : Sure I R C post p) (h : ∀ a, post a → post' a) :
    Sure I R C post' p := by
  induction p with
  | ret a => exact h a hp
  | sect f next ih => exact fun s hs => ih s (hp s hs)
  | ask q next ih => exact ⟨hp.1, fun a ha => ih a (hp.2 a ha)⟩
  | stuck => exact hp

theorem sure_update {f : σ → σ} : Sure I R C (fun _ => True) (Prog.update f : Prog Q A σ PUnit) :=
  fun _ _ => trivial

theorem sure_request {q : Q} {post : A q → Prop} (hq : C q) (h : ∀ a, R q a → post a) :
    Sure I R C post (Prog.request q) := ⟨hq, h⟩

theorem sure_runAlone {env : Log Q A → (q : Q) → A q} (hI : ∀ s, I s)
    (hR : ∀ log q, R q (env log q)) (hp : Sure I R C post p) :
    ∀ s log, ∃ s' log' a, runAlone env p s log = some (s', log', a) ∧ post a := by
  induction p with
  | ret a => exact fun s log => ⟨s, log, a, rfl, hp⟩
  | sect f next ih => exact fun s log => ih s (hp s (hI s)) (f s) log
  | ask q next ih => exact fun s log => ih _ (hp.2 _ (hR log q)) s _
  | stuck => exact absurd hp id

end Sure

/-! ## 5. Many programs -/

structure Thread (Q : Type) (A : Q → Type) (σ α ρ : Type) where
  request : ρ
  prog : Prog Q A σ α
  log : Log Q A

structure Pool (Q : Type) (A : Q → Type) (σ α ρ : Type) where
  shared : σ
  threads : List (Thread Q A σ α ρ)

inductive PoolEvent (Q : Type) (A : Q → Type) (ρ : Type) where
  | spawn (r : ρ)
  | run (i : Nat)
  | answer (i : Nat) (a : (q : Q) → A q)

namespace Pool

def perform (body : ρ → Prog Q A σ α) (p : Pool Q A σ α ρ) :
    PoolEvent Q A ρ → Option (Pool Q A σ α ρ)
  | .spawn r => some { p with threads := p.threads ++ [⟨r, body r, []⟩] }
  | .run i => p.threads[i]?.bind fun t =>
    match t.prog with
    | .sect f next =>
      some ⟨f p.shared, p.threads.set i { t with prog := next p.shared }⟩
    | _ => none
  | .answer i a => p.threads[i]?.bind fun t =>
    match t.prog with
    | .ask q next =>
      some { p with
        threads := p.threads.set i { t with prog := next (a q), log := ⟨q, a q⟩ :: t.log } }
    | _ => none

/-- The answer is one of those with `R`, after what the thread was told before. -/
def Answers (R : Log Q A → (q : Q) → A q → Prop) (p : Pool Q A σ α ρ) : PoolEvent Q A ρ → Prop
  | .answer i a => ∀ t q next, p.threads[i]? = some t → t.prog = .ask q next → R t.log q (a q)
  | _ => True

def script (answers : (q : Q) → A q) (i : Nat) : Prog Q A σ α → σ → List (PoolEvent Q A ρ)
  | .ret _, _ => []
  | .sect f next, s => .run i :: script answers i (next s) (f s)
  | .ask q next, s => .answer i answers :: script answers i (next (answers q)) s
  | .stuck, _ => []

theorem answers_script {R : Log Q A → (q : Q) → A q → Prop} {answers : (q : Q) → A q}
    (h : ∀ log q, R log q (answers q)) (p : Pool Q A σ α ρ) {i : Nat} {prog : Prog Q A σ α} :
    ∀ {s : σ} {a : PoolEvent Q A ρ}, a ∈ script answers i prog s → p.Answers R a := by
  induction prog with
  | ret _ => exact fun ha => absurd ha List.not_mem_nil
  | sect f next ih =>
    intro s a ha
    rcases List.mem_cons.mp ha with rfl | ha
    · trivial
    · exact ih s ha
  | ask q next ih =>
    intro s a ha
    rcases List.mem_cons.mp ha with rfl | ha
    · exact fun t q next _ _ => h t.log q
    · exact ih _ ha
  | stuck => exact fun ha => absurd ha List.not_mem_nil

def Idle (p : Pool Q A σ α ρ) : Prop := ∀ t ∈ p.threads, t.prog.result.isSome = true

instance (p : Pool Q A σ α ρ) : Decidable p.Idle :=
  inferInstanceAs (Decidable (∀ t ∈ p.threads, t.prog.result.isSome = true))

end Pool

/-! ## 6. Quantities that sections add to -/

section Adding

variable {M : Type} [AddCommGroup M]

def Adds (quantity : σ → M) (m : M) (f : σ → σ) (m' : M) : Prop :=
  ∀ s, quantity (f s) = quantity s + (m' - m)

/-- What the threads have added is what the quantity has gained. -/
def Balanced (R : Log Q A → (q : Q) → A q → Prop) (quantity : σ → M)
    (post : ρ → Log Q A → M → α → Prop) (start : M) (p : Pool Q A σ α ρ) : Prop :=
  ∃ added : List M, List.Forall₂ (fun t m => Holds (fun _ => True) R (Adds quantity)
      (post t.request) t.prog t.log m) p.threads added ∧
    quantity p.shared = start + added.sum

variable {R : Log Q A → (q : Q) → A q → Prop} {quantity : σ → M} {post : ρ → Log Q A → M → α → Prop}
  {start : M} {body : ρ → Prog Q A σ α}

theorem forall₂_set {γ δ : Type} {P : γ → δ → Prop} {xs : List γ} {ys : List δ}
    (h : List.Forall₂ P xs ys) {x : γ} {y : δ} (hxy : P x y) (i : Nat) :
    List.Forall₂ P (xs.set i x) (ys.set i y) := by
  induction h generalizing i with
  | nil => exact .nil
  | cons hhead htail ih =>
    cases i with
    | zero => exact .cons hxy htail
    | succ i => exact .cons hhead (ih i)

theorem forall₂_getElem? {γ δ : Type} {P : γ → δ → Prop} {xs : List γ} {ys : List δ}
    (h : List.Forall₂ P xs ys) {i : Nat} {x : γ} (hx : xs[i]? = some x) :
    ∃ y, ys[i]? = some y ∧ P x y := by
  induction h generalizing i with
  | nil => contradiction
  | cons hhead htail ih =>
    cases i with
    | zero =>
      obtain rfl := Option.some.inj hx
      exact ⟨_, rfl, hhead⟩
    | succ i => exact ih hx

variable {p : Pool Q A σ α ρ}

theorem Balanced.perform
    (hbody : ∀ r, Holds (fun _ => True) R (Adds quantity) (post r) (body r) [] 0)
    {p' : Pool Q A σ α ρ} {a : PoolEvent Q A ρ} (h : Balanced R quantity post start p)
    (ha : p.Answers R a) (hstep : p.perform body a = some p') :
    Balanced R quantity post start p' := by
  obtain ⟨added, hall, hsum⟩ := h
  cases a with
  | spawn r =>
    rw [← Option.some.inj hstep]
    refine ⟨added ++ [0], ?_, ?_⟩
    · exact List.rel_append hall (.cons (hbody r) .nil)
    · rw [List.sum_append, List.sum_singleton, add_zero]
      exact hsum
  | run i =>
    obtain ⟨t, ht, hstep⟩ := Option.bind_eq_some_iff.mp hstep
    obtain ⟨m, hm, hholds⟩ := forall₂_getElem? hall ht
    split at hstep
    · next f next hprog =>
      rw [hprog] at hholds
      obtain ⟨m', hadds, hnext⟩ := hholds
      rw [← Option.some.inj hstep]
      refine ⟨added.set i m', forall₂_set hall (hnext p.shared trivial) i, ?_⟩
      obtain ⟨hi, hm⟩ := List.getElem?_eq_some_iff.mp hm
      rw [hadds p.shared, hsum, List.sum_set', dif_pos hi, hm]
      abel
    · contradiction
  | answer i a =>
    obtain ⟨t, ht, hstep⟩ := Option.bind_eq_some_iff.mp hstep
    obtain ⟨m, hm, hholds⟩ := forall₂_getElem? hall ht
    split at hstep
    · next q next hprog =>
      rw [hprog] at hholds
      rw [← Option.some.inj hstep]
      -- the ghost value stays
      have hsame : added.set i m = added := by
        obtain ⟨hi, hm⟩ := List.getElem?_eq_some_iff.mp hm
        rw [← hm, List.set_getElem_self]
      refine ⟨added, ?_, hsum⟩
      have hset := forall₂_set hall (x := { t with prog := next (a q), log := ⟨q, a q⟩ :: t.log })
        (hholds (a q) (ha t q next ht hprog)) i
      rwa [hsame] at hset
    · contradiction

theorem Balanced.run (hbody : ∀ r, Holds (fun _ => True) R (Adds quantity) (post r) (body r) [] 0)
    {init : Pool Q A σ α ρ → Prop}
    (hinit : ∀ p, init p → p.threads = [] ∧ quantity p.shared = start)
    {past : List (Pool Q A σ α ρ × PoolEvent Q A ρ)}
    (hrun : Run init (fun p a p' => p.perform body a = some p') past p)
    (hpast : ∀ x ∈ past, x.1.Answers R x.2) : Balanced R quantity post start p := by
  apply hrun.invariant_of (I := Balanced R quantity post start) (C := Pool.Answers R) _ _ hpast
  · intro p hp
    obtain ⟨hthreads, hquantity⟩ := hinit p hp
    refine ⟨[], ?_, ?_⟩
    · rw [hthreads]
      exact .nil
    · rw [hquantity, List.sum_nil, add_zero]
  · exact fun p a p' h ha hstep => h.perform hbody ha hstep

theorem Balanced.idle {due : Thread Q A σ α ρ → M} (h : Balanced R quantity post start p)
    (hidle : p.Idle)
    (hdue : ∀ t ∈ p.threads, ∀ m a, t.prog = .ret a → post t.request t.log m a → m = due t) :
    quantity p.shared = start + (p.threads.map due).sum := by
  obtain ⟨added, hall, hsum⟩ := h
  rw [hsum]
  congr 2
  unfold Pool.Idle at hidle
  generalize p.threads = threads at hall hidle hdue
  clear hsum
  induction hall with
  | nil => rfl
  | @cons t m threads added hhead _ ih =>
    obtain ⟨a, ha⟩ := Option.isSome_iff_exists.mp (hidle t List.mem_cons_self)
    have hret : t.prog = .ret a := by
      unfold Prog.result at ha
      split at ha
      · next hprog => rw [hprog, Option.some.inj ha]
      · contradiction
    rw [hret] at hhead
    rw [List.map_cons, hdue t List.mem_cons_self m a hret hhead,
      ih (fun t' ht' => hidle t' (List.mem_cons_of_mem _ ht'))
        fun t' ht' => hdue t' (List.mem_cons_of_mem _ ht')]

end Adding

end Sections
