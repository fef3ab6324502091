import Mathlib.Data.List.Basic

/-!
# Programs that fail and keep their state

Weakest preconditions for `EStateM`: a program that fails leaves the state as it was at that moment.
`wp m Q R s` says that from `s` the program returns as `Q` says or fails as `R` says.
-/

namespace Fallible

variable {ε σ α β ι : Type}

def wp (m : EStateM ε σ α) (Q : α → σ → Prop) (R : ε → σ → Prop) (s : σ) : Prop :=
  match m s with
  | .ok a s' => Q a s'
  | .error e s' => R e s'

variable {Q Q' : α → σ → Prop} {R R' : ε → σ → Prop} {s : σ}

/-! ## 1. Primitives -/

@[simp] theorem wp_pure (a : α) : wp (pure a : EStateM ε σ α) Q R s ↔ Q a s := Iff.rfl

@[simp] theorem wp_throw (e : ε) : wp (throw e : EStateM ε σ α) Q R s ↔ R e s := Iff.rfl

@[simp] theorem wp_get {Q : σ → σ → Prop} : wp (get : EStateM ε σ σ) Q R s ↔ Q s s := Iff.rfl

@[simp] theorem wp_set {Q : PUnit → σ → Prop} (s' : σ) :
    wp (set s' : EStateM ε σ PUnit) Q R s ↔ Q ⟨⟩ s' := Iff.rfl

@[simp] theorem wp_modify {Q : PUnit → σ → Prop} (f : σ → σ) :
    wp (modify f : EStateM ε σ PUnit) Q R s ↔ Q ⟨⟩ (f s) := Iff.rfl

variable {m : EStateM ε σ α}

theorem wp_bind {f : α → EStateM ε σ β} {Q : β → σ → Prop} :
    wp (m >>= f) Q R s ↔ wp m (fun a s' => wp (f a) Q R s') R s := by
  show (match EStateM.bind m f s with
    | .ok a s' => Q a s'
    | .error e s' => R e s') ↔ _
  unfold wp EStateM.bind
  cases m s with
  | ok a s' => rfl
  | error e s' => rfl

theorem wp_mono (h : wp m Q R s) (hQ : ∀ a s', Q a s' → Q' a s') (hR : ∀ e s', R e s' → R' e s') :
    wp m Q' R' s := by
  unfold wp at h ⊢
  cases hm : m s with
  | ok a s' =>
    rw [hm] at h
    exact hQ a s' h
  | error e s' =>
    rw [hm] at h
    exact hR e s' h

theorem wp_and (h : wp m Q R s) (h' : wp m Q' R' s) :
    wp m (fun a s' => Q a s' ∧ Q' a s') (fun e s' => R e s' ∧ R' e s') s := by
  unfold wp at h h' ⊢
  cases hm : m s with
  | ok a s' =>
    rw [hm] at h h'
    exact ⟨h, h'⟩
  | error e s' =>
    rw [hm] at h h'
    exact ⟨h, h'⟩

theorem wp_ok (h : wp m Q R s) {a : α} {s' : σ} (hm : m s = .ok a s') : Q a s' := by
  unfold wp at h
  rw [hm] at h
  exact h

theorem wp_of_ok {a : α} {s' : σ} (hm : m s = .ok a s') (hQ : Q a s') : wp m Q R s := by
  unfold wp
  rw [hm]
  exact hQ

theorem wp_returns (h : wp m Q (fun _ _ => False) s) : ∃ a s', m s = .ok a s' ∧ Q a s' := by
  unfold wp at h
  cases hm : m s with
  | ok a s' =>
    rw [hm] at h
    exact ⟨a, s', rfl, h⟩
  | error e s' =>
    rw [hm] at h
    exact h.elim

/-! ## 2. Loops -/

theorem wp_forM {body : ι → EStateM ε σ PUnit} {I : List ι → σ → Prop} (xs : List ι) (hI : I [] s)
    (hbody : ∀ done x rest s, xs = done ++ x :: rest → I done s →
      wp (body x) (fun _ s' => I (done ++ [x]) s') R s) :
    wp (xs.forM body) (fun _ s' => I xs s') R s := by
  have hloop : ∀ todo done s, xs = done ++ todo → I done s →
      wp (todo.forM body) (fun _ s' => I xs s') R s := by
    intro todo
    induction todo with
    | nil =>
      intro done s hxs hI
      rw [List.append_nil] at hxs
      rw [hxs]
      exact hI
    | cons x todo ih =>
      intro done s hxs hI
      show wp (body x >>= fun _ => todo.forM body) _ R s
      rw [wp_bind]
      apply wp_mono (hbody done x todo s hxs hI)
      · intro _ s' hI'
        exact ih (done ++ [x]) s' (by rw [hxs, List.append_assoc, List.singleton_append]) hI'
      · exact fun _ _ h => h
  exact hloop xs [] s rfl hI

def forUp (body : Nat → EStateM ε σ PUnit) : Nat → Nat → EStateM ε σ PUnit
  | _, 0 => pure ⟨⟩
  | k, n + 1 => do
    body k
    forUp body (k + 1) n

theorem wp_forUp {body : Nat → EStateM ε σ PUnit} {I : Nat → σ → Prop} (n : Nat) :
    ∀ (k : Nat) {s : σ}, I k s →
      (∀ i s, k ≤ i → i < k + n → I i s → wp (body i) (fun _ s' => I (i + 1) s') R s) →
      wp (forUp body k n) (fun _ s' => I (k + n) s') R s := by
  induction n with
  | zero => intro k s hI _; exact hI
  | succ n ih =>
    intro k s hI hbody
    unfold forUp
    rw [wp_bind]
    apply wp_mono (hbody k s (Nat.le_refl k) (by omega) hI)
    · intro _ s' hI'
      have hrest := ih (k + 1) hI' fun i s hk hn hI => hbody i s (by omega) (by omega) hI
      rwa [show k + 1 + n = k + (n + 1) by omega] at hrest
    · exact fun _ _ h => h

/-! ## 3. What both ends keep -/

/-- A property of the state that the program keeps, whether it returns or fails. -/
def Keeps (I : σ → Prop) (m : EStateM ε σ α) : Prop := ∀ s, I s → wp m (fun _ => I) (fun _ => I) s

variable {I : σ → Prop}

theorem keeps_pure (a : α) : Keeps I (pure a : EStateM ε σ α) := fun _ h => h

theorem keeps_throw (e : ε) : Keeps I (throw e : EStateM ε σ α) := fun _ h => h

theorem keeps_bind {f : α → EStateM ε σ β} (hm : Keeps I m) (hf : ∀ a, Keeps I (f a)) :
    Keeps I (m >>= f) := by
  intro s h
  rw [wp_bind]
  exact wp_mono (hm s h) (fun a s' h' => hf a s' h') fun _ _ h' => h'

end Fallible
