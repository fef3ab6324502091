import Mathlib.Data.Nat.Basic

/-!
# Loops

`runWhile` returns nothing when the fuel runs out before the loop's condition fails.  The rule for
total correctness takes an invariant that counts the iterations left, and gives the result for every
fuel that covers them.  A loop over a list is a `foldl`.
-/

namespace Loops

/-! ## While loops -/

variable {σ : Type*}

def runWhile (cond : σ → Bool) (body : σ → σ) : Nat → σ → Option σ
  | 0, s => if cond s then none else some s
  | fuel + 1, s => if cond s then runWhile cond body fuel (body s) else some s

variable {cond : σ → Bool} {body : σ → σ}

theorem runWhile_done {s : σ} (h : cond s = false) (fuel : Nat) :
    runWhile cond body fuel s = some s := by
  cases fuel with
  | zero => simp only [runWhile, h, Bool.false_eq_true, if_false]
  | succ fuel => simp only [runWhile, h, Bool.false_eq_true, if_false]

theorem runWhile_next {s : σ} (h : cond s = true) (fuel : Nat) :
    runWhile cond body (fuel + 1) s = runWhile cond body fuel (body s) := by
  simp only [runWhile, h, if_true]

/-- **Total correctness.**  The invariant `I k` allows at most `k` more iterations, and every
iteration lowers `k`. -/
theorem runWhile_total {I : Nat → σ → Prop}
    (hstep : ∀ k s, I k s → cond s = true → ∃ k', k' < k ∧ I k' (body s)) :
    ∀ (fuel k : Nat) (s : σ), I k s → k ≤ fuel →
      ∃ k' s', runWhile cond body fuel s = some s' ∧ I k' s' ∧ cond s' = false := by
  intro fuel
  induction fuel with
  | zero =>
    intro k s hI hk
    cases hc : cond s with
    | false => exact ⟨k, s, runWhile_done hc 0, hI, hc⟩
    | true =>
      obtain ⟨k', hlt, _⟩ := hstep k s hI hc
      omega
  | succ fuel ih =>
    intro k s hI hk
    cases hc : cond s with
    | false => exact ⟨k, s, runWhile_done hc _, hI, hc⟩
    | true =>
      obtain ⟨k', hlt, hI'⟩ := hstep k s hI hc
      rw [runWhile_next hc]
      exact ih k' (body s) hI' (by omega)

theorem runWhile_rel {τ : Type*} {R : σ → τ → Prop} {cond' : τ → Bool} {body' : τ → τ}
    (hcond : ∀ s s', R s s' → cond s = cond' s')
    (hbody : ∀ s s', R s s' → R (body s) (body' s')) :
    ∀ (fuel : Nat) (s : σ) (s' : τ), R s s' →
      Option.Rel R (runWhile cond body fuel s) (runWhile cond' body' fuel s') := by
  intro fuel
  induction fuel with
  | zero =>
    intro s s' h
    unfold runWhile
    rw [hcond s s' h]
    split
    · exact .none
    · exact .some h
  | succ fuel ih =>
    intro s s' h
    unfold runWhile
    rw [hcond s s' h]
    split
    · exact ih _ _ (hbody s s' h)
    · exact .some h

/-! ## Loops over a list -/

variable {ι : Type*} {f : σ → ι → σ}

theorem foldl_keeps {I : σ → Prop} (hkeep : ∀ s i, I s → I (f s i)) :
    ∀ (l : List ι) (s : σ), I s → I (l.foldl f s) := by
  intro l
  induction l with
  | nil => exact fun s hs => hs
  | cons i l ih => exact fun s hs => ih (f s i) (hkeep s i hs)

theorem foldl_establishes {G : ι → σ → Prop} (hset : ∀ s i, G i (f s i))
    (hkeep : ∀ s i j, G j s → G j (f s i)) (l : List ι) :
    ∀ (s : σ) (j : ι), j ∈ l → G j (l.foldl f s) := by
  induction l with
  | nil => exact fun _ _ hj => absurd hj List.not_mem_nil
  | cons i l ih =>
    intro s j hj
    rcases List.mem_cons.mp hj with rfl | hj
    · exact foldl_keeps (fun s i => hkeep s i j) l _ (hset s j)
    · exact ih (f s i) j hj

end Loops
