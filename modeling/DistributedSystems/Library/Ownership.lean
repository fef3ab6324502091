import Mathlib.Logic.Basic

/-!
# Exclusive ownership

Items of a pool are put to uses.  `Exclusive uses ok` says that an item has at most one use and that
every item in use is one of the `ok` ones.  An item outside of `ok` is therefore free to be taken.
-/

namespace Ownership

variable {Use Item : Type*} {uses uses' : Use → Item → Prop} {ok ok' : Item → Prop}

structure Exclusive (uses : Use → Item → Prop) (ok : Item → Prop) : Prop where
  unique : ∀ u v x, uses u x → uses v x → u = v
  backed : ∀ u x, uses u x → ok x

namespace Exclusive

theorem unused (h : Exclusive uses ok) {x : Item} (hx : ¬ ok x) (u : Use) : ¬ uses u x :=
  fun hu => hx (h.backed u x hu)

theorem shrink (h : Exclusive uses ok) (hsub : ∀ u x, uses' u x → uses u x)
    (hok : ∀ u x, uses' u x → ok x → ok' x) : Exclusive uses' ok' where
  unique u v x hu hv := h.unique u v x (hsub u x hu) (hsub v x hv)
  backed u x hu := hok u x hu (h.backed u x (hsub u x hu))

theorem add (h : Exclusive uses ok) (u₀ : Use) {x₀ : Item} (hfree : ∀ u, ¬ uses u x₀)
    (hx₀ : ok x₀) (hsub : ∀ u x, uses' u x → uses u x ∨ (u = u₀ ∧ x = x₀)) :
    Exclusive uses' ok where
  unique u v x hu hv := by
    rcases hsub u x hu with hu | ⟨rfl, rfl⟩
    · rcases hsub v x hv with hv | ⟨rfl, rfl⟩
      · exact h.unique u v x hu hv
      · exact absurd hu (hfree u)
    · rcases hsub v x hv with hv | ⟨rfl, _⟩
      · exact absurd hv (hfree v)
      · rfl
  backed u x hu := by
    rcases hsub u x hu with hu | ⟨_, rfl⟩
    · exact h.backed u x hu
    · exact hx₀

theorem widen (h : Exclusive uses ok) (hok : ∀ x, ok x → ok' x) : Exclusive uses ok' :=
  h.shrink (fun _ _ hu => hu) fun _ x _ hx => hok x hx

end Exclusive

end Ownership
