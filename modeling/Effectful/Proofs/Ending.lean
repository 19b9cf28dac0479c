import Effectful.Action
import Mathlib.Order.Filter.AtTopBot.Basic
/-!
# Runs that need not end

A loop that need not end is cut off after a number of rounds and then fails with `outOfFuel`. What
such a loop does is known from all its cut-offs together: it ends when some number of rounds is enough,
and from then on every further cut-off comes to the same.
-/
namespace Effectful

open Filter

/-- The cut-offs of a run come to the outcome `x` in the world `w`, which is not the outcome of being
cut off. -/
def EndsWith {W α : Type} (run : Nat → Outcome α × W) (x : Outcome α) (w : W) : Prop :=
  x ≠ .error .outOfFuel ∧ ∀ᶠ n in atTop, run n = (x, w)

theorem EndsWith.unique {W α : Type} {run : Nat → Outcome α × W} {x x' : Outcome α} {w w' : W}
    (h : EndsWith run x w) (h' : EndsWith run x' w') : x = x' ∧ w = w' := by
  obtain ⟨n,hn,hn'⟩ := (h.2.and h'.2).exists
  exact Prod.mk.inj (hn.symm.trans hn')

theorem eventually_eq_iff {X : Type} {run : Nat → X} {x y : X} (h : ∀ᶠ n in atTop, run n = x) :
    (∀ᶠ n in atTop, run n = y) ↔ x = y := by
  constructor
  · intro hy
    obtain ⟨n,hx,hy⟩ := (h.and hy).exists
    exact hx.symm.trans hy
  · rintro rfl
    exact h

end Effectful
