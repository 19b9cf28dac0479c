import Effectful.Program.Evaluation
import Effectful.Program.Loop
/-!
# Folds and loops, read directly

A fold that is written as a program is the plain loop over its items: each body is built from what the bodies before
it have come to, and run where they have left the world.
-/
namespace Effectful

universe u

variable {R W T : Type} {F : Type → Type u} {α β γ : Type}

def Action.foldl (step : β → T → Action W β) : List T → β → Action W β
  | [], acc => answer acc
  | item :: items, acc => (step acc item).andThen (foldl step items)

theorem Action.foldl_answer (f : β → T → β) (items : List T) (acc : β) :
    (Action.foldl (fun acc item => answer (f acc item)) items acc : Action W β) = answer (items.foldl f acc) := by
  induction items generalizing acc with
  | nil => rfl
  | cons item items ih => exact ih (f acc item)

namespace Program

variable [View W R] {driver : String} {t : Translator F (Action W)}

theorem eval_ofOutcome_bind (x : Outcome (Program R F β)) (k : β → R → Program R F α) :
    (ofOutcome (x.map fun p => bind p k)).eval driver t =
      ((ofOutcome x).eval driver t).andThen fun b w => (k b (View.look w)).eval driver t w := by
  cases x <;> rfl

theorem eval_fold (items : List T) (initial : β) (f : β → T → R → Outcome (Program R F β)) (w : W) :
    (ofOutcome (fold items initial f (View.look w))).eval driver t w =
      Action.foldl (fun acc item w => (ofOutcome (f acc item (View.look w))).eval driver t w) items initial w := by
  induction items generalizing initial w with
  | nil => rfl
  | cons item items ih =>
    rw [fold,eval_ofOutcome_bind]
    simp only [Action.foldl,Action.andThen,ih]

/-- One round of a loop: its program, then the condition, and then perhaps the other rounds. -/
theorem eval_doWhile_succ (fuel : Nat) (p : Program R F α) (condition : α → R → Program R F Bool) :
    (doWhile (fuel + 1) p condition).eval driver t =
      (p.eval driver t).andThen fun a w => (((condition a (View.look w)).eval driver t).andThen fun again =>
        if again then (doWhile fuel p condition).eval driver t else .answer ()) w := by
  have hround : ∀ again : Bool, (if again then doWhile fuel p condition else done ()).eval driver t =
      if again then (doWhile fuel p condition).eval driver t else .answer () := by
    intro again
    cases again <;> rfl
  simp only [doWhile,eval,hround]

end Program

end Effectful
