import Effectful.Program.Evaluation
import Effectful.Work.Basic
/-!
# The meaning of work

The direct reading of work, from left to right and without turns: a fork is the work itself, a
callback is the effect of its registration with the first answer, and a pair runs its left side to
the end before its right one. For a routine, each operation is read in this way.
-/
namespace Effectful

variable {R W α : Type}

/-- Performs effects whose answers come too late to count. -/
def Reply.performStrays (effects : List (W → α × W)) (w : W) : W :=
  effects.foldl (fun w effect => (effect w).2) w

/-- The first answer of a reply, after the effects that come before it. -/
def Reply.settle : Reply W α → Action W α
  | ⟨a :: _, later⟩, w => (.ok a, performStrays later w)
  | ⟨[], first :: later⟩, w =>
    match first w with
    | (a, w) => (.ok a, performStrays later w)
  | ⟨[], []⟩, w => (.error .outOfFuel, w)

/-- The meaning of work as one action. -/
def Work.eval {α : Type} [View W R] : Work R W α → Action W α
  | .answer a => .answer a
  | .reject e => .fail e
  | .delay t => t
  | .fork w => eval w
  | .callback register => register.andThen Reply.settle
  | .andThen w f => (eval w).andThen fun a world => eval (f a (View.look world)) world
  | .both left right f =>
    (eval left).andThen fun a => (eval right).andThen fun b world =>
      (f a b (View.look world), world)

/-- Reads each piece of work directly. -/
def Work.directly [View W R] : Translator (Work R W) (Action W) := ⟨fun w => .ok w.eval⟩

/-- The meaning of a program of work, read from left to right. -/
def Work.evalProgram [View W R] (p : Program R (Work R W) α) : Action W α :=
  p.eval "runFree" directly

end Effectful
