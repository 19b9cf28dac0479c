import Effectful.Computation
import Effectful.Program.Interpretation
/-!
# A simulated console

The target whose programs pass on two buffers: the lines still to be read and the lines printed so
far. A transition answers a computation, so chaining any number of them uses constant stack.
-/
namespace Effectful

/-- The lines still to be read, and the lines printed so far. -/
structure Buffers where
  input : List String := []
  output : Array String := #[]
deriving DecidableEq, Repr, Inhabited

/-- A step of the simulation: it answers together with the buffers that it leaves. -/
abbrev Transition (R W α : Type) : Type 1 := Buffers → R → Computation R W (α × Buffers)

namespace Transition

variable {R W α β : Type}

def lift (a : α) : Transition R W α := fun buffers _ => .done (a, buffers)

/-- Starts the next transition from the buffers that the first one leaves. -/
def sequence (first : Transition R W α) (rest : α → R → Outcome (Transition R W β)) :
    Transition R W β := fun buffers r =>
  .bind (first buffers r) fun x r =>
    match rest x.1 r with
    | .ok next => next x.2 r
    | .error e => .raise e

/-- Runs a transition from given buffers. -/
def run [View W R] (t : Transition R W α) (initial : Buffers) : Action W (α × Buffers) := fun w =>
  Computation.run (t initial (View.look w)) w

end Transition

def Target.simulated (R W : Type) : Context R (Transition R W) where
  name := "ConsoleState"
  lift := Transition.lift
  sequence := Transition.sequence

end Effectful
