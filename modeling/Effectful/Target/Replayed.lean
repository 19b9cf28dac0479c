import Effectful.Computation
import Effectful.Program.Interpretation
/-!
# One line for every read

The target whose programs know a single line of input, which every read answers.
-/
namespace Effectful

/-- A computation that knows one line of input. -/
abbrev Replay (R W α : Type) : Type 1 := String → R → Computation R W α

namespace Replay

variable {R W α β : Type}

def lift (a : α) : Replay R W α := fun _ _ => .done a

/-- Hands the same line to both parts. -/
def sequence (first : Replay R W α) (rest : α → R → Outcome (Replay R W β)) : Replay R W β :=
  fun line r =>
    .bind (first line r) fun a r =>
      match rest a r with
      | .ok next => next line r
      | .error e => .raise e

/-- Runs a replay on a line. -/
def run [View W R] (p : Replay R W α) (line : String) : Action W α := fun w =>
  Computation.run (p line (View.look w)) w

end Replay

def Target.replayed (R W : Type) : Context R (Replay R W) where
  name := "ConsoleReader"
  lift := Replay.lift
  sequence := Replay.sequence

end Effectful
