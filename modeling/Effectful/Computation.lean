import Effectful.Program.Evaluation
/-!
# Computations

A computation is a program whose operations are actions, so it can be run directly. `run` reduces
and acts in one loop; each round of it applies one continuation, turns one bind, or performs one
action. It uses constant stack however the binds are nested.
-/
namespace Effectful

/-- A program whose operations are actions on the world. -/
abbrev Computation (R W : Type) : Type → Type 1 := Program R (Action W)

namespace Computation

variable {R W α : Type} [View W R]

def delay (t : Action W α) : Computation R W α := .effect t

/-- What one round of the loop brings: a further computation, or the end. -/
inductive Round (R W α : Type) : Type 1
  | again (c : Computation R W α) (w : W)
  | ended (result : Outcome α) (w : W)

/-- The end at a malformed node. The loop has no case for such a node: a bare one would keep it
going for ever, and one left of a bind would break it down. Neither is described, so the failure and
its name `run` are a convention. -/
private def stopped (tag : String) (w : W) : Round R W α :=
  .ended (.error (.ofReason (.invariantViolation "run" tag))) w

/-- One round of the loop. Malformed nodes end it by convention; see `stopped`. -/
def round (c : Computation R W α) (w : W) : Round R W α :=
  match c with
  | .done a => .ended (.ok a) w
  | .effect t =>
    match t w with
    | (result, w) => .ended result w
  | .malformed tag => stopped tag w
  | .raise e => .ended (.error e) w
  | .bind (.done a) k => .again (k a (View.look w)) w
  | .bind (.effect t) k =>
    match t w with
    | (.ok a, w) => .again (k a (View.look w)) w
    | (.error e, w) => .ended (.error e) w
  | .bind (.bind y g) k => .again (.bind y fun a r => .bind (g a r) k) w
  | .bind (.malformed tag) _ => stopped tag w
  | .bind (.raise e) _ => .ended (.error e) w

theorem next_of_round {c c' : Computation R W α} {w w' : W} (h : round c w = .again c' w') :
    Program.Next c' c := by
  unfold round at h
  split at h
  case h_5 => cases h; exact .resume ..
  case h_6 =>
    split at h <;> cases h
    exact .answer ..
  case h_7 => cases h; exact .rotate ..
  all_goals cases h

/-- Reduces a computation to its answer, performing each action when it comes to the front. -/
def run (c : Computation R W α) (w : W) : Outcome α × W :=
  match _h : round c w with
  | .again c w => run c w
  | .ended result w => (result, w)
termination_by c
decreasing_by exact .single (next_of_round _h)

/-- Performs the actions of a computation one by one, each after the reductions before it. -/
def execute (c : Computation R W α) : Action W α :=
  Program.execute "runTrampoline" Translator.id c

/-- The meaning of a computation, read from left to right. -/
def eval (c : Computation R W α) : Action W α := Program.eval "run" Translator.id c

end Computation

end Effectful
