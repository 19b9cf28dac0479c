import Effectful.Work.Basic
/-!
# Routines

A routine is a program whose operations are work for the executor: actions, callbacks, or any other
work. Two routines can run side by side as one operation of a third.
-/
namespace Effectful

/-- A program of executor work. -/
abbrev Routine (R W : Type) : Type → Type 1 := Program R (Work R W)

namespace Routine

variable {R W α β : Type}

/-- An action on the turn that reaches it. -/
def act (t : Action W α) : Routine R W α := .effect (.delay t)

/-- An effect that completes when its callback is called. -/
def await (register : Action W (Reply W α)) : Routine R W α := .effect (.callback register)

/-- Two routines side by side, as one operation that answers both results. -/
def both (left : Routine R W α) (right : Routine R W β) (r : R) : Outcome (Routine R W (α × β)) :=
  (Work.ofProgram left r).andThen fun left =>
    (Work.ofProgram right r).map fun right => .effect (.both left right fun a b _ => .ok (a, b))

end Routine

end Effectful
