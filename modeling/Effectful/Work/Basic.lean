import Effectful.Program.Interpretation
/-!
# Concurrent work

Work is a description of effects that an executor runs on turns. Starting it performs what can be
done at once; `fork` asks for a later turn, and a continuation never runs on the stretch that made
its answer. A failure ends the work, but not the other side of a pair that has begun.
-/
namespace Effectful

/-- What a registered callback is told: the answers that it receives at once, and those that it
receives on later turns, each after an effect. The first of all of them counts. The later calls are
fixed when the callback is registered: they cannot put off further ones, and where registering fails
there are none. -/
structure Reply (W α : Type) where
  now : List α
  later : List (W → α × W)

/-- A description of work that an executor may start, any number of times. -/
inductive Work (R W : Type) : Type → Type 1
  | answer {α : Type} (a : α) : Work R W α
  | reject {α : Type} (e : Failure) : Work R W α
  /-- An action on the turn that starts the work. -/
  | delay {α : Type} (t : Action W α) : Work R W α
  /-- Starts the work on a later turn. -/
  | fork {α : Type} (w : Work R W α) : Work R W α
  /-- Work that completes when its callback is called. To register it either fails, and leaves no
  call for a later turn, or tells all the calls there will be; see `Reply`. -/
  | callback {α : Type} (register : Action W (Reply W α)) : Work R W α
  | andThen {α β : Type} (w : Work R W β) (f : β → R → Work R W α) : Work R W α
  /-- Starts both sides, left first, and joins their answers. -/
  | both {α β γ : Type} (left : Work R W β) (right : Work R W γ) (f : β → γ → R → Outcome α) :
      Work R W α

namespace Work

variable {R W α β : Type}

def ofOutcome : Outcome (Work R W α) → Work R W α
  | .ok w => w
  | .error e => reject e

def later (t : Action W α) : Work R W α := fork (delay t)

def map (w : Work R W α) (f : α → β) : Work R W β := andThen w fun a _ => answer (f a)

/-- Starts work on a later turn and goes on with what its answer leads to. -/
def sequence (w : Work R W α) (f : α → R → Outcome (Work R W β)) : Work R W β :=
  fork (andThen w fun a r => ofOutcome (f a r))

/-- Work as a target of interpretation. Chained work goes on on the executor instead of on the
caller's turn. -/
def context : Context R (Work R W) where
  name := "Par"
  lift := answer
  sequence := sequence

/-- Work as a target whose chains start on the caller's turn. -/
def eagerContext : Context R (Work R W) where
  name := "Par"
  lift := answer
  sequence w f := andThen w fun a r => ofOutcome (f a r)

/-- The work that a program of suspended work stands for, started on the caller's turn. -/
def ofSuspended (p : Program R (Work R W) α) (r : R) : Outcome (Work R W α) :=
  p.interpret "async run" Translator.id eagerContext r

/-- The work that a program of effects stands for, chained on the executor. -/
def ofProgram (p : Program R (Work R W) α) (r : R) : Outcome (Work R W α) :=
  p.runIn Translator.id context r

end Work

end Effectful
