import Effectful.Action
/-!
# Programs

A program over a vocabulary `F` is a description of effects: a finished answer, one operation of
`F`, or a part followed by a continuation. It does nothing until an interpreter reduces it, and may
be interpreted any number of times. A continuation receives the answer of the part before it and
what it may observe of the world, of type `R`; the programs that it builds are built only then.

The node `raise` is the result of a continuation that failed instead of building a program, and
`malformed` is a node of a kind that no reduction knows.
-/
namespace Effectful

universe u

/-- A description of effects of the vocabulary `F` that answers a value. -/
inductive Program (R : Type) (F : Type → Type u) : Type → Type (max 1 u)
  | done {α : Type} (a : α) : Program R F α
  | effect {α : Type} (op : F α) : Program R F α
  | bind {α β : Type} (sub : Program R F β) (k : β → R → Program R F α) : Program R F α
  | malformed {α : Type} (tag : String) : Program R F α
  | raise {α : Type} (e : Failure) : Program R F α

namespace Program

variable {R : Type} {F : Type → Type u} {α β : Type}

/-- Changes the answer, by one more bind. -/
def map (p : Program R F α) (f : α → β) : Program R F β := bind p fun a _ => done (f a)

/-- The program, or the node that raises the failure met while building it. -/
def ofOutcome : Outcome (Program R F α) → Program R F α
  | .ok p => p
  | .error e => raise e

/-- No malformed node is reached, whatever the answers are. -/
def WellFormed {α : Type} : Program R F α → Prop
  | done _ | effect _ | raise _ => True
  | bind sub k => WellFormed sub ∧ ∀ b r, WellFormed (k b r)
  | malformed _ => False

/-- Puts off building a program until it is reduced. -/
def suspend (build : R → Program R F α) : Program R F α := bind (done ()) fun _ r => build r

/-- Changes the answer in place, without a further bind: in the last operation, in the finished
value, or in what the last continuation builds. -/
def relabel [Functor F] (f : α → β) : Program R F α → Program R F β
  | done a => done (f a)
  | effect op => effect (f <$> op)
  | bind sub k => bind sub fun b r => relabel f (k b r)
  | malformed tag => malformed tag
  | raise e => raise e

end Program

end Effectful
