import Effectful.Failure.Basic
/-!
# Outcomes

What running or building something comes to: an answer, or the failure that stopped it. Outcomes of
programs live in a larger universe than outcomes of values, so going on with one may change it.
-/
namespace Effectful

universe u v

/-- An answer, or the failure that stopped it. -/
inductive Outcome (α : Type u) : Type u
  | ok (a : α)
  | error (e : Failure)
deriving DecidableEq, Repr

namespace Outcome

variable {α : Type u} {β : Type v}

instance : Inhabited (Outcome α) := ⟨error .outOfFuel⟩

/-- Goes on with an answer; a failure stays. -/
def andThen (x : Outcome α) (f : α → Outcome β) : Outcome β :=
  match x with
  | ok a => f a
  | error e => error e

def map (f : α → β) (x : Outcome α) : Outcome β := x.andThen fun a => ok (f a)

@[simp] theorem ok_andThen (a : α) (f : α → Outcome β) : (ok a).andThen f = f a := rfl

@[simp] theorem error_andThen (e : Failure) (f : α → Outcome β) :
    (error e : Outcome α).andThen f = error e :=
  rfl

@[simp] theorem map_ok (f : α → β) (a : α) : (ok a).map f = ok (f a) := rfl

@[simp] theorem map_error (f : α → β) (e : Failure) : (error e : Outcome α).map f = error e := rfl

def toOption : Outcome α → Option α
  | ok a => some a
  | error _ => none

end Outcome

end Effectful
