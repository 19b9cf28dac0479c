import Effectful.Failure.Outcome
/-!
# Actions

An action is the smallest effect: it may change the world, and it answers or fails. The world that
it leaves behind counts also when it fails. A `View` is what a continuation may see of the world
when it receives an answer; a pure continuation sees `Unit`.
-/
namespace Effectful

/-- An effect on a world `W` that answers an `α` or fails. -/
abbrev Action (W α : Type) : Type := W → Outcome α × W

/-- What may be observed of a world without changing it. -/
class View (W R : Type) where
  look : W → R

/-- A pure continuation observes nothing. -/
instance (priority := low) View.nothing (W : Type) : View W Unit := ⟨fun _ => ()⟩

namespace Action

variable {W α β : Type}

def answer (a : α) : Action W α := fun w => (.ok a, w)

def fail (e : Failure) : Action W α := fun w => (.error e, w)

def ofOutcome : Outcome α → Action W α
  | .ok a => answer a
  | .error e => fail e

/-- Runs `first` and then what `rest` makes of its answer; a failure ends both. -/
def andThen (first : Action W α) (rest : α → Action W β) : Action W β := fun w =>
  match first w with
  | (.ok a, w) => rest a w
  | (.error e, w) => (.error e, w)

@[simp] theorem answer_andThen (a : α) (rest : α → Action W β) : (answer a).andThen rest = rest a :=
  rfl

@[simp] theorem andThen_answer (t : Action W α) : t.andThen answer = t := by
  funext w
  unfold andThen
  rcases t w with ⟨_ | _, _⟩ <;> rfl

theorem andThen_assoc {γ : Type} (t : Action W α) (f : α → Action W β) (g : β → Action W γ) :
    (t.andThen f).andThen g = t.andThen fun a => (f a).andThen g := by
  funext w
  unfold andThen
  rcases t w with ⟨_ | _, _⟩ <;> rfl

def map (f : α → β) (t : Action W α) : Action W β := t.andThen fun a => answer (f a)

/-- Chains an action with a choice of the next one, which may fail and may look at the world. -/
def sequence {R : Type} [View W R] (first : Action W α)
    (rest : α → R → Outcome (Action W β)) : Action W β := fun w =>
  match first w with
  | (.ok a, w) =>
    match rest a (View.look w) with
    | .ok next => next w
    | .error e => (.error e, w)
  | (.error e, w) => (.error e, w)

/-- Ends an action with a function of its answer, which may fail and may look at the world. -/
def conclude {R : Type} [View W R] (t : Action W α) (f : α → R → Outcome β) : Action W β := fun w =>
  match t w with
  | (.ok a, w) => (f a (View.look w), w)
  | (.error e, w) => (.error e, w)

/-- An action that answers nothing where the given one fails. -/
def attempt (t : Action W α) : Action W (Option α) := fun w =>
  match t w with
  | (.ok a, w) => (.ok (some a), w)
  | (.error _, w) => (.ok none, w)

/-- Performs an action on a part of the world. -/
def onPart {P : Type} (get : W → P) (set : P → W → W) (t : Action P α) : Action W α := fun w =>
  let (result, part) := t (get w)
  (result, set part w)

end Action

end Effectful
