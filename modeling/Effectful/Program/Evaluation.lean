import Effectful.Program.Interpretation
/-!
# Running programs

A program runs when each of its operations can be performed as an action. `execute` is the loop that
does so in constant stack: it brings the next operation to the front, performs it, and goes on with
what its answer leads to. `eval` is the meaning of a program read from left to right, part by part,
without any rearrangement.
-/
namespace Effectful

universe u

/-- Performs the action that an operation is read as; a refused operation fails. -/
def Translator.perform {F : Type → Type u} {W α : Type} (t : Translator F (Action W)) (op : F α) :
    Action W α := fun w =>
  match t.apply op with
  | .ok action => action w
  | .error e => (.error e, w)

namespace Program

variable {R W : Type} {F : Type → Type u} {α : Type} [View W R]

/-- Brings the next operation to the front, performs it and goes on with what its answer leads to.
A malformed node left of a bind is reported under the name `driver`. A bare one would keep the loop
going for ever; this is not described, and that it is reported likewise is a convention. -/
def execute (driver : String) (t : Translator F (Action W)) (p : Program R F α) (w : W) :
    Outcome α × W :=
  match _h : head (View.look w) p with
  | .error e => (.error e, w)
  | .ok (.done a) => (.ok a, w)
  | .ok (.effect op) => t.perform op w
  | .ok (.next op k) =>
    match t.perform op w with
    | (.ok a, w) => execute driver t (k a (View.look w)) w
    | (.error e, w) => (.error e, w)
  | .ok (.stuck tag _) | .ok (.malformed tag) =>
    (.error (.ofReason (.invariantViolation driver tag)), w)
termination_by p
decreasing_by exact reached_of_head_eq_next _h a _

section Equations

variable {β γ : Type} (driver : String) (t : Translator F (Action W)) (w : W)

@[simp] theorem execute_done (a : α) :
    execute driver t (done a : Program R F α) w = (.ok a, w) := by
  rw [execute, head_done]

@[simp] theorem execute_effect (op : F α) :
    execute driver t (effect op : Program R F α) w = t.perform op w := by
  rw [execute, head_effect]

@[simp] theorem execute_malformed (tag : String) :
    execute driver t (malformed tag : Program R F α) w =
      (.error (.ofReason (.invariantViolation driver tag)), w) := by
  rw [execute, head_malformed]

@[simp] theorem execute_raise (e : Failure) :
    execute driver t (raise e : Program R F α) w = (.error e, w) := by
  rw [execute, head_raise]

@[simp] theorem execute_bind_done (a : β) (k : β → R → Program R F α) :
    execute driver t (bind (done a) k) w = execute driver t (k a (View.look w)) w := by
  rw [execute, head_bind_done, ← execute]

@[simp] theorem execute_bind_effect (op : F β) (k : β → R → Program R F α) :
    execute driver t (bind (effect op) k) w =
      (t.perform op).andThen (fun a w => execute driver t (k a (View.look w)) w) w := by
  rw [execute, head_bind_effect]
  rfl

@[simp] theorem execute_bind_bind (y : Program R F γ) (g : γ → R → Program R F β)
    (k : β → R → Program R F α) :
    execute driver t (bind (bind y g) k) w =
      execute driver t (bind y fun a r => bind (g a r) k) w := by
  rw [execute, head_bind_bind, ← execute]

@[simp] theorem execute_bind_malformed (tag : String) (k : β → R → Program R F α) :
    execute driver t (bind (malformed tag) k) w =
      (.error (.ofReason (.invariantViolation driver tag)), w) := by
  rw [execute, head_bind_malformed]

@[simp] theorem execute_bind_raise (e : Failure) (k : β → R → Program R F α) :
    execute driver t (bind (raise e) k) w = (.error e, w) := by
  rw [execute, head_bind_raise]

end Equations

/-- The meaning of a program: its parts from left to right, each to its end before the next.
Malformed nodes are treated as `execute` does. -/
def eval {α : Type} (driver : String) (t : Translator F (Action W)) : Program R F α → Action W α
  | done a => .answer a
  | effect op => t.perform op
  | bind sub k => (eval driver t sub).andThen fun a w => eval driver t (k a (View.look w)) w
  | malformed tag => .fail (.ofReason (.invariantViolation driver tag))
  | raise e => .fail e

end Program

end Effectful
