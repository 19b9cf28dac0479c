import Effectful.Computation
import Effectful.Proofs.Ending
import Effectful.Proofs.Program.Meaning
/-!
# Running and direct evaluation

The loop that runs a computation rewrites it on the way: it never runs the left part of a bind on its own,
but moves continuations across each other. What it does is nevertheless what the plain evaluator does, which
evaluates the left part of a bind, builds what its continuation leads to, and evaluates that.

Continuations of programs are functions and leave no trace where they are applied. A `Script` is a
computation as it is written down, whose continuations act on the world while they build, so that a log
can tell which of them were applied, in which order and how often.
-/
namespace Effectful

namespace Computation

variable {R W α : Type} [View W R]

private theorem round_again {c c' : Computation R W α} {w w' : W} (h : round c w = .again c' w') :
    eval c' w' = eval c w := by
  unfold round at h
  split at h
  case h_5 => cases h; rfl
  case h_6 t k =>
    split at h <;> cases h
    rename_i ht
    simp only [eval,Program.eval,Action.andThen,Translator.perform,Translator.id,ht]
  case h_7 =>
    cases h
    exact (congrFun (Program.eval_bind_bind ..) w).symm
  all_goals cases h

private theorem round_ended {c : Computation R W α} {x : Outcome α} {w w' : W}
    (h : round c w = .ended x w') : eval c w = (x, w') := by
  unfold round at h
  split at h
  case h_6 t k =>
    split at h <;> cases h
    rename_i ht
    simp only [eval,Program.eval,Action.andThen,Translator.perform,Translator.id,ht]
  all_goals cases h
  all_goals rfl

/-- Every round keeps the meaning of what is still to be run, so the loop comes to that meaning. -/
theorem run_eq_eval (c : Computation R W α) (w : W) : run c w = eval c w := by
  fun_induction run c w with
  | case1 c w c' w' h ih => rw [ih,round_again h]
  | case2 c w x w' h => rw [round_ended h]

end Computation

/-- A computation as it is written down. To apply the continuation of a bind is to perform `act` and to
build from the answer of that the script that goes on; a continuation that fails is an `act` that does. -/
inductive Script (W : Type) : Type → Type 1
  | done {α : Type} (a : α) : Script W α
  | delay {α : Type} (t : Action W α) : Script W α
  | bind {α β γ : Type} (sub : Script W β) (act : β → Action W γ) (next : γ → Script W α) : Script W α

namespace Script

variable {W α β γ : Type}

def map (m : Script W β) (f : β → Action W α) : Script W α := bind m f done

def suspend (act : Action W γ) (next : γ → Script W α) : Script W α :=
  bind (done ()) (fun _ => act) next

/-- The plain evaluator: the left part to its end, then the continuation, then what it has built. -/
def eval {α : Type} : Script W α → Action W α
  | done a => .answer a
  | delay t => t
  | bind sub act next => (eval sub).andThen fun b => (act b).andThen fun c => eval (next c)

/-- The computation of a script: what a continuation does when it is applied stands in front of what it
builds. -/
def computation {R : Type} {α : Type} : Script W α → Computation R W α
  | done a => .done a
  | delay t => Computation.delay t
  | bind sub act next =>
    .bind (computation sub) fun b _ => .bind (Computation.delay (act b)) fun c _ => computation (next c)

theorem eval_computation {R : Type} [View W R] (s : Script W α) :
    (s.computation (R := R)).eval = s.eval := by
  induction s with
  | done a => rfl
  | delay t => rfl
  | bind sub act next ihs ihn =>
    funext w
    change (Computation.eval (computation (R := R) sub)).andThen (fun b => (act b).andThen fun c w =>
      Computation.eval (computation (R := R) (next c)) w) w = _
    simp only [ihs,ihn]
    rfl

/-- Running refines direct evaluation. A computation that is run comes to the same outcome in the same
world as one that is evaluated directly, whatever its continuations do while they build; and a computation
that need not end, given by its cut-offs, ends exactly where its evaluation ends, in the same way. -/
theorem run_refines_eval {R : Type} [View W R] (w : W) :
    (∀ c : Computation R W α, c.run w = c.eval w) ∧
      (∀ s : Script W α, (s.computation (R := R)).run w = s.eval w) ∧
      ∀ (s : Nat → Script W α) (x : Outcome α) (w' : W),
        EndsWith (fun n => ((s n).computation (R := R)).run w) x w' ↔
          EndsWith (fun n => (s n).eval w) x w' := by
  have hrun : ∀ s : Script W α, (s.computation (R := R)).run w = s.eval w := by
    intro s
    rw [Computation.run_eq_eval,eval_computation]
  refine ⟨fun c => Computation.run_eq_eval c w,hrun,fun s x w' => ?_⟩
  simp only [hrun]

example :
    let say (line : String) : Action (List String) Unit := fun log => (.ok (),log ++ [line])
    let deferred := suspend (say "built") fun _ => delay (say "reached")
    ((map deferred fun _ => say "mapped").computation (R := Unit)).run [] =
      (.ok (),["built","reached","mapped"]) := by
  intro say deferred
  rw [Computation.run_eq_eval]
  rfl

end Script

end Effectful
