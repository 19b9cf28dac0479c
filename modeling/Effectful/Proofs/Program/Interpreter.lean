import Effectful.Proofs.Program.Fusion
import Effectful.Proofs.Program.Morphism
/-!
# Interpreters that run a program in order

A program is run by the loop, as nested actions, or from simulated buffers. All three take it from a state to an answer
and the state that is left, or to a failure. They finish a finished part at once and run a bind as the run of its part
followed by the run of what its continuation builds, so whatever is made of binds runs as the same thing made of runs.
-/
namespace Effectful

universe u

/-- What a run from a state comes to: an answer and the state that is left, or a failure and the world that is left. -/
abbrev Run (S W : Type) : Type → Type := StateT S (Except (Failure × W))

namespace Run

variable {S W α β : Type}

theorem pure_apply (a : α) (s : S) : (pure a : Run S W α) s = .ok (a,s) := rfl

theorem bind_of_ok {m : Run S W α} {f : α → Run S W β} {s : S} {y : α × S} (h : m s = .ok y) :
    (m >>= f) s = f y.1 y.2 := by
  simp only [bind,StateT.bind,Except.bind,h]

theorem bind_of_error {m : Run S W α} {f : α → Run S W β} {s : S} {x : Failure × W} (h : m s = .error x) :
    (m >>= f) s = .error x := by
  simp only [bind,StateT.bind,Except.bind,h]

def ofAction (t : Action W α) : Run W W α := fun w =>
  match t w with
  | (.ok a,w) => .ok (a,w)
  | (.error e,w) => .error (e,w)

/-- A transition as a run, whose state are the buffers and the world. Where it fails, the buffers are lost. -/
def ofTransition (t : Buffers → Action W (α × Buffers)) : Run (Buffers × W) W α := fun s =>
  match t s.1 s.2 with
  | (.ok (a,buffers),w) => .ok (a,buffers,w)
  | (.error e,w) => .error (e,w)

theorem ofAction_andThen (t : Action W α) (f : α → Action W β) :
    ofAction (t.andThen f) = ofAction t >>= fun a => ofAction (f a) := by
  funext w
  simp only [ofAction,Action.andThen,bind,StateT.bind,Except.bind]
  rcases t w with ⟨a | e,w'⟩ <;> rfl

theorem ofTransition_andThen (t : Buffers → Action W (α × Buffers)) (f : α → Buffers → Action W (β × Buffers)) :
    ofTransition (fun buffers => (t buffers).andThen fun x => f x.1 x.2) =
      ofTransition t >>= fun a => ofTransition (f a) := by
  funext s
  simp only [ofTransition,Action.andThen,bind,StateT.bind,Except.bind]
  rcases t s.1 s.2 with ⟨⟨a,buffers⟩ | e,w'⟩ <;> rfl

end Run

/-- The ways to run a program of a vocabulary from a state: by the loop that performs its operations one by one, as the
nested actions that it is interpreted as, or as the transition on buffers that it is interpreted as. -/
inductive Interpreter (F : Type → Type u) (W : Type) : Type → Type (max 1 u)
  | looped (t : Translator F (Action W)) : Interpreter F W W
  | nested (t : Translator F (Action W)) : Interpreter F W W
  | simulated (t : Translator F (Transition Unit W)) : Interpreter F W (Buffers × W)

namespace Interpreter

variable {F : Type → Type u} {W S α β : Type} [View W Unit]

def run (M : Interpreter F W S) (p : Program Unit F α) : Run S W α :=
  match M with
  | looped t => Run.ofAction (p.execute "runTrampoline" t)
  | nested t => Run.ofAction (runBuilt (Target.performing Unit W).run (p.runIn t (Target.immediate Unit W) ()) ())
  | simulated t =>
    Run.ofTransition (runBuilt (Target.simulating Unit W).run (p.runIn t (Target.simulated Unit W) ()))

def world : Interpreter F W S → S → W
  | looped _ | nested _ => id
  | simulated _ => Prod.snd

/-- The loop runs computations, with their actions as they are. -/
example (c : Computation Unit W α) : (looped Translator.id).run c = Run.ofAction c.execute := rfl

theorem run_looped (t : Translator F (Action W)) (p : Program Unit F α) :
    (looped t).run p = Run.ofAction (p.eval "runTrampoline" t) :=
  congrArg Run.ofAction (funext fun w => Program.execute_eq_eval "runTrampoline" t p w)

theorem run_nested (t : Translator F (Action W)) (p : Program Unit F α) :
    (nested t).run p = Run.ofAction (p.eval "runFree" t) := by
  refine congrArg Run.ofAction (funext fun w => ?_)
  exact (Program.execute_eq_run "runFree" t p w).symm.trans (Program.execute_eq_eval "runFree" t p w)

variable (M : Interpreter F W S)

@[simp] theorem run_done (a : α) : M.run (.done a) = pure a := by
  cases M with
  | looped t => simp only [run_looped]; rfl
  | nested t => simp only [run_nested]; rfl
  | simulated t =>
    have hlift : runBuilt (Target.simulating Unit W).run (.ok ((Target.simulated Unit W).lift a)) =
        fun buffers => Action.answer (a,buffers) := funext ((Target.simulating Unit W).run_lift a)
    simp only [run,Program.runIn,Program.interpret_done,hlift]
    rfl

@[simp] theorem run_bind (p : Program Unit F β) (k : β → Unit → Program Unit F α) :
    M.run (.bind p k) = M.run p >>= fun b => M.run (k b ()) := by
  cases M with
  | looped t => simp only [run_looped]; exact Run.ofAction_andThen _ _
  | nested t => simp only [run_nested]; exact Run.ofAction_andThen _ _
  | simulated t =>
    simp only [run,Program.runIn]
    rw [← Run.ofTransition_andThen]
    congr 1
    funext buffers
    exact (Target.simulating Unit W).interpreted_bind "runFree" t p k buffers

@[simp] theorem run_raise (e : Failure) (s : S) : M.run (.raise e : Program Unit F α) s = .error (e,M.world s) := by
  cases M with
  | looped t => simp only [run_looped]; rfl
  | nested t => simp only [run_nested]; rfl
  | simulated t =>
    simp only [run,Program.runIn,Program.interpret_raise]
    rfl

@[simp] theorem run_map (p : Program Unit F α) (f : α → β) : M.run (p.map f) = f <$> M.run p := by
  rw [Program.map,run_bind]
  simp only [run_done]
  rfl

theorem run_ofOutcome_bind (x : Outcome (Program Unit F β)) (k : β → Unit → Program Unit F α) :
    M.run (.ofOutcome (x.map fun p => p.bind k)) = M.run (.ofOutcome x) >>= fun b => M.run (k b ()) := by
  cases x with
  | ok p => exact M.run_bind p k
  | error e =>
    funext s
    have hraise : M.run (.ofOutcome (.error e) : Program Unit F β) s = .error (e,M.world s) := M.run_raise e s
    rw [Run.bind_of_error hraise]
    exact M.run_raise e s

end Interpreter

end Effectful
