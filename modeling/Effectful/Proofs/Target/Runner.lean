import Effectful.Proofs.Computation.Direct
import Effectful.Target.Immediate
import Effectful.Target.Replayed
import Effectful.Target.Simulated
import Effectful.Work.Evaluation
/-!
# Running what a target holds

A target is observed by running what it holds: actions are performed, transitions are run from buffers, and
replays on a line. A `Runner` says how, and that lifted values and chains run as they should. All that is
known of an interpretation then follows from what its operations do.
-/
namespace Effectful

universe u v

/-- Runs what has been built. A failure to build it is a failure to run it. -/
def runBuilt {G : Type v} {I W α : Type} (run : G → I → Action W α) (x : Outcome G) (i : I) :
    Action W α :=
  match x with
  | .ok g => run g i
  | .error e => .fail e

/-- How to run what a target holds, from an input of type `I`. The output carries the answer, and tells the
input that whatever is chained after it is run from. -/
structure Context.Runner {R : Type} {G : Type → Type v} (c : Context R G) (W I : Type)
    (O : Type → Type) [View W R] where
  run : {α : Type} → G α → I → Action W (O α)
  pack : {α : Type} → α → I → O α
  next : {α : Type} → O α → I → α × I
  next_pack : ∀ {α : Type} (a : α) (i : I), next (pack a i) i = (a, i)
  pack_next : ∀ {α : Type} (o : O α) (i : I), pack (next o i).1 (next o i).2 = o
  next_next : ∀ {α β : Type} (o : O α) (o' : O β) (i : I), next o (next o' i).2 = next o i
  run_lift : ∀ {α : Type} (a : α) (i : I), run (c.lift a) i = .answer (pack a i)
  run_sequence : ∀ {α β : Type} (m : G α) (f : α → R → Outcome (G β)) (i : I),
    run (c.sequence m f) i = (run m i).andThen fun o w =>
      runBuilt run (f (next o i).1 (View.look w)) (next o i).2 w

private theorem run_built_eq_eval {R W β : Type} [View W R] (c : R → Computation R W β) :
    (fun w => Computation.run (c (View.look w)) w) = fun w => (c (View.look w)).eval w := by
  funext w
  exact Computation.run_eq_eval _ w

section Targets

variable (R W : Type) [View W R]

def Target.performing : (Target.immediate R W).Runner W Unit fun α => α where
  run t _ := t
  pack a _ := a
  next a i := (a, i)
  next_pack _ _ := rfl
  pack_next _ _ := rfl
  next_next _ _ _ := rfl
  run_lift _ _ := rfl
  run_sequence m f i := by
    change Action.sequence m f = m.andThen _
    funext w
    unfold Action.sequence Action.andThen
    rcases m w with ⟨a | e,w'⟩
    · dsimp only
      cases f a (View.look w') <;> rfl
    · rfl

def Target.simulating : (Target.simulated R W).Runner W Buffers fun α => α × Buffers where
  run t buffers := t.run buffers
  pack a buffers := (a, buffers)
  next o _ := o
  next_pack _ _ := rfl
  pack_next _ _ := rfl
  next_next _ _ _ := rfl
  run_lift a buffers := by
    funext w
    change Computation.run (.done (a, buffers)) w = _
    rw [Computation.run_eq_eval]
    rfl
  run_sequence m f buffers := by
    funext w
    change Computation.run (.bind (m buffers (View.look w)) _) w =
      Action.andThen (fun w => Computation.run (m buffers (View.look w)) w) _ w
    rw [Computation.run_eq_eval,run_built_eq_eval]
    refine congrFun (congrArg (Action.andThen _) ?_) w
    funext o w'
    dsimp only
    cases f o.1 (View.look w') with
    | ok t => exact (Computation.run_eq_eval _ _).symm
    | error e => rfl

theorem Target.simulating_run_eq_eval {α : Type} (t : Transition R W α) (buffers : Buffers) :
    (Target.simulating R W).run t buffers = fun w => (t buffers (View.look w)).eval w :=
  funext fun w => Computation.run_eq_eval (t buffers (View.look w)) w

def Target.replaying : (Target.replayed R W).Runner W String fun α => α where
  run p line := p.run line
  pack a _ := a
  next a line := (a, line)
  next_pack _ _ := rfl
  pack_next _ _ := rfl
  next_next _ _ _ := rfl
  run_lift a line := by
    funext w
    change Computation.run (.done a) w = _
    rw [Computation.run_eq_eval]
    rfl
  run_sequence m f line := by
    funext w
    change Computation.run (.bind (m line (View.look w)) _) w =
      Action.andThen (fun w => Computation.run (m line (View.look w)) w) _ w
    rw [Computation.run_eq_eval,run_built_eq_eval]
    refine congrFun (congrArg (Action.andThen _) ?_) w
    funext o w'
    dsimp only
    cases f o (View.look w') with
    | ok t => exact (Computation.run_eq_eval _ _).symm
    | error e => rfl

theorem Target.replaying_run_eq_eval {α : Type} (p : Replay R W α) (line : String) :
    (Target.replaying R W).run p line = fun w => (p line (View.look w)).eval w :=
  funext fun w => Computation.run_eq_eval (p line (View.look w)) w

end Targets

private theorem execute_funext {R W α : Type} [View W R] (c : Computation R W α) :
    Computation.execute c = Program.eval "runTrampoline" Translator.id c :=
  funext (Program.execute_eq_eval _ _ c)

def Program.executing (R W : Type) [View W R] :
    (Program.context : Context R (Computation R W)).Runner W Unit fun α => α where
  run c _ := Computation.execute c
  pack a _ := a
  next a i := (a, i)
  next_pack _ _ := rfl
  pack_next _ _ := rfl
  next_next _ _ _ := rfl
  run_lift a _ := by
    rw [execute_funext]
    rfl
  run_sequence c f _ := by
    rw [execute_funext,execute_funext]
    change (Program.eval _ _ c).andThen _ = (Program.eval _ _ c).andThen _
    refine congrArg (Action.andThen _) ?_
    funext a w
    dsimp only
    cases f a (View.look w) with
    | ok c => exact (congrFun (execute_funext c) w).symm
    | error e => rfl

theorem Program.executing_run_effect {R W α : Type} [View W R] (t : Action W α) (i : Unit) :
    (Program.executing R W).run (.effect t) i = t :=
  funext fun w => Program.execute_effect "runTrampoline" Translator.id w t

def Work.reading (R W : Type) [View W R] :
    (Work.context : Context R (Work R W)).Runner W Unit fun α => α where
  run work _ := work.eval
  pack a _ := a
  next a i := (a, i)
  next_pack _ _ := rfl
  pack_next _ _ := rfl
  next_next _ _ _ := rfl
  run_lift _ _ := rfl
  run_sequence work f _ := by
    change (work.eval).andThen _ = (work.eval).andThen _
    refine congrArg (Action.andThen _) ?_
    funext a w
    dsimp only
    cases f a (View.look w) <;> rfl

end Effectful
