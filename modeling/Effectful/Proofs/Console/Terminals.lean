import Effectful.Console.Meaning
import Effectful.Proofs.Target.Agreement
import Effectful.Proofs.Work.Stack
/-!
# Terminals that behave alike

The interpreters on terminals read and write through whatever is in use at the moment, and what they do
depends on the terminal only through the lines that it hands out and the calls that it lets fail. Two worlds
whose terminals behave alike are not told apart by any program, by none of the three interpreters.
-/
namespace Effectful

open Filter

namespace Console

variable {R W α : Type} [View W R] [Terminal W]

theorem run_eq_runBuilt (p : ConsoleProgram R α) (w : W) :
    run p w = runBuilt (Program.executing R W).run (toComputation p (View.look w)) () w := by
  simp only [run]
  split <;> rename_i hc <;> rw [show toComputation p (View.look w) = _ from hc] <;> rfl

theorem execute_onTerminal (op : Console R α) (w : W) :
    runBuilt (Program.executing R W).run ((onTerminal.translator.apply op).map .effect) () w =
      onTerminal.translator.perform op w := by
  cases op with
  | read result => exact Program.execute_effect ..
  | print line result => exact Program.execute_effect ..
  | other op => rfl

theorem eval_onExecutor (op : Console R α) :
    (fun w => runBuilt (fun (work : Work R W α) (_ : Unit) => work.eval)
      (onExecutor.translator.apply op) () w) =
    (Translator.perform (Cases.translator ⟨
      fun result => Terminal.awaitLine.attempt.conclude result,
      fun line result => (Terminal.writeLine line).conclude fun _ => result⟩) op : Action W α) := by
  funext w
  cases op with
  | read result =>
    change Action.andThen Terminal.awaitLine.attempt _ w = Action.conclude _ _ w
    unfold Action.andThen Action.conclude
    rcases Terminal.awaitLine.attempt w with ⟨l | e,w'⟩
    · dsimp only
      cases result l (View.look w') <;> rfl
    · rfl
  | print line result => rfl
  | other op => rfl

theorem oneThread_onExecutor (op : Console R α) {work : Work R W α}
    (h : onExecutor.translator.apply op = .ok work) : work.OneThread := by
  cases op with
  | read result =>
    cases h
    refine ⟨trivial,fun line r => ?_⟩
    dsimp only
    cases result line r <;> trivial
  | print line result =>
    cases h
    trivial
  | other op => cases h

/-- To start a program as work leaves the terminal alone, whatever its state: all that is done is to ask for turns. -/
theorem start_toWork (p : ConsoleProgram R α) (r : R) : ∃ (t : Task R W α) (turns : List (Turn W)), ∀ w : W,
    Executor.start (Work.ofOutcome (toWork p r)) w = ⟨t,{ world := w, turns }⟩ := by
  cases hwork : toWork p r (W := W) with
  | ok work =>
    refine Program.interpret_holds "runFree" onExecutor.translator Work.context (fun work => ∃ t turns, ∀ w,
      Executor.start work w = ⟨t,{ world := w, turns }⟩) (fun a => ⟨.settled (.ok a),[],fun _ => rfl⟩)
      (fun _ _ => ⟨_,[.resume []],fun _ => rfl⟩) (fun op work hop => ?_) p r hwork
    cases op with
    | read result =>
      cases hop
      exact ⟨_,[.resume []],fun _ => rfl⟩
    | print line result =>
      cases hop
      exact ⟨_,[.resume []],fun _ => rfl⟩
    | other op => cases hop
  | error e => exact ⟨.settled (.error e),[],fun _ => rfl⟩

theorem run_toWork (p : ConsoleProgram R α) (r : R) (w : W) :
    ∀ᶠ fuel in atTop,
      (Work.ofOutcome (toWork p r)).run fuel w = runBuilt (Work.reading R W).run (toWork p r) () w := by
  have hone : (Work.ofOutcome (toWork p r) : Work R W α).OneThread := by
    cases hwork : toWork p r (W := W) with
    | ok work => exact Work.oneThread_interpret "runFree" _ oneThread_onExecutor p r hwork
    | error e => trivial
  filter_upwards [Work.run_eq_eval hone w] with fuel hfuel
  rw [hfuel,Work.eval_ofOutcome]

end Console

variable {W V α : Type} [View W Unit] [View V Unit] [Terminal W] [Terminal V]

/-- Reading a world by `read` and writing to it are matched by the terminal of a related world. Why a
read fails is not seen. -/
structure Terminal.Alike (read : Action W String) (rel : W → V → Prop) : Prop where
  read : ∀ w v, rel w v →
    (read w).1.toOption = (Terminal.readLine v).1.toOption ∧ rel (read w).2 (Terminal.readLine v).2
  write : ∀ line w v, rel w v →
    (Terminal.writeLine line w).1 = (Terminal.writeLine line v).1 ∧
      rel (Terminal.writeLine line w).2 (Terminal.writeLine line v).2

namespace Terminal.Alike

variable {read : Action W String} {rel : W → V → Prop} (h : Terminal.Alike read rel)

include h

theorem attempt_conclude (result : Option String → Unit → Outcome α) {w : W} {v : V}
    (hrel : rel w v) :
    ((read.attempt.conclude result) w).1 = ((Terminal.readLine.attempt.conclude result) v).1 ∧
      rel ((read.attempt.conclude result) w).2 ((Terminal.readLine.attempt.conclude result) v).2 := by
  obtain ⟨hline,hnext⟩ := h.read w v hrel
  unfold Action.conclude Action.attempt
  rcases hw : read w with ⟨l | e,w'⟩ <;> rcases hv : Terminal.readLine v with ⟨l' | e',v'⟩ <;>
    rw [hw,hv] at hline hnext <;> simp only [Outcome.toOption] at hline
  · cases hline
    exact ⟨rfl,hnext⟩
  · cases hline
  · cases hline
  · exact ⟨rfl,hnext⟩

theorem write_conclude (line : String) (result : Unit → Outcome α) {w : W} {v : V}
    (hrel : rel w v) :
    (((Terminal.writeLine line).conclude fun _ => result) w).1 =
        (((Terminal.writeLine line).conclude fun _ => result) v).1 ∧
      rel (((Terminal.writeLine line).conclude fun _ => result) w).2
        (((Terminal.writeLine line).conclude fun _ => result) v).2 := by
  obtain ⟨hdone,hnext⟩ := h.write line w v hrel
  unfold Action.conclude
  rcases hw : Terminal.writeLine line w with ⟨a | e,w'⟩ <;>
    rcases hv : Terminal.writeLine line v with ⟨a' | e',v'⟩ <;> rw [hw,hv] at hdone hnext
  · exact ⟨rfl,hnext⟩
  · cases hdone
  · cases hdone
  · dsimp only at hdone
    cases hdone
    exact ⟨rfl,hnext⟩

end Terminal.Alike

namespace Console

variable {rel : W → V → Prop}

theorem onTerminal_alike (h : Terminal.Alike Terminal.readLine rel) (op : Console Unit α)
    {w : W} {v : V} (hrel : rel w v) :
    (Translator.perform onTerminal.translator op w).1 =
        (Translator.perform onTerminal.translator op v).1 ∧
      rel (Translator.perform onTerminal.translator op w).2
        (Translator.perform onTerminal.translator op v).2 := by
  cases op with
  | read result => exact h.attempt_conclude result hrel
  | print line result => exact h.write_conclude line result hrel
  | other op => exact ⟨rfl,hrel⟩

theorem run_alike (h : Terminal.Alike Terminal.readLine rel) {p : ConsoleProgram Unit α}
    (hp : p.WellFormed) {w : W} {v : V} (hrel : rel w v) :
    (run p w).1 = (p.eval "runFree" onTerminal.translator v).1 ∧
      rel (run p w).2 (p.eval "runFree" onTerminal.translator v).2 := by
  rw [run_eq_runBuilt,Program.eval_driver "runFree" onTerminal.translator hp "translate"]
  refine (Program.executing Unit W).interpret_alike (fun _ => rfl) "translate" (fun _ _ _ => rfl)
    (fun op w v hrel => ?_) p w v hrel
  rw [execute_onTerminal]
  exact onTerminal_alike h op hrel

theorem toAction_alike (h : Terminal.Alike Terminal.readLine rel) (p : ConsoleProgram Unit α)
    {w : W} {v : V} (hrel : rel w v) :
    (runBuilt (Target.performing Unit W).run (toAction p ()) () w).1 =
        (p.eval "runFree" onTerminal.translator v).1 ∧
      rel (runBuilt (Target.performing Unit W).run (toAction p ()) () w).2
        (p.eval "runFree" onTerminal.translator v).2 := by
  refine (Target.performing Unit W).interpret_alike (fun _ => rfl) "runFree" (fun _ _ _ => rfl)
    (fun op w v hrel => ?_) p w v hrel
  rw [show runBuilt (Target.performing Unit W).run (onTerminal.translator.apply op) () w =
    Translator.perform onTerminal.translator op w by cases op <;> rfl]
  exact onTerminal_alike h op hrel

theorem toWork_alike (h : Terminal.Alike Terminal.awaitLine rel) (p : ConsoleProgram Unit α)
    {w : W} {v : V} (hrel : rel w v) :
    ∀ᶠ fuel in atTop,
      ((Work.ofOutcome (toWork p ())).run fuel w).1 = (p.eval "runFree" onTerminal.translator v).1 ∧
        rel ((Work.ofOutcome (toWork p ())).run fuel w).2
          (p.eval "runFree" onTerminal.translator v).2 := by
  filter_upwards [run_toWork p () w] with fuel hfuel
  rw [hfuel]
  refine (Work.reading Unit W).interpret_alike (fun _ => rfl) "runFree" (fun _ _ _ => rfl)
    (fun op w v hrel => ?_) p w v hrel
  rw [show runBuilt (Work.reading Unit W).run (onExecutor.translator.apply op) () w = _ from
    congrFun (eval_onExecutor op) w]
  cases op with
  | read result => exact h.attempt_conclude result hrel
  | print line result => exact h.write_conclude line result hrel
  | other op => exact ⟨rfl,hrel⟩

end Console

end Effectful
