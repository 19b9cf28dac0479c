import Effectful.Proofs.Console.Interpreters
import Effectful.Proofs.Program.Reading
/-!
# Operations that no translator knows

A translator is asked for the operation in front alone, when its turn has come. So an operation that it does not
know stops an interpreter exactly there: the operations before it have been performed, the operation and what comes
after it have not. The interpreters ask at different moments, and some of them long after the program was built.
-/
namespace Effectful.Console

open Filter Program

variable {R W α : Type}

def Known : Console R α → Prop
  | read _ | print .. => True
  | other _ => False

/-- The witness of an operation fails, when it is given some answer. -/
def WitnessFails : Console R α → Failure → Prop
  | read result, e => ∃ line r, result line r = .error e
  | print _ result, e => ∃ r, result r = .error e
  | other _, _ => False

section Reading

variable {cases : Cases Unit (Action W)} {look : W → Unit} {waited : Bool} {p : ConsoleProgram Unit α} {w : W}

/-- A reading issues known operations only, and neither a continuation nor a witness of it fails with `e`. -/
def Spares {S : Type} (e : Failure) (x : List (Σ β : Type, Met Unit (Console Unit) β) × Except Halt α × S) :
    Prop :=
  (∀ op ∈ asked x.1, op.2.Known ∧ ¬ op.2.WitnessFails e) ∧ x.2.1 ≠ .error (.raised e)

end Reading

section OneLine

/-- Reads the one line, and prints nowhere. -/
def onOneLine (line : String) : Cases Unit (Action W) where
  readLine result := .ofOutcome (result (some line) ())
  printLine _ result := .ofOutcome (result ())

theorem performs_onOneLine {line : String} {ops : List (Σ β : Type, Console Unit β)} {w v : W}
    {failure : Option Failure} (h : (onOneLine line).translator.Performs ops w failure v) : v = w := by
  have hworld : ∀ {β : Type} (op : Console Unit β) (w : W),
      ((onOneLine line).translator.perform op w).2 = w := by
    intro β op w
    cases op with
    | read result =>
      change (Action.ofOutcome (result (some line) ()) w).2 = w
      cases result (some line) () <;> rfl
    | print text result =>
      change (Action.ofOutcome (result ()) w).2 = w
      cases result () <;> rfl
    | other op => rfl
  induction h with
  | nothing => rfl
  | answered hop _ ih => exact ih.trans ((congrArg Prod.snd hop).symm.trans (hworld _ _))
  | failed hop => exact (congrArg Prod.snd hop).symm.trans (hworld _ _)

variable [View W Unit]

private theorem replayed_agrees {β : Type} (line : String) (x : Outcome β) (w : W) :
    (Target.replaying Unit W).Agrees (fun i w v => i = line ∧ w = v) Eq line
      (Computation.eval (.ofOutcome (x.map .done) : Computation Unit W β) w) (Action.ofOutcome x w) := by
  cases x with
  | ok a => exact ⟨rfl,rfl,rfl⟩
  | error e => exact ⟨rfl,rfl⟩

theorem toReplay_eq_eval (p : ConsoleProgram Unit α) (line : String) (w : W) :
    runBuilt (Target.replaying Unit W).run (toReplay p ()) line w =
      p.eval "runFree" (onOneLine line).translator w := by
  have hagrees : (Target.replaying Unit W).Agrees (fun i w v => i = line ∧ w = v) Eq line
      (runBuilt (Target.replaying Unit W).run (toReplay p ()) line w)
      (p.eval "runFree" (onOneLine line).translator w) := by
    refine (Target.replaying Unit W).interpret_agrees "runFree" (fun _ _ _ _ => rfl)
      (fun _ _ _ h => h.2) (fun op i w v h => ?_) p line w w ⟨rfl,rfl⟩
    obtain ⟨rfl,rfl⟩ := h
    cases op with
    | read result =>
      change Context.Runner.Agrees _ _ _ _ (Computation.run _ _) _
      rw [Computation.run_eq_eval]
      exact replayed_agrees i (result (some i) ()) w
    | print line result =>
      change Context.Runner.Agrees _ _ _ _ (Computation.run _ _) _
      rw [Computation.run_eq_eval]
      exact replayed_agrees i (result ()) w
    | other op => exact ⟨rfl,rfl⟩
  rcases hrun : runBuilt (Target.replaying Unit W).run (toReplay p ()) line w with ⟨a | e,v⟩ <;>
    rcases heval : p.eval "runFree" (onOneLine line).translator w with ⟨a' | e',v'⟩ <;>
    rw [hrun,heval] at hagrees
  · obtain ⟨rfl,-,rfl⟩ := hagrees
    rfl
  · exact hagrees.elim
  · exact hagrees.elim
  · obtain ⟨rfl,rfl⟩ := hagrees
    rfl

end OneLine

section Terminals

variable [View W Unit] [Terminal W] (p : ConsoleProgram Unit α)

/-- Reads and prints on the terminal, with lines that are waited for. -/
def onTurns : Cases Unit (Action W) where
  readLine result := Terminal.awaitLine.attempt.conclude result
  printLine line result := (Terminal.writeLine line).conclude fun _ => result

theorem run_eq_eval (w : W) : run p w = p.eval "translate" onTerminal.translator w := by
  rw [run_eq_runBuilt]
  exact (Program.executing Unit W).interpret_eq_eval (fun _ => rfl) "translate" _ _ execute_onTerminal p w

theorem toAction_eq_eval (w : W) :
    runBuilt (Target.performing Unit W).run (toAction p ()) () w =
      p.eval "runFree" onTerminal.translator w :=
  (Target.performing Unit W).interpret_eq_eval (fun _ => rfl) "runFree" _ _
    (fun op _ => by cases op <;> rfl) p w

theorem eval_toWork (w : W) :
    (Work.ofOutcome (toWork p ())).eval w = p.eval "runFree" onTurns.translator w := by
  rw [Work.eval_ofOutcome]
  exact (Work.reading Unit W).interpret_eq_eval (fun _ => rfl) "runFree" _ _
    (fun op w => congrFun (eval_onExecutor op) w) p w

theorem toWork_eq_eval (w : W) :
    ∀ᶠ fuel in atTop, (Work.ofOutcome (toWork p ())).run fuel w =
      p.eval "runFree" onTurns.translator w := by
  filter_upwards [run_toWork p () w] with fuel hfuel
  rw [hfuel,← Work.eval_ofOutcome]
  exact eval_toWork p w

variable {V : Type} [View V Unit] [Terminal V] {rel : W → V → Prop} {w : W} {v : V}

theorem reading_onTerminal (h : Terminal.Alike Terminal.readLine rel) (hrel : rel w v) :
    let x := reading (Source.performing onTerminal.translator) View.look false p w
    let y := reading (Source.performing onTerminal.translator) View.look false p v
    x.1 = y.1 ∧ x.2.1 = y.2.1 ∧ rel x.2.2 y.2.2 :=
  reading_alike (fun w v _ => show (View.look w : Unit) = View.look v from rfl)
    (fun op _ _ hrel => onTerminal_alike h op hrel) false p hrel

theorem reading_onTurns (h : Terminal.Alike Terminal.awaitLine rel) (hrel : rel w v) :
    let x := reading (Source.performing onTurns.translator) View.look false p w
    let y := reading (Source.performing onTerminal.translator) View.look false p v
    x.1 = y.1 ∧ x.2.1 = y.2.1 ∧ rel x.2.2 y.2.2 := by
  refine reading_alike (fun w v _ => show (View.look w : Unit) = View.look v from rfl)
    (fun op w v hrel => ?_) false p hrel
  cases op with
  | read result => exact h.attempt_conclude result hrel
  | print line result => exact h.write_conclude line result hrel
  | other op => exact ⟨rfl,hrel⟩

end Terminals

end Effectful.Console
