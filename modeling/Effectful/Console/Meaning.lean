import Effectful.Console.Terminal
import Effectful.Console.Operation
import Effectful.Target.Immediate
import Effectful.Target.Replayed
import Effectful.Target.Simulated
import Effectful.Work.Basic
/-!
# Interpreters of console programs

Four meanings of the console operations: on the terminal at once, on the terminal as work for the
executor, on simulated buffers, and on one line that every read answers. A read that fails answers
no line in all of them; a witness that fails is a failure of the program.
-/
namespace Effectful.Console

variable {R W α : Type}

section Cases

variable [View W R] [Terminal W]

/-- Reads and prints on the terminal at once. -/
def onTerminal : Cases R (Action W) where
  readLine result := Terminal.readLine.attempt.conclude result
  printLine line result := (Terminal.writeLine line).conclude fun _ => result

/-- Reads and prints on the terminal, each on a turn of its own. -/
def onExecutor : Cases R (Work R W) where
  readLine result :=
    .fork (.andThen (.delay Terminal.awaitLine.attempt) fun line r =>
      .ofOutcome ((result line r).map .answer))
  printLine line result := .later ((Terminal.writeLine line).conclude fun _ => result)

end Cases

/-- A finished computation of the witness's answer and the buffers after the operation. -/
private def withBuffers (answer : Outcome α) (buffers : Buffers) :
    Computation R W (α × Buffers) :=
  match answer with
  | .ok a => .done (a, buffers)
  | .error e => .raise e

/-- Reads from the simulated input, and appends to the simulated output. -/
def onBuffers : Cases R (Transition R W) where
  readLine result := fun buffers r =>
    match buffers with
    | { input := [], output } => withBuffers (result none r) { input := [], output }
    | { input := line :: rest, output } => withBuffers (result (some line) r) { input := rest, output }
  printLine line result := fun buffers r =>
    match buffers with
    | { input, output } => withBuffers (result r) { input, output := output.push line }

/-- Reads the one line, and prints nowhere. -/
def onLine : Cases R (Replay R W) where
  readLine result := fun line r => .ofOutcome ((result (some line) r).map .done)
  printLine _ result := fun _ r => .ofOutcome ((result r).map .done)

/-- The program as nested actions. -/
def toAction [View W R] [Terminal W] (p : ConsoleProgram R α) (r : R) : Outcome (Action W α) :=
  p.runIn onTerminal.translator (Target.immediate R W) r

/-- The program as work for the executor. -/
def toWork [View W R] [Terminal W] (p : ConsoleProgram R α) (r : R) : Outcome (Work R W α) :=
  p.runIn onExecutor.translator Work.context r

def toTransition (p : ConsoleProgram R α) (r : R) : Outcome (Transition R W α) :=
  p.runIn onBuffers.translator (Target.simulated R W) r

def toReplay (p : ConsoleProgram R α) (r : R) : Outcome (Replay R W α) :=
  p.runIn onLine.translator (Target.replayed R W) r

/-- The program with terminal actions in the place of its operations. -/
def toComputation [View W R] [Terminal W] (p : ConsoleProgram R α) (r : R) :
    Outcome (Computation R W α) :=
  p.translate onTerminal.translator r

/-- Runs a program on the terminal in constant stack, however long it is. -/
def run [View W R] [Terminal W] (p : ConsoleProgram R α) : Action W α := fun w =>
  match toComputation p (View.look w) with
  | .ok c => Computation.execute c w
  | .error e => (.error e, w)

/-- Runs a program on the given lines of input. -/
def simulate [View W R] (p : ConsoleProgram R α) (input : List String) : Action W (α × Buffers) :=
  fun w =>
    match toTransition p (View.look w) with
    | .ok t => t.run { input := input } w
    | .error e => (.error e, w)

end Effectful.Console
