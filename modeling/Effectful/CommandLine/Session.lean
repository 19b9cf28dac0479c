import Effectful.CommandLine.Arguments
import Effectful.Console.Meaning
import Effectful.Demo.Catalog
import Effectful.Failure.Diagnostic
import Effectful.Text.Line
import Effectful.Value.Display
import Effectful.Work.Executor
/-!
# A session at the command line

A session is a function of the arguments and of the bytes on the standard input: it answers what is
written to the two outputs and the exit code. Errors of the library are reported as diagnostics; any
other error is reported as an unknown one, followed by its own text.
-/
namespace Effectful.CommandLine

/-- The standard streams, as a terminal. -/
structure Streams where
  unread : List UInt8
  written : Array String := #[]

namespace Streams

/-- Reads one line, up to and with its newline. -/
def readLine : Action Streams String
  | { unread, written } =>
    match Text.nextLine? unread with
    | some (line, rest) => (.ok line, { unread := rest, written })
    | none => (.error (.ofReason .endOfInput), { unread, written })

def writeLine (line : String) : Action Streams Unit
  | { unread, written } => (.ok (), { unread, written := written.push line })

instance : Terminal Streams := ⟨readLine, readLine, writeLine⟩

end Streams

/-- What a session leaves behind. -/
structure Transcript where
  stdout : String
  stderr : String
  exitCode : Nat
deriving DecidableEq, Repr

/-- The report of a failure. -/
def report : Failure → String
  | .system e => Diagnostic.text e
  | .foreign e =>
    Diagnostic.text (SystemError.withCause ⟨.unknown, none⟩ e) ++ e.className ++ ": " ++ e.message ++
      "\n"
  | .outOfFuel => Diagnostic.text ⟨.unknown, none⟩

private def lines (texts : Array String) : String :=
  String.join (texts.toList.map fun text => text ++ "\n")

def finished (stdout : String) : Transcript := { stdout, stderr := "", exitCode := 0 }

def failed (stdout : String) (e : Failure) : Transcript :=
  { stdout, stderr := report e, exitCode := 1 }

def findDemo (name : String) : Outcome Demo.Name :=
  match Demo.Name.ofText? name with
  | some demo => .ok demo
  | none => .error (.ofReason (.unknownDemo name Demo.Name.texts))

/-- Runs a program on the terminal by the named interpreter. -/
def interpretBy (fuel : Nat) (i : Interpreter) (p : ConsoleProgram Unit Value) :
    Action Streams Value :=
  match i with
  | .trampoline => Console.run p
  | .thunk => fun w =>
    match Console.toAction p () with
    | .ok t => t w
    | .error e => (.error e, w)
  | .par => fun w =>
    match Console.toWork p () with
    | .ok work => work.run fuel w
    | .error e => (.error e, w)

/-- The answer of a program, unless it is absent. -/
private def answerText : Value → String
  | .absent => ""
  | v => v.display ++ "\n"

/-- Runs a demo on the terminal. -/
def runDemo (fuel : Nat) (demo : Demo.Name) (i : Interpreter) (stdin : List UInt8) : Transcript :=
  match interpretBy fuel i (Demo.program fuel demo) { unread := stdin } with
  | (.ok answer, streams) => finished (lines streams.written ++ answerText answer)
  | (.error e, streams) => failed (lines streams.written) e

/-- Runs a demo on simulated input, and shows what it wrote, its answer and the unread lines. -/
def simulateDemo (fuel : Nat) (demo : Demo.Name) (input : List String) : Transcript :=
  match Console.simulate (R := Unit) (Demo.program fuel demo) input () with
  | (.ok (answer, buffers), _) =>
    let shown := Value.record
      [("result", answer), ("unread", .list (buffers.input.map .text))]
    finished (lines buffers.output ++ shown.display ++ "\n")
  | (.error e, _) => failed "" e

/-- Runs a demo where every read yields the given line. -/
def replayDemo (fuel : Nat) (demo : Demo.Name) (input : String) : Transcript :=
  match Console.toReplay (W := Unit) (Demo.program fuel demo) () with
  | .error e => failed "" e
  | .ok replay =>
    match replay.run input () with
    | (.ok answer, _) => finished (answer.display ++ "\n")
    | (.error e, _) => failed "" e

/-- Looks up a demo before a command goes on with it. -/
def withDemo (name : String) (k : Demo.Name → Transcript) : Transcript :=
  match findDemo name with
  | .ok demo => k demo
  | .error e => failed "" e

def perform (fuel : Nat) (stdin : List UInt8) : Invocation → Transcript
  | .list => finished (lines Demo.Name.texts.toArray)
  | .run name i => withDemo name fun demo => runDemo fuel demo i stdin
  | .simulate name input => withDemo name fun demo => simulateDemo fuel demo input
  | .replay name input => withDemo name fun demo => replayDemo fuel demo input

/-- A whole session; `fuel` bounds the rounds of its loops. -/
def session (fuel : Nat) (args : List String) (stdin : List UInt8) : Transcript :=
  match read args with
  | .ok invocation => perform fuel stdin invocation
  | .error (.usage e) => { stdout := "", stderr := e.text, exitCode := 1 }
  | .error (.failure e) => failed "" e

end Effectful.CommandLine
