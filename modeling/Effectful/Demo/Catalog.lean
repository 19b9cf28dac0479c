import Effectful.Demo.Factorial
import Effectful.Demo.Temperature
/-!
# The catalog of demos

The console programs that can be run by name. Their answers are values, so that they can be shown.
-/
namespace Effectful.Demo

variable {R : Type}

/-- Prints the line that it reads, if there is one. -/
def echo : ConsoleProgram R Unit :=
  .bind Console.readLine fun line _ =>
    match line with
    | none => .done ()
    | some line => Console.printLine line

/-- Reads two lines and answers both. -/
def twoLines : ConsoleProgram R (Option String × Option String) :=
  .bind Console.readLine fun first _ => Console.readLine.map fun second => (first, second)

inductive Name
  | converter
  | echo
  | factorial
  | twice
deriving DecidableEq, Repr

namespace Name

def all : List Name := [converter, echo, factorial, twice]

def text : Name → String
  | converter => "converter"
  | echo => "echo"
  | factorial => "factorial"
  | twice => "twice"

def texts : List String := all.map text

def ofText? (text : String) : Option Name := all.find? fun name => name.text == text

end Name

def lineValue : Option String → Value
  | some line => .text line
  | none => .absent

/-- The program of a demo; `fuel` bounds the number of lines that a dialogue answers. -/
def program (fuel : Nat) : Name → ConsoleProgram R Value
  | .converter => temperatureDialogue.relabel fun _ => .absent
  | .echo => echo.relabel fun _ => .absent
  | .factorial => (factorialDialogue fuel).relabel fun _ => .absent
  | .twice => twoLines.relabel fun lines => .list [lineValue lines.1, lineValue lines.2]

end Effectful.Demo
