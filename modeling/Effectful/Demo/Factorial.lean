import Effectful.Console.Operation
import Effectful.Program.Loop
import Effectful.Routine.Cell
import Effectful.Text.Blank
import Effectful.Text.Quoted
import Effectful.Number.Reading
/-!
# Factorials

The factorial as a pure fold, as a loop over a cell, and as a dialogue that answers every line until
it reads `q`. The numbers may be of any kind that has a multiplication.
-/
namespace Effectful.Demo

universe u

/-- Numbers as the factorial needs them. -/
class Numeric (N : Type) extends Mul N where
  ofNat : Nat → N

instance : Numeric Nat := ⟨id⟩

instance : Numeric Float := ⟨Double.ofNat⟩

variable {R W N : Type} {F : Type → Type u} [Numeric N]

/-- The product of the whole numbers from one up to `n`, from left to right. -/
def factorial (n : Rat) (r : R) : Outcome (Program R F N) :=
  (countUp Numeric.ofNat n).andThen fun factors =>
    Program.fold factors (Numeric.ofNat 1) (fun acc i _ => .ok (.done (acc * i))) r

/-- The same product, accumulated in a cell. -/
def factorialInCell [HasStore W N] (n : Rat) : Routine R W N :=
  .bind (Cell.ref (V := N) (Numeric.ofNat 1)) fun c r =>
    .ofOutcome <| (countUp (N := N) Numeric.ofNat n).andThen fun factors =>
      (Program.forEach factors (fun i _ => .ok (c.modify fun x _ => .ok (x * i))) r).map fun loop =>
        .bind loop fun _ _ => c.get

def dialogueHelp : String :=
  "\n".intercalate
    ["The Amazing Factorial REPL, v2.0", "q - quit",
      "<number> - compute the factorial of the given number",
      "<anything else> - complain and ask again"]

/-- The number that a run of decimal digits between blanks denotes. -/
def wholeNumber? (line : String) : Option Nat := Double.digitsValue 10 (Text.trim line).toList

def factorialText (i : Nat) (n : Float) : String :=
  "factorial of " ++ toString i ++ " is equal to " ++ Double.text n

def complaint (line : String) : String := "Not a number: " ++ Text.quoted line

/-- Answers one line of the dialogue. -/
def answerLine (line : String) (r : R) : Outcome (ConsoleProgram R Unit) :=
  match wholeNumber? line with
  | none => .ok (Console.printLine (complaint line))
  | some i =>
    (factorial i r).map fun p => .bind p fun n _ => Console.printLine (factorialText i n)

/-- Answers a line unless it ends the dialogue, and answers whether the dialogue goes on. -/
def continueAfter (line : Option String) (r : R) : ConsoleProgram R Bool :=
  match line with
  | none => .done false
  | some line =>
    if line = "q" then .done false else .ofOutcome ((answerLine line r).map (·.map fun _ => true))

/-- Reads lines and answers them until `q` or the end of the input. -/
def factorialDialogue (fuel : Nat) : ConsoleProgram R Unit :=
  .bind (Console.printLine dialogueHelp) fun _ _ =>
    Program.doWhile fuel Console.readLine continueAfter

end Effectful.Demo
