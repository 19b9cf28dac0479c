import Effectful.Console.Operation
import Effectful.Number.Reading
import Effectful.Text.Blank
import Effectful.Text.Quoted
/-!
# Temperatures

A program that asks for a temperature in degrees Fahrenheit and prints it in degrees Celsius.
-/
namespace Effectful.Demo

variable {R : Type}

def celsiusOfFahrenheit (f : Float) : Float := (f - 32) * 5 / 9

def temperaturePrompt : String := "Enter a temperature in degrees Fahrenheit: "

/-- The finite number that a line denotes, apart from blanks around it. -/
def temperature? (line : String) : Option Float :=
  (Double.read? (Text.trim line)).filter Double.isFinite

/-- The answer to one line; a missing line counts as an empty one. -/
def temperatureAnswer (line : Option String) : String :=
  match line >>= temperature? with
  | some f => Double.text (celsiusOfFahrenheit f)
  | none => "Not a temperature: " ++ Text.quoted (line.getD "")

/-- Asks for a temperature, reads one line and answers it. -/
def temperatureDialogue : ConsoleProgram R Unit :=
  .bind (Console.printLine temperaturePrompt) fun _ _ =>
    .bind Console.readLine fun line _ => Console.printLine (temperatureAnswer line)

end Effectful.Demo
