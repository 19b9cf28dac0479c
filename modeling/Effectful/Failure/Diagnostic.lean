import Effectful.Failure.Basic
import Effectful.Text.Line
/-!
# Diagnostics

The text that reports an error on a terminal: a coloured header with the code and the message,
one bulleted entry for each note, and an empty line.
-/
namespace Effectful.Diagnostic

private def reset : String := "\x1b[0m"
private def bold : String := "\x1b[1m"
private def red : String := "\x1b[38;5;9m"
private def blue : String := "\x1b[34m"

/-- The lines of a text, each without one carriage return at its end. An empty line at the very end
does not count. -/
def lines (text : String) : List String :=
  let parts := text.splitOn "\n"
  (if parts.getLast? = some "" then parts.dropLast else parts).map Text.dropReturn

/-- One note: its first line behind a bullet, the others indented to match. -/
def noteText (note : String) : String :=
  match lines note with
  | [] => ""
  | first :: rest =>
    " " ++ reset ++ blue ++ "=" ++ reset ++ " " ++ first ++ "\n" ++
      String.join (rest.map fun line => "   " ++ line ++ "\n")

def text (e : SystemError) : String :=
  reset ++ bold ++ red ++ "error[" ++ e.errorClass.code ++ "]" ++ reset ++ bold ++ ": " ++
    e.reason.message ++ reset ++ "\n" ++ String.join (e.reason.notes.map noteText) ++ "\n"

end Effectful.Diagnostic
