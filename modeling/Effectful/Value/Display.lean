import Effectful.Text.Quoted
import Effectful.Text.Units
import Effectful.Value.Basic
/-!
# Showing values

A value is shown for a reader: texts in the first kind of quotes that they do not contain, lists in
brackets and records in braces, on one line if it fits in eighty columns and with one entry a line
otherwise.
-/
namespace Effectful.Value

open Text (Fragment)

def columns : Nat := 80

/-- The greatest number of units of a text that are shown. -/
def shownUnits : Nat := 10000

/-- The quote around a text: single, double or a backquote, whichever comes first that it does not
contain; a text with all three, or one that would read as a template, takes single quotes. -/
def quoteFor (fs : List Fragment) : Char :=
  let has (c : Char) : Bool := fs.contains (.whole c)
  if !has '\'' then '\''
  else if !has '"' then '"'
  else if !has '\x60' && !(fs.zip (fs.drop 1)).contains (.whole '$', .whole '\x7b') then '\x60'
  else '\''

/-- One character of a shown text. -/
def escapeShown (quote c : Char) : String :=
  match c with
  | '\n' => "\\n"
  | '\r' => "\\r"
  | '\t' => "\\t"
  | '\x08' => "\\b"
  | '\x0c' => "\\f"
  | '\\' => "\\\\"
  | c =>
    if c == '\'' && quote == '\'' then "\\'"
    else if c.toNat < 0x20 || (0x7f ≤ c.toNat && c.toNat ≤ 0x9f) then
      "\\x" ++ Text.hexDigits true 2 c.toNat
    else String.singleton c

/-- What is shown of a character, or the number of the half that a cut has left of it. -/
def fragmentText (quote : Char) : Fragment → String
  | .whole c => escapeShown quote c
  | .half unit => "\\u" ++ Text.hexDigits false 4 unit

def shownText (fs : List Fragment) : String :=
  let quote := quoteFor fs
  String.singleton quote ++ String.join (fs.map (fragmentText quote)) ++ String.singleton quote

/-- The parts of a text, each up to and with a newline. -/
def splitAfterNewline : List Fragment → List (List Fragment)
  | [] => []
  | f :: fs =>
    if f = .whole '\n' then [f] :: splitAfterNewline fs
    else match splitAfterNewline fs with
      | [] => [[f]]
      | part :: rest => (f :: part) :: rest

private def spaces (n : Nat) : String := String.ofList (List.replicate n ' ')

/-- A text at an indentation. A long one is cut off, and one wider than the line is broken after its
newlines into a sum of texts. -/
def shownAt (indent : Nat) (s : String) : String :=
  let units := Text.units s
  let extra := units - shownUnits
  let trailer :=
    if extra = 0 then ""
    else "... " ++ toString extra ++ " more character" ++ (if extra = 1 then "" else "s")
  let fs := Text.takeUnits shownUnits s.toList
  let width := min units shownUnits
  if 16 < width ∧ columns < width + indent + 4 then
    (" +\n" ++ spaces (indent + 2)).intercalate ((splitAfterNewline fs).map shownText) ++ trailer
  else shownText fs ++ trailer

/-- The entries of a list or a record between its brackets, at an indentation. -/
def enclose (opening closing : String) (indent : Nat) (entries : List String) : String :=
  if entries.isEmpty then opening ++ closing
  else
    let width := entries.foldr (fun e n => Text.units e + n) 0 + 2 * entries.length + indent + 11
    if width ≤ columns ∧ entries.all fun e => !e.contains '\n' then
      opening ++ " " ++ ", ".intercalate entries ++ " " ++ closing
    else
      let margin := "\n" ++ spaces indent
      opening ++ margin ++ "  " ++ ("," ++ margin ++ "  ").intercalate entries ++ margin ++ closing

mutual

def shown (indent : Nat) : Value → String
  | absent => "undefined"
  | null => "null"
  | bool b => if b then "true" else "false"
  | number x => if x.toBits = 0x8000000000000000 then "-0" else Double.text x
  | text s => shownAt indent s
  | list items => enclose "[" "]" indent (showItems (indent + 2) items)
  | record fields => enclose "\x7b" "\x7d" indent (showFields (indent + 2) fields)

def showItems (indent : Nat) : List Value → List String
  | [] => []
  | item :: rest => shown indent item :: showItems indent rest

def showFields (indent : Nat) : List (String × Value) → List String
  | [] => []
  | (name, value) :: rest => (name ++ ": " ++ shown indent value) :: showFields indent rest

end

/-- A value as a command shows it. -/
def display (v : Value) : String := shown 0 v

end Effectful.Value
