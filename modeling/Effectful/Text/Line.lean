import Effectful.Text.Utf8
/-!
# Lines of bytes

Lines end at a newline byte, or at the end of the input if at least one byte stands before it. A line
is decoded after it has been cut off, and loses one carriage return at its end.
-/
namespace Effectful.Text

def newline : UInt8 := 0x0a

/-- A text without a carriage return at its end. -/
def dropReturn (s : String) : String :=
  if s.toList.getLast? = some '\r' then String.ofList s.toList.dropLast else s

/-- Takes bytes off the input one by one and collects them, up to the newline that ends the line or to
the end of the input. There is no line if the input ends before a byte is collected. -/
def collectLine (collected : Array UInt8) : List UInt8 → Option (Array UInt8 × List UInt8)
  | [] => if collected.isEmpty then none else some (collected, [])
  | byte :: rest =>
    if byte = newline then some (collected, rest) else collectLine (collected.push byte) rest

/-- The first line of the input and the bytes after it, or nothing at the end of the input. -/
def nextLine? (bytes : List UInt8) : Option (String × List UInt8) :=
  (collectLine #[] bytes).map fun (line, rest) => (dropReturn (Utf8.decode line.toList), rest)

end Effectful.Text
