/-!
# Quoted text

A text between double quotes, as data formats write it: quotes and backslashes are escaped, and so
are the controls below the space, by a letter where one is customary and by four digits otherwise.
-/
namespace Effectful.Text

/-- The last `width` hexadecimal digits of a number, with the given digits for ten to fifteen. -/
def hexDigits (upper : Bool) (width n : Nat) : String :=
  let ds := Nat.toDigits 16 n
  let ds := if upper then ds.map Char.toUpper else ds
  String.ofList (List.replicate (width - ds.length) '0' ++ ds)

def escape (c : Char) : String :=
  match c with
  | '"' => "\\\""
  | '\\' => "\\\\"
  | '\n' => "\\n"
  | '\r' => "\\r"
  | '\t' => "\\t"
  | '\x08' => "\\b"
  | '\x0c' => "\\f"
  | c => if c.toNat < 0x20 then "\\u" ++ hexDigits false 4 c.toNat else String.singleton c

def quoted (s : String) : String := "\"" ++ String.join (s.toList.map escape) ++ "\""

end Effectful.Text
