import Effectful.Number.Double
/-!
# Reading a number

A numeral is a decimal with an optional sign, fraction and exponent, or a whole number after `0x`,
`0o` or `0b`. Nothing else is read, and a number too large for a double is infinite.
-/
namespace Effectful.Double

/-- The value of a digit in bases up to sixteen. -/
def digitValue (c : Char) : Option Nat :=
  if '0' ≤ c ∧ c ≤ '9' then some (c.toNat - '0'.toNat)
  else if 'a' ≤ c ∧ c ≤ 'f' then some (c.toNat - 'a'.toNat + 10)
  else if 'A' ≤ c ∧ c ≤ 'F' then some (c.toNat - 'A'.toNat + 10)
  else none

/-- The value of a non-empty run of digits of the given base. -/
def digitsValue (base : Nat) (cs : List Char) : Option Nat :=
  if cs.isEmpty then none
  else cs.foldlM (fun n c => do
    let d ← digitValue c
    if d < base then some (base * n + d) else none) 0

def isDecimalDigit (c : Char) : Bool := '0' ≤ c && c ≤ '9'

private def negate (negative : Bool) (n : Int) : Int := if negative then -n else n

/-- A sign, if there is one, and what follows it. -/
private def splitSign : List Char → Bool × List Char
  | '-' :: cs => (true, cs)
  | '+' :: cs => (false, cs)
  | cs => (false, cs)

/-- An exponent: nothing, or the letter e, an optional sign and digits. -/
private def exponentValue : List Char → Option Int
  | [] => some 0
  | c :: cs =>
    if c = 'e' ∨ c = 'E' then
      let (negative, digits) := splitSign cs
      if digits.all isDecimalDigit then
        (digitsValue 10 digits).map fun n => negate negative n
      else none
    else none

/-- An unsigned decimal: digits with an optional fraction, at least one digit in all, and an
optional exponent. -/
private def decimalValue (cs : List Char) : Option Float :=
  let whole := cs.takeWhile isDecimalDigit
  let rest := cs.dropWhile isDecimalDigit
  let (fraction, rest) :=
    match rest with
    | '.' :: rest => (rest.takeWhile isDecimalDigit, rest.dropWhile isDecimalDigit)
    | _ => ([], rest)
  do
    let digits ← digitsValue 10 (whole ++ fraction)
    let exponent ← exponentValue rest
    return ofDecimal digits (exponent - fraction.length)

/-- The number that a text without surrounding blanks denotes. -/
def read? (text : String) : Option Float :=
  match text.toList with
  | '0' :: 'x' :: cs | '0' :: 'X' :: cs => (digitsValue 16 cs).map ofNat
  | '0' :: 'o' :: cs | '0' :: 'O' :: cs => (digitsValue 8 cs).map ofNat
  | '0' :: 'b' :: cs | '0' :: 'B' :: cs => (digitsValue 2 cs).map ofNat
  | cs =>
    let (negative, body) := splitSign cs
    let magnitude :=
      if body = "Infinity".toList then some infinity else decimalValue body
    magnitude.map fun x => if negative then -x else x

end Effectful.Double
