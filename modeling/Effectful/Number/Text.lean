import Effectful.Number.Decimal
/-!
# The text of a number

A number is written with its shortest digits, positionally from `1e-6` up to below `1e21` and with
an exponent outside. Zero has no sign.
-/
namespace Effectful.Double

/-- The text of the digits `ds`, of which the first has the weight `10 ^ (point - 1)`. -/
def decimalText (ds : List Char) (point : Int) : String :=
  let count : Int := ds.length
  if count ≤ point ∧ point ≤ 21 then
    String.ofList (ds ++ List.replicate (point - count).toNat '0')
  else if 0 < point ∧ point ≤ 21 then
    String.ofList (ds.take point.toNat ++ '.' :: ds.drop point.toNat)
  else if -6 < point ∧ point ≤ 0 then
    String.ofList ('0' :: '.' :: List.replicate (-point).toNat '0' ++ ds)
  else
    let exponent := point - 1
    let sign := if exponent < 0 then "-" else "+"
    let rest := ds.drop 1
    let fraction := if rest.isEmpty then [] else '.' :: rest
    String.ofList (ds.take 1 ++ fraction) ++ "e" ++ sign ++ toString exponent.natAbs

def text (x : Float) : String :=
  match parts x with
  | .nan => "NaN"
  | .infinite negative => if negative then "-Infinity" else "Infinity"
  | .finite _ 0 _ => "0"
  | .finite negative m q =>
    let d := Decimal.shortest m q
    let ds := Nat.toDigits 10 d.digits
    (if negative then "-" else "") ++ decimalText ds (ds.length + d.exponent)

end Effectful.Double
