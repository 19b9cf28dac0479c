import Effectful.Number.Double
/-!
# Shortest decimals

A finite double is written with the fewest digits that read back as the same double, and among
those with the digits nearest to its value. The digits are found on exact integers: the numbers that
round to a double form an interval, and the coarsest decimal grid with a point in it is searched from
above.
-/
namespace Effectful

/-- The number `digits * 10 ^ exponent`. -/
structure Decimal where
  digits : Nat
  exponent : Int
deriving DecidableEq, Repr

namespace Decimal

/-- The numbers that round to one double, as multiples of `1 / den`. -/
structure Interval where
  low : Nat
  value : Nat
  high : Nat
  den : Nat
  /-- Whether the end points belong to it. -/
  closed : Bool

namespace Interval

/-- The numbers that round to `m * 2 ^ q`. The gap below a power of two is half the gap above it,
except at the least exponent, and the end points round to an even `m`. -/
def ofDouble (m : Nat) (q : Int) : Interval :=
  let below := if m = Double.pow2 52 ∧ Double.minExponent < q then 1 else 2
  let up := (q - 2).toNat
  let down := (2 - q).toNat
  { low := (4 * m - below) * Double.pow2 up
    value := 4 * m * Double.pow2 up
    high := (4 * m + 2) * Double.pow2 up
    den := Double.pow2 down
    closed := m % 2 = 0 }

/-- Whether `num / den`, scaled by `scale` on both sides, lies in the interval. -/
def contains (i : Interval) (num scale : Nat) : Bool :=
  if i.closed then i.low * scale ≤ num && num ≤ i.high * scale
  else i.low * scale < num && num < i.high * scale

/-- The point of the grid `10 ^ e` in the interval that is nearest to its value, if there is
one. -/
def nearestOnGrid (i : Interval) (e : Int) : Option Decimal :=
  let unit := i.den * Double.pow10 e.toNat
  let scale := Double.pow10 (-e).toNat
  let value := i.value * scale
  let d := value / unit
  let rest := 2 * (value % unit)
  let lower := i.contains (d * unit) scale
  let upper := i.contains ((d + 1) * unit) scale
  match lower, upper with
  | true, true => some ⟨if rest < unit || (rest == unit && d % 2 == 0) then d else d + 1, e⟩
  | true, false => some ⟨d, e⟩
  | false, true => some ⟨d + 1, e⟩
  | false, false => none

end Interval

/-- A decimal exponent that no digit of `m * 2 ^ q` exceeds; 30103 / 100000 is just above the
decimal logarithm of two. -/
private def topExponent (m : Nat) (q : Int) : Int :=
  ((m.log2 + 1 + q) * 30103) / 100000 + 1

/-- The shortest decimal for `m * 2 ^ q`; seventeen digits always suffice. -/
def shortest (m : Nat) (q : Int) : Decimal :=
  let interval := Interval.ofDouble m q
  ((List.range 22).findSome? fun (n : Nat) => interval.nearestOnGrid (topExponent m q - n)).getD ⟨0, 0⟩

end Decimal

end Effectful
