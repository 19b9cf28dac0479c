/-!
# Doubles as exact numbers

A finite double is `± m * 2 ^ q` with a whole `m < 2 ^ 53` and `q ≥ -1074`. This module takes a
double apart into these numbers, and finds the double nearest to a quotient, where an exact half goes
to the even neighbour.
-/
namespace Effectful.Double

def pow2 (n : Nat) : Nat := Nat.pow 2 n

def pow10 (n : Nat) : Nat := Nat.pow 10 n

def infinity : Float := Float.ofBits 0x7ff0000000000000

inductive Parts
  | nan
  | infinite (negative : Bool)
  /-- The number `m * 2 ^ q`, or its negative. -/
  | finite (negative : Bool) (m : Nat) (q : Int)
deriving DecidableEq, Repr

def minExponent : Int := -1074

def parts (x : Float) : Parts :=
  let bits := x.toBits.toNat
  let negative := pow2 63 ≤ bits
  let exponent : Nat := bits / pow2 52 % pow2 11
  let fraction : Nat := bits % pow2 52
  if exponent = 2047 then
    if fraction = 0 then .infinite negative else .nan
  else if exponent = 0 then .finite negative fraction minExponent
  else .finite negative (pow2 52 + fraction) ((exponent : Int) - 1 + minExponent)

def isFinite (x : Float) : Bool :=
  match parts x with
  | .finite .. => true
  | .nan | .infinite _ => false

/-- The rational number `m * 2 ^ q`. -/
def scale (m : Nat) (q : Int) : Rat :=
  if 0 ≤ q then (m * pow2 q.toNat : Nat) else mkRat m (pow2 (-q).toNat)

/-- The exact value of a finite double. -/
def toRat? (x : Float) : Option Rat :=
  match parts x with
  | .finite negative m q => some (if negative then -scale m q else scale m q)
  | .nan | .infinite _ => none

/-- A quotient rounded to the nearest whole number, a half to the even one. -/
def roundDiv (num den : Nat) : Nat :=
  let floor := num / den
  let rest := 2 * (num % den)
  if rest < den then floor
  else if den < rest then floor + 1
  else if floor % 2 = 0 then floor else floor + 1

/-- The quotient `num / (den * 2 ^ q)`, rounded. -/
private def roundScaled (num den : Nat) (q : Int) : Nat :=
  if 0 ≤ q then roundDiv num (den * pow2 q.toNat) else roundDiv (num * pow2 (-q).toNat) den

/-- An exponent for which `num / den` has 53 binary digits, or the least exponent. -/
private def exponentFor (num den : Nat) : Int :=
  let guess : Int := (num.log2 : Int) - den.log2 - 52
  let short :=
    if 0 ≤ guess then num < den * pow2 (guess.toNat + 52)
    else num * pow2 (-guess).toNat < den * pow2 52
  max (if short then guess - 1 else guess) minExponent

/-- The double nearest to `num / den`, infinite beyond the largest one. The bits of a double grow
with its value, so a carry out of the fraction gives the next exponent. -/
def nearest (num den : Nat) : Float :=
  if num = 0 then 0
  else
    let q := exponentFor num den
    let m := roundScaled num den q
    let bits := (q - minExponent).toNat * pow2 52 + m
    if 2047 * pow2 52 ≤ bits then infinity else Float.ofBits bits.toUInt64

def ofNat (n : Nat) : Float := nearest n 1

/-- The double nearest to `digits * 10 ^ exponent`. Exponents far outside the range of doubles
are settled by the number of digits alone. -/
def ofDecimal (digits : Nat) (exponent : Int) : Float :=
  if digits = 0 then 0
  else
    let size : Int := (Nat.toDigits 10 digits).length + exponent
    if 310 < size then infinity
    else if size < -330 then 0
    else if 0 ≤ exponent then nearest (digits * pow10 exponent.toNat) 1
    else nearest digits (pow10 (-exponent).toNat)

end Effectful.Double
