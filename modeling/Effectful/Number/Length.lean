import Effectful.Failure.Outcome
import Effectful.Number.Double
/-!
# Lengths of lists

A list may be asked for with any exact number as its length. The length is rounded down, a negative
one counts as zero, and a list of `2 ^ 32` items or more is refused. Lengths and counters may also be
given as doubles.
-/
namespace Effectful

/-- The least length of a list that is refused. -/
def maxLength : Nat := Double.pow2 32

/-- The number of items of a list of the asked length. -/
def listLength (n : Rat) : Outcome Nat :=
  if n.floor.toNat < maxLength then .ok n.floor.toNat else .error (.foreign .invalidLength)

/-- The exact number that a double asks for as a length: nothing for an undefined one, and a number
far beyond any list for an infinite one. -/
def askedLength (x : Float) : Rat :=
  match Double.parts x with
  | .nan => 0
  | .infinite negative => if negative then -Double.pow2 53 else Double.pow2 53
  | .finite .. => (Double.toRat? x).getD 0

/-- The exact number from which a counter goes down by one until it is not positive; nothing for a
counter that never gets there. -/
def countdown? (x : Float) : Option Rat :=
  match Double.parts x with
  | .nan | .infinite false => none
  | .infinite true => some 0
  | .finite .. => Double.toRat? x

/-- The doubles `start`, `start + 1`, … up to and with `stop`. -/
def range (start stop : Float) : Outcome (List Float) :=
  (listLength (askedLength (stop - start + 1))).map fun length =>
    (List.range length).map fun i => start + Double.ofNat i

/-- The whole numbers from one up to the asked length, in any system of numbers. -/
def countUp {N : Type} (ofNat : Nat → N) (n : Rat) : Outcome (List N) :=
  (listLength n).map fun length => (List.range' 1 length).map ofNat

end Effectful
