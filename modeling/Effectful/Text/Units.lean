/-!
# Sixteen-bit units

The width of a text is counted in units of sixteen bits: a character beyond the basic plane takes
two. A text that is cut off after so many units may end in the first half of a character.
-/
namespace Effectful.Text

def unitValues (c : Char) : List Nat :=
  let n := c.toNat
  if n < 0x10000 then [n] else [0xd800 + (n - 0x10000) / 1024, 0xdc00 + (n - 0x10000) % 1024]

/-- The number of units of a character. -/
def unitsOf (c : Char) : Nat := (unitValues c).length

def unitsIn (cs : List Char) : Nat := cs.foldr (fun c n => unitsOf c + n) 0

def units (s : String) : Nat := unitsIn s.toList

/-- What a cut leaves of a character: all of it, or its first unit. -/
inductive Fragment
  | whole (c : Char)
  | half (unit : Nat)
deriving DecidableEq, Repr

/-- The first `limit` units of a text, or all of them if there are fewer. -/
def takeUnits (limit : Nat) : List Char → List Fragment
  | [] => []
  | c :: cs =>
    if unitsOf c ≤ limit then .whole c :: takeUnits (limit - unitsOf c) cs
    else ((unitValues c).take limit).map .half

end Effectful.Text
