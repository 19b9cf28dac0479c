import Effectful.Text.Units
/-!
# Suggestions

A word that no command knows is compared with the known ones. Those at the least distance are
suggested, provided that it is at most three and that they have enough in common with the word.
-/
namespace Effectful.CommandLine

private def word (s : String) : List Nat := s.toList.flatMap Text.unitValues

/-- The greatest distance of a suggestion. -/
def maxDistance : Nat := 3

/-- The rest of a row for the unit `c`, behind an entry `left`. `above` starts with the entry over
`left`; `twoAbove` starts two entries before the next one, once the row is that long. -/
private def rowFrom (previous : Option Nat) (c : Nat) (left : Nat) (beforeLeft : Option Nat) :
    List Nat → List Nat → List Nat → List Nat
  | d :: b, diagonal :: upper :: above, twoAbove =>
    let cost := min (min (upper + 1) (left + 1)) (diagonal + if c = d then 0 else 1)
    let cost :=
      match twoAbove.head? with
      | some corner =>
        if previous = some d ∧ beforeLeft = some c then min cost (corner + 1) else cost
      | none => cost
    let twoAbove := if beforeLeft.isSome then twoAbove.drop 1 else twoAbove
    cost :: rowFrom previous c cost (some d) b (upper :: above) twoAbove
  | _, _, _ => []

/-- One row of the table of distances, from the row above it and the one above that. The rows hold
the distances to the beginnings of `b`, the shortest first. -/
private def nextRow (previous : Option Nat) (c : Nat) (b : List Nat) (above twoAbove : List Nat) :
    List Nat :=
  match above with
  | [] => []
  | first :: _ => (first + 1) :: rowFrom previous c (first + 1) none b above twoAbove

private def rows (b : List Nat) (previous : Option Nat) (above twoAbove : List Nat) :
    List Nat → List Nat
  | [] => above
  | c :: a => rows b (some c) (nextRow previous c b above twoAbove) above a

/-- The number of insertions, deletions, replacements and exchanges of neighbours that turn one word
into another; for words of very different lengths, the greater length. -/
def editDistance (a b : List Nat) : Nat :=
  if a.length - b.length > maxDistance ∨ b.length - a.length > maxDistance then
    max a.length b.length
  else ((rows b none (List.range (b.length + 1)) [] a).getLast?).getD 0

/-- The candidates nearest to a word, as far as they are near enough at all. -/
def similar (text : String) (candidates : List String) : List String :=
  let rate (candidate : String) : Option (String × Nat) :=
    let a := word text
    let b := word candidate
    let distance := editDistance a b
    let length := max a.length b.length
    if 1 < b.length ∧ 2 * length < 5 * (length - distance) ∧ distance ≤ maxDistance then
      some (candidate, distance)
    else none
  let rated := candidates.eraseDups.filterMap rate
  match (rated.map (·.2)).min? with
  | none => []
  | some best =>
    ((rated.filter (·.2 == best)).map (·.1)).mergeSort fun x y => x ≤ y

/-- The line that suggests other words, or nothing. Options are compared without their dashes. -/
def suggestion (text : String) (candidates : List String) : String :=
  let isOption := text.startsWith "--"
  let bare (s : String) : String := if isOption then String.ofList (s.toList.drop 2) else s
  let found := (similar (bare text) (candidates.map bare)).map fun s =>
    if isOption then "--" ++ s else s
  match found with
  | [] => ""
  | [one] => "\n(Did you mean " ++ one ++ "?)"
  | many => "\n(Did you mean one of " ++ ", ".intercalate many ++ "?)"

end Effectful.CommandLine
