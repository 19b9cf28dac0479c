import Effectful.Program.Interpretation
import Effectful.Value.Basic
/-!
# The console vocabulary

Console programs read and print lines. Each operation carries a *witness*, which turns the
operation's own answer into the answer that the program wants, and which may fail. A read that meets
the end of the input answers no line. A translator needs one case for each operation; an operation
outside the vocabulary is refused by every translator, under its tag.
-/
namespace Effectful

/-- An operation on the console that answers an `α`. -/
inductive Console (R α : Type) : Type
  | read (result : Option String → R → Outcome α)
  | print (line : String) (result : R → Outcome α)
  /-- An operation that no translator knows. Its value is neither absent nor null, and its tag is
  none of the vocabulary. -/
  | other (op : Value)

abbrev ConsoleProgram (R : Type) : Type → Type 1 := Program R (Console R)

namespace Console

universe u

variable {R α : Type} {G : Type → Type u}

instance : Functor (Console R) where
  map f
    | read result => read fun line r => (result line r).map f
    | print line result => print line fun r => (result r).map f
    | other op => other op

def readLine : ConsoleProgram R (Option String) := .effect (read fun line _ => .ok line)

def printLine (line : String) : ConsoleProgram R Unit := .effect (print line fun _ => .ok ())

/-- One interpretation for each operation of the vocabulary. -/
structure Cases (R : Type) (G : Type → Type u) where
  readLine : {α : Type} → (Option String → R → Outcome α) → G α
  printLine : {α : Type} → String → (R → Outcome α) → G α

/-- The failure of every translator at an operation that is not of the vocabulary: its refusal, or
that it has no tag that the refusal could name. -/
def refused (op : Value) : Failure :=
  match op.tagText with
  | .ok tag => .ofReason (.untranslatableEffect "Console" tag)
  | .error e => e

def Cases.translator (cases : Cases R G) : Translator (Console R) G where
  apply
    | .read result => .ok (cases.readLine result)
    | .print line result => .ok (cases.printLine line result)
    | .other op => .error (refused op)

/-- Cases of which some may be missing. -/
structure PartialCases (R : Type) (G : Type → Type u) where
  readLine : Option ((α : Type) → (Option String → R → Outcome α) → G α)
  printLine : Option ((α : Type) → String → (R → Outcome α) → G α)

namespace PartialCases

/-- The names of the missing cases, in the order of the vocabulary. -/
def missing (cases : PartialCases R G) : List String :=
  (if cases.readLine.isNone then ["readLine"] else []) ++
    (if cases.printLine.isNone then ["printLine"] else [])

/-- The translator with the given cases, if none is missing. -/
def translator (cases : PartialCases R G) : Outcome (Translator (Console R) G) :=
  match cases.readLine, cases.printLine with
  | some readLine, some printLine =>
    .ok (Cases.translator ⟨fun {α} => readLine α, fun {α} => printLine α⟩)
  | _, _ => .error (.ofReason (.incompleteTranslator "Console" cases.missing))

end PartialCases

end Console

end Effectful
