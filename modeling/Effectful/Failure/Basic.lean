/-!
# Failures

Everything that can stop a program before it answers. A `SystemError` is raised by this library
and says why; a `ForeignError` comes from the code of an effect or of a continuation; `outOfFuel`
marks a loop that was cut off after the given number of rounds.
-/
namespace Effectful

/-- The classes of errors that the library raises, in the order of their numbers. -/
inductive ErrorClass
  | unknown
  | invariantViolation
  | incompleteTranslator
  | untranslatableEffect
  | endOfInput
  | unknownDemo
  | invalidInterpreter
deriving DecidableEq, Repr

namespace ErrorClass

def all : List ErrorClass :=
  [unknown, invariantViolation, incompleteTranslator, untranslatableEffect, endOfInput,
    unknownDemo, invalidInterpreter]

/-- Classes are numbered from zero, in the order of `all`. -/
def number (t : ErrorClass) : Nat := t.ctorIdx

def code : ErrorClass → String
  | unknown => "UNKNOWN"
  | invariantViolation => "INVARIANT_VIOLATION"
  | incompleteTranslator => "INCOMPLETE_TRANSLATOR"
  | untranslatableEffect => "UNTRANSLATABLE_EFFECT"
  | endOfInput => "END_OF_INPUT"
  | unknownDemo => "UNKNOWN_DEMO"
  | invalidInterpreter => "INVALID_INTERPRETER"

/-- A fatal error is a defect of an interpreter, and nobody recovers from it. -/
def isFatal : ErrorClass → Bool
  | invariantViolation | incompleteTranslator | untranslatableEffect => true
  | unknown | endOfInput | unknownDemo | invalidInterpreter => false

end ErrorClass

/-- Why the library gave up, with what the reader of the message needs to know. -/
inductive Reason
  | unknown
  /-- The interpreter `driver` met a node `shape` that no reduction knows. -/
  | invariantViolation (driver shape : String)
  | incompleteTranslator (vocabulary : String) (missing : List String)
  | untranslatableEffect (vocabulary tag : String)
  | endOfInput
  | unknownDemo (name : String) (known : List String)
  | invalidInterpreter (name : String) (known : List String)
deriving DecidableEq, Repr

/-- One item of the data that an error carries. -/
inductive Detail
  | text (value : String)
  | names (values : List String)
deriving DecidableEq, Repr

namespace Reason

def errorClass : Reason → ErrorClass
  | unknown => .unknown
  | invariantViolation .. => .invariantViolation
  | incompleteTranslator .. => .incompleteTranslator
  | untranslatableEffect .. => .untranslatableEffect
  | endOfInput => .endOfInput
  | unknownDemo .. => .unknownDemo
  | invalidInterpreter .. => .invalidInterpreter

private def quote (s : String) : String := "\"" ++ s ++ "\""

private def commas (names : List String) : String := ", ".intercalate names

def message : Reason → String
  | unknown => "Unknown error"
  | invariantViolation driver _ => driver ++ " reached a program shape that stepping eliminates"
  | incompleteTranslator vocabulary missing =>
    "Translator for " ++ vocabulary ++ " is missing cases: " ++ commas (missing.map quote)
  | untranslatableEffect vocabulary tag =>
    "No " ++ vocabulary ++ " translation for operation " ++ quote tag
  | endOfInput => "Unexpected end of input"
  | unknownDemo name _ => "Unknown demo " ++ quote name
  | invalidInterpreter name _ => "Unknown interpreter " ++ quote name

def notes : Reason → List String
  | invariantViolation _ shape =>
    ["after step, a bind node had a " ++ quote shape ++ " node on its left",
      "this is a bug in the interpreter core, not in the program"]
  | incompleteTranslator vocabulary _ =>
    ["A translator must handle every " ++ vocabulary ++ " operation, so no effect is skipped"]
  | unknownDemo _ known => ["Available demos: " ++ commas known]
  | invalidInterpreter _ known => ["Expected one of: " ++ commas known]
  | unknown | untranslatableEffect .. | endOfInput => []

/-- The operands of an error, by name. -/
def data : Reason → List (String × Detail)
  | invariantViolation driver shape => [("driver", .text driver), ("shape", .text shape)]
  | incompleteTranslator vocabulary missing =>
    [("vocabulary", .text vocabulary), ("missing", .names missing)]
  | untranslatableEffect vocabulary tag => [("vocabulary", .text vocabulary), ("tag", .text tag)]
  | unknownDemo name _ | invalidInterpreter name _ => [("name", .text name)]
  | unknown | endOfInput => []

end Reason

/-- An error raised by the code of an effect, of a continuation, or of an operation on lists or
values. -/
inductive ForeignError
  | error (message : String)
  /-- A list of `2 ^ 32` items or more was asked for. -/
  | invalidLength
  /-- The text was asked for of a value that has none. -/
  | noText
deriving DecidableEq, Repr

namespace ForeignError

def className : ForeignError → String
  | error _ => "Error"
  | invalidLength => "RangeError"
  | noText => "TypeError"

def message : ForeignError → String
  | error message => message
  | invalidLength => "Invalid array length"
  | noText => "Cannot convert object to primitive value"

end ForeignError

/-- An error of the library, with the foreign error that led to it, if any. -/
structure SystemError where
  reason : Reason
  cause : Option ForeignError := none
deriving DecidableEq, Repr

namespace SystemError

def errorClass (e : SystemError) : ErrorClass := e.reason.errorClass

def isFatal (e : SystemError) : Bool := e.errorClass.isFatal

def withCause (e : SystemError) (cause : ForeignError) : SystemError :=
  { e with cause := some cause }

end SystemError

/-- What can stop a program before it answers. -/
inductive Failure
  | system (e : SystemError)
  | foreign (e : ForeignError)
  | outOfFuel
deriving DecidableEq, Repr

namespace Failure

def ofReason (r : Reason) : Failure := .system ⟨r, none⟩

def error (message : String) : Failure := .foreign (.error message)

/-- The failure of a case that cannot arise: the given error itself, a plain error with the given
message, or the fixed text when there is no message. -/
def impossible : Option (SystemError ⊕ String) → Failure
  | some (.inl e) => .system e
  | some (.inr message) => if message.isEmpty then .error "Unreachable" else .error message
  | none => .error "Unreachable"

end Failure

end Effectful
