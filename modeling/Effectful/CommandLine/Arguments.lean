import Effectful.CommandLine.Suggestion
import Effectful.Failure.Outcome
/-!
# Command line arguments

A command line names a command, its operands and its options. Options may stand before or after the
operands, and after `--` everything is an operand. Operands that no command asks for are ignored.
Arguments are looked at from left to right, and the first complaint ends the reading.
-/
namespace Effectful.CommandLine

inductive Interpreter
  | trampoline
  | thunk
  | par
deriving DecidableEq, Repr

namespace Interpreter

def all : List Interpreter := [trampoline, thunk, par]

def name : Interpreter → String
  | trampoline => "trampoline"
  | thunk => "thunk"
  | par => "par"

def ofName (name : String) : Outcome Interpreter :=
  match all.find? fun i => i.name == name with
  | some i => .ok i
  | none => .error (.ofReason (.invalidInterpreter name (all.map Interpreter.name)))

end Interpreter

/-- A command line that has been understood. -/
inductive Invocation
  | run (demo : String) (interpreter : Interpreter)
  | simulate (demo : String) (input : List String)
  | replay (demo input : String)
  | list
deriving DecidableEq, Repr

/-- Why a command line was not understood. -/
inductive UsageError
  | missingArgument (name : String)
  | missingOptionArgument
  | unknownCommand (name : String)
  | unknownOption (flag : String) (known : List String)
  /-- A request for the help text, made or implied. -/
  | help
deriving DecidableEq, Repr

/-- What ends the reading of a command line. -/
inductive Complaint
  | usage (e : UsageError)
  | failure (e : Failure)
deriving DecidableEq, Repr

def commandNames : List String := ["run", "simulate", "replay", "list"]

def helpFlags : List String := ["-h", "--help"]

namespace UsageError

def message : UsageError → String
  | missingArgument name => "missing required argument '" ++ name ++ "'"
  | missingOptionArgument => "option '-i, --interpreter <name>' argument missing"
  | unknownCommand name =>
    "unknown command '" ++ name ++ "'" ++ suggestion name (commandNames ++ ["help"])
  | unknownOption flag known =>
    "unknown option '" ++ flag ++ "'" ++
      (if flag.startsWith "--" then suggestion flag known else "")
  | help => ""

/-- The lines that report a usage error. -/
def text : UsageError → String
  | help => ""
  | e => "error: " ++ e.message ++ "\n"

end UsageError

def looksLikeOption (arg : String) : Bool := arg.length > 1 && arg.startsWith "-"

/-- What the options of a command make of its arguments. -/
structure Scan where
  interpreter : Interpreter := .trampoline
  operands : List String := []
  /-- Options that the command does not know, with what follows them. -/
  unknown : List String := []

/-- How an argument names the option `-i, --interpreter`. -/
inductive Mention
  | alone
  | withValue (value : String)
deriving DecidableEq, Repr

def mention? (arg : String) : Option Mention :=
  if arg = "-i" ∨ arg = "--interpreter" then some .alone
  else if arg.startsWith "-i" then some (.withValue (String.ofList (arg.toList.drop 2)))
  else if arg.startsWith "--interpreter=" then
    some (.withValue (String.ofList (arg.toList.drop "--interpreter=".length)))
  else none

/-- Sorts arguments into operands and unknown options; the first unknown option takes along all that
follows it. Where the command has the interpreter option, each mention of it is checked at once. -/
def scan (hasOption : Bool) (s : Scan) : List String → Except Complaint Scan
  | [] => .ok s
  | "--" :: rest =>
    .ok (if s.unknown.isEmpty then { s with operands := s.operands ++ rest }
      else { s with unknown := s.unknown ++ "--" :: rest })
  | arg :: rest =>
    match (if hasOption then mention? arg else none), rest with
    | some .alone, [] => .error (.usage .missingOptionArgument)
    | some .alone, value :: rest =>
      match Interpreter.ofName value with
      | .ok i => scan hasOption { s with interpreter := i } rest
      | .error e => .error (.failure e)
    | some (.withValue value), rest =>
      match Interpreter.ofName value with
      | .ok i => scan hasOption { s with interpreter := i } rest
      | .error e => .error (.failure e)
    | none, rest =>
      if looksLikeOption arg || !s.unknown.isEmpty then
        scan hasOption { s with unknown := s.unknown ++ [arg] } rest
      else scan hasOption { s with operands := s.operands ++ [arg] } rest

def refuseUnknown (known : List String) (unknown : List String) : Except Complaint Unit :=
  if unknown.any helpFlags.contains then .error (.usage .help)
  else match unknown with
    | flag :: _ => .error (.usage (.unknownOption flag known))
    | [] => .ok ()

private def missing {α : Type} (name : String) : Except Complaint α :=
  .error (.usage (.missingArgument name))

/-- Reads the arguments of a command. -/
def readCommand (name : String) (operands unknown : List String) : Except Complaint Invocation := do
  let hasOption := name == "run"
  let s ← scan hasOption { operands := operands } unknown
  refuseUnknown (if hasOption then ["--interpreter", "--help"] else ["--help"]) s.unknown
  match name, s.operands with
  | "list", _ => return .list
  | "run", demo :: _ => return .run demo s.interpreter
  | "simulate", demo :: input => return .simulate demo input
  | "replay", demo :: input :: _ => return .replay demo input
  | "replay", [_] => missing "input"
  | _, _ => missing "demo"

def read (args : List String) : Except Complaint Invocation := do
  let s ← scan false {} args
  match s.operands with
  | name :: operands =>
    if commandNames.contains name then readCommand name operands s.unknown
    else if name == "help" || s.unknown.any helpFlags.contains then .error (.usage .help)
    else .error (.usage (.unknownCommand name))
  | [] => do
    refuseUnknown ["--help"] s.unknown
    .error (.usage .help)

end Effectful.CommandLine
