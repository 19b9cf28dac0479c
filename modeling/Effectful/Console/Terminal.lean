import Effectful.Action
/-!
# Terminals

A terminal is what a console program meets when it is really run: lines that can be read at once or
waited for, and a place to write lines to. Reading fails where there is no line. Line sources and
sinks are terminals kept in memory, and a registry says which of them are in use at the moment.
-/
namespace Effectful

class Terminal (W : Type) where
  readLine : Action W String
  /-- A line that is waited for on the executor. -/
  awaitLine : Action W String
  writeLine : String → Action W Unit

/-- Lines to be read, and the error of a read after the last one. -/
structure LineSource where
  unread : List String
  exhausted : Failure := .ofReason .endOfInput

def LineSource.read : Action LineSource String
  | { unread := [], exhausted } => (.error exhausted, { unread := [], exhausted })
  | { unread := line :: rest, exhausted } => (.ok line, { unread := rest, exhausted })

/-- Written lines. One call, counted from zero, may be set to fail. -/
structure LineSink where
  written : Array String := #[]
  calls : Nat := 0
  failAt : Option Nat := none

def LineSink.write (line : String) : Action LineSink Unit
  | { written, calls, failAt } =>
    if failAt = some calls then
      (.error (.error "write failed"), { written, calls := calls + 1, failAt })
    else (.ok (), { written := written.push line, calls := calls + 1, failAt })

/-- The collaborators of console programs that can be replaced while a program runs. -/
inductive Collaborator
  | fileMap
  | lineReader
  | asyncLineReader
  | lineWriter
deriving DecidableEq, Repr

namespace Collaborator

def all : List Collaborator := [fileMap, lineReader, asyncLineReader, lineWriter]

def name : Collaborator → String
  | fileMap => "FileMap"
  | lineReader => "LineReader"
  | asyncLineReader => "AsyncLineReader"
  | lineWriter => "LineWriter"

end Collaborator

/-- Named sources and sinks, in the order of their creation, and the names of those in use. -/
structure Registry where
  sources : List (String × LineSource) := []
  sinks : List (String × LineSink) := []
  reader : Option String := none
  asyncReader : Option String := none
  writer : Option String := none

namespace Registry

/-- Performs an action on the entry of a name; without such an entry it fails. -/
def onEntry {P α : Type} (name : Option String) (missing : Failure) (t : Action P α) :
    Action (List (String × P)) α
  | [] => (.error missing, [])
  | (key, part) :: rest =>
    if name = some key then
      let (result, part) := t part
      (result, (key, part) :: rest)
    else
      let (result, rest) := onEntry name missing t rest
      (result, (key, part) :: rest)

/-- Adds an entry under a name that has none. -/
def addEntry {P : Type} (name : String) (part : P) (entries : List (String × P)) :
    List (String × P) :=
  if entries.any fun e => e.1 == name then entries else entries ++ [(name, part)]

def readFrom (name : Option String) : Action Registry String
  | { sources, sinks, reader, asyncReader, writer } =>
    let (result, sources) := onEntry name (.ofReason .endOfInput) LineSource.read sources
    (result, { sources, sinks, reader, asyncReader, writer })

def writeTo (name : Option String) (line : String) : Action Registry Unit
  | { sources, sinks, reader, asyncReader, writer } =>
    let (result, sinks) := onEntry name (.error "write failed") (LineSink.write line) sinks
    (result, { sources, sinks, reader, asyncReader, writer })

instance : Terminal Registry where
  readLine g := readFrom g.reader g
  awaitLine g := readFrom g.asyncReader g
  writeLine line g := writeTo g.writer line g

/-- Takes a source into use, which is created at its first mention. -/
def useReader (name : String) (source : LineSource) (g : Registry) : Registry :=
  { g with sources := addEntry name source g.sources, reader := some name }

def useAsyncReader (name : String) (source : LineSource) (g : Registry) : Registry :=
  { g with sources := addEntry name source g.sources, asyncReader := some name }

def useWriter (name : String) (sink : LineSink) (g : Registry) : Registry :=
  { g with sinks := addEntry name sink g.sinks, writer := some name }

end Registry

end Effectful
