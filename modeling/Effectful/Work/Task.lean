import Effectful.Work.Basic
/-!
# Tasks

A task is work that has been started: what has settled, what waits for a turn or for a callback, and
the continuations above them. The executor addresses a waiting place by its `Path` through the pairs
of a task, and keeps two queues. *Turns* are asked for by forks and callbacks. *Jobs* pass outcomes
on; all of them run before the next turn. A settled place stays as it is, and a pair that has failed
keeps the task of its other side, which runs on to its end.

Outcomes climb a task one job at a time, so of two sides that run in the same stretch the one with
less above it is the faster. A chain takes one job to apply its continuation, or to fail. The outcome
of what the continuation goes on with takes one more job, or two if it is known at once. A pair takes
two jobs after its second answer or its first failure.
-/
namespace Effectful

inductive Side
  | left
  | right
deriving DecidableEq, Repr

/-- The way from the root of a task to a waiting place: the side taken at each pair. -/
abbrev Path := List Side

/-- A request for a turn: for the place at a path, or for an effect whose answer comes too late to
count. -/
inductive Turn (W : Type)
  | resume (path : Path)
  | stray (effect : W → W)

/-- The world, and what is to be run on it, in order. -/
structure Queue (W : Type) where
  world : W
  jobs : List Path := []
  turns : List (Turn W) := []

namespace Queue

variable {W : Type}

def postJob (q : Queue W) (path : Path) : Queue W := { q with jobs := q.jobs ++ [path] }

def postTurn (q : Queue W) (turn : Turn W) : Queue W := { q with turns := q.turns ++ [turn] }

def postStrays {α : Type} (q : Queue W) (effects : List (W → α × W)) : Queue W :=
  { q with turns := q.turns ++ effects.map fun effect => .stray fun w => (effect w).2 }

def perform {α : Type} (q : Queue W) (t : Action W α) : Outcome α × Queue W :=
  match q with
  | { world, jobs, turns } =>
    let (result, world) := t world
    (result, { world, jobs, turns })

end Queue

/-- Started work. A `failure` noted at a chain or a pair is its outcome. -/
inductive Task (R W : Type) : Type → Type 1
  | settled {α : Type} (result : Outcome α) : Task R W α
  /-- Work that waits for its turn. -/
  | asleep {α : Type} (w : Work R W α) : Task R W α
  /-- A callback that will be called on a turn, after an effect. -/
  | listening {α : Type} (answer : W → α × W) : Task R W α
  /-- A callback that will never be called. -/
  | silent {α : Type} : Task R W α
  | chain {α β : Type} (child : Task R W β) (f : β → R → Work R W α) (failure : Option Failure) :
      Task R W α
  /-- What a continuation goes on with. Its outcome counts `steps + 1` jobs after it is known. -/
  | relay {α : Type} (child : Task R W α) (steps : Nat) : Task R W α
  /-- Two sides. Once both have answered or the first has failed, the pair has `steps` jobs to go. -/
  | pair {α β γ : Type} (left : Task R W β) (right : Task R W γ) (f : β → γ → R → Outcome α)
      (failure : Option Failure) (steps : Nat) : Task R W α

namespace Task

variable {R W α β γ : Type}

def outcome? : Task R W α → Option (Outcome α)
  | settled result => some result
  | chain _ _ (some e) | pair _ _ _ (some e) 0 => some (.error e)
  | chain _ _ none | pair .. | relay .. | asleep _ | listening _ | silent => none

/-- A chain above a task that has just been started or resumed: it has a job to do when the outcome
is known. -/
def above (child : Task R W β) (f : β → R → Work R W α) (path : Path) (q : Queue W) :
    Task R W α × Queue W :=
  (chain child f none, if child.outcome?.isSome then q.postJob path else q)

/-- A relay above a task that has just been resumed. A relay of a relay is one relay. -/
def passOn (child : Task R W α) (steps : Nat) (path : Path) (q : Queue W) :
    Task R W α × Queue W :=
  match child with
  | relay child more => (relay child (more + steps + 1), q)
  | child => (relay child steps, if child.outcome?.isSome then q.postJob path else q)

/-- A pair above two tasks of which at least one has just been started or resumed: it is decided by
the first side that has failed, or when both have answered. -/
def beside (left : Task R W β) (right : Task R W γ) (f : β → γ → R → Outcome α) (path : Path)
    (q : Queue W) : Task R W α × Queue W :=
  match left.outcome?, right.outcome? with
  | some (.error e), _ => (pair left right f (some e) 2, q.postJob path)
  | _, some (.error e) => (pair left right f (some e) 2, q.postJob path)
  | some (.ok _), some (.ok _) => (pair left right f none 2, q.postJob path)
  | _, _ => (pair left right f none 2, q)

def start {α : Type} : Work R W α → Path → Queue W → Task R W α × Queue W
  | .answer a, _, q => (settled (.ok a), q)
  | .reject e, _, q => (settled (.error e), q)
  | .delay t, _, q =>
    let (result, q) := q.perform t
    (settled result, q)
  | .fork w, path, q => (asleep w, q.postTurn (.resume path))
  | .callback register, path, q =>
    match q.perform register with
    | (.error e, q) => (settled (.error e), q)
    | (.ok ⟨a :: _, later⟩, q) => (settled (.ok a), q.postStrays later)
    | (.ok ⟨[], answer :: later⟩, q) =>
      (listening answer, (q.postTurn (.resume path)).postStrays later)
    | (.ok ⟨[], []⟩, q) => (silent, q)
  | .andThen w f, path, q =>
    let (child, q) := start w path q
    above child f path q
  | .both left right f, path, q =>
    let (left, q) := start left (path ++ [.left]) q
    let (right, q) := start right (path ++ [.right]) q
    beside left right f path q

/-- Goes on with the work that a continuation has chosen. A continuation that fails instead settles
the task at once. -/
def goOn (w : Work R W α) (path : Path) (q : Queue W) : Task R W α × Queue W :=
  match w with
  | .reject e => (settled (.error e), q)
  | w =>
    let (next, q) := start w path q
    if next.outcome?.isSome then (relay next 1, q.postJob path) else (relay next 0, q)

variable [View W R]

/-- Runs the place of a task at the path `rest`, which is the path `here ++ rest` from the root:
work that waits for its turn is started, a callback is called, and a chain, a relay or a pair does its
next job. -/
def visit {α : Type} (here : Path) : Task R W α → Path → Queue W → Task R W α × Queue W
  | asleep w, _, q => start w here q
  | listening answer, _, q =>
    let (result, q) := q.perform fun w => let (a, w) := answer w; (.ok a, w)
    (settled result, q)
  | chain child f none, rest, q =>
    match child.outcome?, rest with
    | some (.ok a), _ => goOn (f a (View.look q.world)) here q
    | some (.error e), [] => (chain child f (some e), q)
    | some (.error _), side :: rest =>
      let (child, q) := visit here child (side :: rest) q
      (chain child f none, q)
    | none, rest =>
      let (child, q) := visit here child rest q
      above child f here q
  | chain child f (some e), rest, q =>
    let (child, q) := visit here child rest q
    (chain child f (some e), q)
  | relay child steps, rest, q =>
    match child.outcome?, rest with
    | some _, [] =>
      match steps with
      | 0 => (child, q)
      | steps + 1 => (relay child steps, q.postJob here)
    | some _, side :: rest =>
      let (child, q) := visit here child (side :: rest) q
      (relay child steps, q)
    | none, rest =>
      let (child, q) := visit here child rest q
      passOn child steps here q
  | pair left right f failure steps, [], q =>
    match failure, steps with
    | failure, steps + 2 => (pair left right f failure (steps + 1), q.postJob here)
    | some e, _ => (pair left right f (some e) 0, q)
    | none, _ =>
      match left.outcome?, right.outcome? with
      | some (.ok a), some (.ok b) => (settled (f a b (View.look q.world)), q)
      | _, _ => (pair left right f none steps, q)
  | pair left right f failure steps, .left :: rest, q =>
    let (left, q) := visit (here ++ [.left]) left rest q
    if failure.isSome then (pair left right f failure steps, q) else beside left right f here q
  | pair left right f failure steps, .right :: rest, q =>
    let (right, q) := visit (here ++ [.right]) right rest q
    if failure.isSome then (pair left right f failure steps, q) else beside left right f here q
  | task, _, q => (task, q)

end Task

end Effectful
