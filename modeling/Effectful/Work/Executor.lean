import Effectful.Work.Task
/-!
# The executor

An executor holds one started work and its queues. It does the oldest job if there is one, and
otherwise takes the oldest turn that was asked for, until nothing is left to run; work that is still
running when the outcome is known runs to its end as well.
-/
namespace Effectful

/-- Started work with the world and the queues it runs on. -/
structure Executor (R W α : Type) : Type 1 where
  task : Task R W α
  queue : Queue W

namespace Executor

variable {R W α : Type} [View W R]

/-- Starts work: its synchronous part runs at once. -/
def start (work : Work R W α) (w : W) : Executor R W α :=
  let (task, queue) := Task.start work [] { world := w }
  ⟨task, queue⟩

/-- Changes the world from outside, between two runs of the executor. -/
def mapWorld (f : W → W) : Executor R W α → Executor R W α
  | ⟨task, { world, jobs, turns }⟩ => ⟨task, { world := f world, jobs, turns }⟩

def isIdle (e : Executor R W α) : Bool := e.queue.jobs.isEmpty && e.queue.turns.isEmpty

/-- Runs one job, or one turn if there is no job. -/
def advance : Executor R W α → Executor R W α
  | ⟨task, { world, jobs := path :: jobs, turns }⟩ =>
    let (task, queue) := task.visit [] path { world, jobs, turns }
    ⟨task, queue⟩
  | ⟨task, { world, jobs := [], turns := .resume path :: turns }⟩ =>
    let (task, queue) := task.visit [] path { world, turns }
    ⟨task, queue⟩
  | ⟨task, { world, jobs := [], turns := .stray effect :: turns }⟩ =>
    ⟨task, { world := effect world, turns }⟩
  | ⟨task, { world, jobs := [], turns := [] }⟩ => ⟨task, { world }⟩

/-- Runs until nothing is left to run, or until the given number of rounds is used up. -/
def drain (fuel : Nat) (e : Executor R W α) : Executor R W α :=
  match fuel with
  | 0 => e
  | fuel + 1 => if e.isIdle then e else drain fuel e.advance

/-- The outcome so far; work that has not settled counts as cut off. -/
def outcome (e : Executor R W α) : Outcome α := e.task.outcome?.getD (.error .outOfFuel)

end Executor

def Work.run {R W α : Type} [View W R] (fuel : Nat) (work : Work R W α) : Action W α := fun w =>
  let e := (Executor.start work w).drain fuel
  (e.outcome, e.queue.world)

end Effectful
