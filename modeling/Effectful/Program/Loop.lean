import Effectful.Number.Length
import Effectful.Program.Basic
/-!
# Loops and folds

Programs made of programs, all built from `done` and `bind`. A fold calls its body for the first
item when it is built, and answers a failure of that call; the bodies of later items are built when
they are reached, and a failure then becomes a `raise` node. Endless loops take the greatest number
of rounds to make, and end in `outOfFuel` after them.
-/
namespace Effectful.Program

universe u

variable {R : Type} {F : Type → Type u} {α β T : Type}

/-- Runs a program for its effects alone. -/
def skip (p : Program R F α) : Program R F Unit := p.map fun _ => ()

/-- Runs two programs, left first, and answers both results. -/
def product (left : Program R F α) (right : Program R F β) : Program R F (α × β) :=
  bind left fun a _ => right.map fun b => (a, b)

/-- The left fold whose body is a program. -/
def fold (items : List T) (initial : β) (f : β → T → R → Outcome (Program R F β)) (r : R) :
    Outcome (Program R F β) :=
  match items with
  | [] => .ok (done initial)
  | item :: rest =>
    (f initial item r).map fun first => bind first fun acc r' => ofOutcome (fold rest acc f r')

/-- Runs a body for each item, in order. -/
def forEach (items : List T) (f : T → R → Outcome (Program R F α)) (r : R) :
    Outcome (Program R F Unit) :=
  fold items () (fun _ item r => (f item r).map skip) r

/-- Runs programs from left to right and appends their results to those collected so far. -/
def collect (results : List α) : List (Program R F α) → Program R F (List α)
  | [] => done results
  | p :: rest => bind (p.map fun a => results ++ [a]) fun results _ => collect results rest

/-- Runs programs from left to right and collects their results. -/
def all (programs : List (Program R F α)) : Program R F (List α) := collect [] programs

/-- Runs a program as often as a list of length `n` has items, and collects the results. -/
def replicate (n : Rat) (p : Program R F α) : Outcome (Program R F (List α)) :=
  (listLength n).map fun length => all (List.replicate length p)

/-- Runs a program for as long as a counter, which starts at `n` and goes down by one, is
positive. -/
def times (n : Rat) (p : Program R F α) : Program R F Unit :=
  if n ≤ 0 then done () else bind p fun _ _ => times (n - 1) p
termination_by n.ceil.toNat
decreasing_by
  have hpos : ¬ n.ceil ≤ 0 := by
    rw [Rat.ceil_le_iff]
    simpa using ‹¬ n ≤ 0›
  rw [Rat.ceil_sub_one]
  omega

/-- Repeats a program without end. -/
def forever (fuel : Nat) (p : Program R F α) : Program R F β :=
  match fuel with
  | 0 => raise .outOfFuel
  | fuel + 1 => bind p fun _ _ => forever fuel p

/-- Runs a program for as long as a counter, which starts at a double, is positive; `fuel` bounds the
rounds of a counter that always is. -/
def timesFloat (fuel : Nat) (x : Float) (p : Program R F α) : Program R F Unit :=
  match countdown? x with
  | some n => times n p
  | none => forever fuel p

def when (condition : Bool) (p : Program R F α) : Program R F Bool :=
  if condition then p.map fun _ => true else done false

/-- Repeats a program for as long as the condition on its result answers true. -/
def doWhile (fuel : Nat) (p : Program R F α) (condition : α → R → Program R F Bool) :
    Program R F Unit :=
  match fuel with
  | 0 => raise .outOfFuel
  | fuel + 1 =>
    bind p fun a r =>
      bind (condition a r) fun again _ => if again then doWhile fuel p condition else done ()

end Effectful.Program
