import Effectful.Proofs.Cell.History
import Effectful.Proofs.Program.Operations
import Effectful.Proofs.Routine.Expansion
import Effectful.Proofs.Work.Correspondence
/-!
# Programs that modify a cell

The programs of this module do with a cell nothing but modify it, beside any other effects that leave its content
alone. Each has a second reading, on a world with notes, that notes every read and every write of the cell and is
otherwise the same: with the notes left out, its runs are the runs of the program.
-/
namespace Effectful

variable {R W V E N α : Type}

namespace Action

def aside {X : Type} (t : W → X × W) (w : W × N) : X × W × N := ((t w.1).1,(t w.1).2,w.2)

def noting (note : α → E) (t : Action W α) : Action (W × List E) α := fun w =>
  match t w.1 with
  | (.ok a,v) => (.ok a,v,w.2 ++ [note a])
  | (.error e,v) => (.error e,v,w.2)

end Action

def Reply.aside : Reply W α → Reply (W × N) α
  | ⟨now,later⟩ => ⟨now,later.map Action.aside⟩

/-- The same work on a world with notes. It notes nothing. -/
def Work.aside {α : Type} : Work R W α → Work R (W × N) α
  | .answer a => .answer a
  | .reject e => .reject e
  | .delay t => .delay (Action.aside t)
  | .fork work => .fork (aside work)
  | .callback register =>
    .callback fun w => ((register w.1).1.map Reply.aside,(register w.1).2,w.2)
  | .andThen work f => .andThen (aside work) fun b r => aside (f b r)
  | .both left right f => .both (aside left) (aside right) f

variable [HasStore W V] (c : Cell)

variable (V) in
def Cell.KeptBy {X : Type} (t : W → X × W) : Prop :=
  ∀ w (x : V), c.content w = some x → c.content (t w).2 = some x

variable (V) in
/-- No action of the work changes the content of the cell. -/
def Work.Spares {α : Type} : Work R W α → Prop
  | .answer _ | .reject _ => True
  | .delay t => c.KeptBy V t
  | .fork work => Spares work
  | .callback register => c.KeptBy V register ∧
      ∀ w reply, (register w).1 = .ok reply → ∀ answer ∈ reply.later, c.KeptBy V answer
  | .andThen work f => Spares work ∧ ∀ b r, Spares (f b r)
  | .both left right _ => Spares left ∧ Spares right

theorem Work.spares_write [LawfulStore W V] {c : Cell} (c' : Cell) (hne : c' ≠ c) (y : V) :
    Work.Spares V c (.delay (c'.write y) : Work R W V) :=
  fun _ _ h => (Cell.content_write_ne hne y).trans h

variable (R W V) in
/-- What a program may do beside and with the cell. -/
inductive Cell.Use : Type → Type 1
  | modify (f : V → Outcome V) : Use V
  | other {α : Type} (work : Work R W α) (h : work.Spares V c) : Use α

namespace Cell.Use

variable {c}

def routine : c.Use R W V α → Routine R W α
  | modify f => c.modify fun x _ => f x
  | other work _ => .effect work

def noted (side : Side) (last : Bool) : c.Use R W V α → Routine R (W × List (Access V)) α
  | modify f => .bind (Routine.act (c.read.noting (.read side last f))) fun x _ =>
      .ofOutcome ((f x).map fun y => Routine.act ((c.write y).noting (.write side)))
  | other work _ => .effect work.aside

end Cell.Use

variable (V E) in
/-- A world with notes corresponds to the world in it; the notes and the content of the cell stay. -/
def Cell.keeping : Correspondence (W × List E) W where
  between w w' := w.1 = w'
  change w v := v.2 = w.2 ∧ ∀ x : V, c.content w.1 = some x → c.content v.1 = some x
  refl _ := ⟨rfl,fun _ h => h⟩
  trans h h' := ⟨h'.1.trans h.1,fun x hx => h'.2 x (h.2 x hx)⟩

variable {c}

attribute [local instance] View.first in
theorem Cell.look_keeping [View W R] (w : W × List E) (w' : W) (h : (c.keeping V E).between w w') :
    (View.look w : R) = View.look w' :=
  congrArg View.look h

theorem Cell.KeptBy.acts {X : Type} {t : W → X × W} (h : c.KeptBy V t) :
    (c.keeping V E).Acts Eq (Action.aside t) t := by
  rintro w _ rfl
  exact ⟨rfl,rfl,rfl,h w.1⟩

theorem Action.acts_noting (note : α → E) (t : Action W α) :
    (c.keeping V E).lax.Acts Eq (t.noting note) t := by
  rintro ⟨w,notes⟩ _ rfl
  simp only [noting]
  rcases t w with ⟨a | e,v⟩
  · exact ⟨rfl,rfl,trivial⟩
  · exact ⟨rfl,rfl,trivial⟩

theorem Work.Spares.related {work : Work R W α} (h : work.Spares V c) :
    work.aside.Related (c.keeping V E) work := by
  induction work with
  | answer a => exact .answer a
  | reject e => exact .reject e
  | delay t => exact .delay (Cell.KeptBy.acts h)
  | fork work ih => exact .fork (ih h)
  | callback register =>
    refine .callback ?_
    rintro w _ rfl
    refine ⟨?_,rfl,rfl,h.1 w.1⟩
    dsimp only
    rcases hx : (register w.1).1 with ⟨now,later⟩ | e
    · refine .ok now ?_
      rw [List.forall₂_map_left_iff,List.forall₂_same]
      exact fun answer hmem => (h.2 w.1 _ hx answer hmem).acts
    · exact .error e
  | andThen work f ih ihf => exact .andThen (ih h.1) fun b r => ihf b r (h.2 b r)
  | both left right f ihl ihr => exact .both (ihl h.1) (ihr h.2) f

namespace Program

def routine (p : Program R (c.Use R W V) α) : Routine R W α := p.expand (fun _ op => op.routine) true

/-- The routine of one side, with its accesses to the cell noted. -/
def noted (side : Side) (p : Program R (c.Use R W V) α) : Routine R (W × List (Access V)) α :=
  p.expand (fun last op => op.noted side last) true

/-- With the notes left out, the noted routine does what the routine does. -/
theorem related_noted (side : Side) (p : Program R (c.Use R W V) α) (r : R) :
    ((p.noted side).work r).Related (c.keeping V (Access V)).lax (p.routine.work r) := by
  refine work_expand (fun work work' => work.Related (c.keeping V (Access V)).lax work') .answer .reject
    (fun op r => ?_) (fun op _ _ hk r => ?_) p r
  · cases op with
    | modify f =>
      simp only [Cell.Use.noted,Cell.Use.routine,Cell.modify,Cell.get,Routine.act,Routine.work_bind_effect]
      refine .fork (.andThen (.delay (Action.acts_noting _ _)) fun x r => ?_)
      cases f x with
      | ok y =>
        simp only [Outcome.map_ok,ofOutcome,Cell.set,Routine.act,Routine.work_effect]
        exact .delay (Action.acts_noting _ _)
      | error e =>
        simp only [Outcome.map_error,ofOutcome,Routine.work_raise]
        exact .reject e
    | other work h =>
      simp only [Cell.Use.noted,Cell.Use.routine,Routine.work_effect]
      exact h.related.lax
  · cases op with
    | modify f =>
      simp only [Cell.Use.noted,Cell.Use.routine,Cell.modify,Cell.get,Routine.act,Routine.work_bind_bind,
        Routine.work_bind_effect]
      refine .fork (.andThen (.delay (Action.acts_noting _ _)) fun x r => ?_)
      cases f x with
      | ok y =>
        simp only [Outcome.map_ok,ofOutcome,Cell.set,Routine.act,Routine.work_bind_effect]
        exact .fork (.andThen (.delay (Action.acts_noting _ _)) hk)
      | error e =>
        simp only [Outcome.map_error,ofOutcome,Routine.work_bind_raise]
        exact .reject e
    | other work h =>
      simp only [Cell.Use.noted,Cell.Use.routine,Routine.work_bind_effect]
      exact .fork (.andThen h.related.lax hk)

end Program

end Effectful
