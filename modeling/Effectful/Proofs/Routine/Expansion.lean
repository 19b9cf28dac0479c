import Effectful.Routine.Basic
/-!
# Routines made of smaller ones

A program is written over operations of its own, each of which stands for a routine. The work that it stands for
is built operation by operation: what holds of each one, alone and below whatever comes after it, holds of the
whole, however the program nests its parts.
-/
namespace Effectful

universe u

variable {R W W' α β γ : Type}

/-- The work that a routine stands for; one that cannot be built is work that fails. -/
def Routine.work (p : Routine R W α) (r : R) : Work R W α := Work.ofOutcome (Work.ofProgram p r)

namespace Routine

variable (r : R)

@[simp] theorem work_done (a : α) : work (.done a : Routine R W α) r = .answer a := by
  unfold work Work.ofProgram Program.runIn
  rw [Program.interpret_done]
  rfl

@[simp] theorem work_effect (op : Work R W α) : work (.effect op : Routine R W α) r = op := by
  unfold work Work.ofProgram Program.runIn
  rw [Program.interpret_effect]
  rfl

@[simp] theorem work_raise (e : Failure) : work (.raise e : Routine R W α) r = .reject e := by
  unfold work Work.ofProgram Program.runIn
  rw [Program.interpret_raise]
  rfl

@[simp] theorem work_malformed (tag : String) :
    work (.malformed tag : Routine R W α) r =
      .reject (.ofReason (.invariantViolation "runFree" tag)) := by
  unfold work Work.ofProgram Program.runIn
  rw [Program.interpret_malformed]
  rfl

@[simp] theorem work_bind_done (b : β) (k : β → R → Routine R W α) :
    work (.bind (.done b) k) r = work (k b r) r := by
  unfold work Work.ofProgram Program.runIn
  rw [Program.interpret_bind_done]

@[simp] theorem work_bind_effect (op : Work R W β) (k : β → R → Routine R W α) :
    work (.bind (.effect op) k) r = .fork (.andThen op fun b r => work (k b r) r) := by
  unfold work Work.ofProgram Program.runIn
  rw [Program.interpret_bind_effect]
  rfl

@[simp] theorem work_bind_bind (p : Routine R W γ) (g : γ → R → Routine R W β)
    (k : β → R → Routine R W α) :
    work (.bind (.bind p g) k) r = work (.bind p fun c r => .bind (g c r) k) r := by
  unfold work Work.ofProgram Program.runIn
  rw [Program.interpret_bind_bind]

@[simp] theorem work_bind_malformed (tag : String) (k : β → R → Routine R W α) :
    work (.bind (.malformed tag) k) r = .reject (.ofReason (.invariantViolation "runFree" tag)) := by
  unfold work Work.ofProgram Program.runIn
  rw [Program.interpret_bind_malformed]
  rfl

@[simp] theorem work_bind_raise (e : Failure) (k : β → R → Routine R W α) :
    work (.bind (.raise e) k) r = .reject e := by
  unfold work Work.ofProgram Program.runIn
  rw [Program.interpret_bind_raise]
  rfl

end Routine

variable {F : Type → Type u}

/-- Puts a routine in the place of each operation. The routine may depend on whether the operation is the last
thing that the program does. -/
def Program.expand (g : {α : Type} → Bool → F α → Routine R W α) (last : Bool) {α : Type} :
    Program R F α → Routine R W α
  | .done a => .done a
  | .effect op => g last op
  | .bind sub k => .bind (expand g false sub) fun b r => expand g last (k b r)
  | .malformed tag => .malformed tag
  | .raise e => .raise e

variable {g : {α : Type} → Bool → F α → Routine R W α} {h : {α : Type} → Bool → F α → Routine R W' α}
  (M : {α : Type} → Work R W α → Work R W' α → Prop)

private theorem work_expand_below
    (hreject : ∀ {α : Type} (e : Failure), M (.reject e : Work R W α) (.reject e))
    (hbelow : ∀ {α β : Type} (op : F β) {k : β → R → Routine R W α} {l : β → R → Routine R W' α},
      (∀ b r, M ((k b r).work r) ((l b r).work r)) →
      ∀ r, M (Routine.work (.bind (g false op) k) r) (Routine.work (.bind (h false op) l) r))
    (p : Program R F β) {k : β → R → Routine R W α} {l : β → R → Routine R W' α}
    (hk : ∀ b r, M ((k b r).work r) ((l b r).work r)) (r : R) :
    M (Routine.work (.bind (p.expand g false) k) r) (Routine.work (.bind (p.expand h false) l) r) := by
  induction p generalizing α r with
  | done b =>
    simp only [Program.expand,Routine.work_bind_done]
    exact hk b r
  | effect op => exact hbelow op hk r
  | bind sub next ihs ihn =>
    simp only [Program.expand,Routine.work_bind_bind]
    exact ihs (fun b r => ihn b r hk r) r
  | malformed tag =>
    simp only [Program.expand,Routine.work_bind_malformed]
    exact hreject _
  | raise e =>
    simp only [Program.expand,Routine.work_bind_raise]
    exact hreject e

/-- Two expansions of a program stand for work in the relation `M` if the expansions of each operation do, alone
and below whatever comes after them. -/
theorem work_expand (hanswer : ∀ {α : Type} (a : α), M (.answer a : Work R W α) (.answer a))
    (hreject : ∀ {α : Type} (e : Failure), M (.reject e : Work R W α) (.reject e))
    (halone : ∀ {α : Type} (op : F α) (r : R), M ((g true op).work r) ((h true op).work r))
    (hbelow : ∀ {α β : Type} (op : F β) {k : β → R → Routine R W α} {l : β → R → Routine R W' α},
      (∀ b r, M ((k b r).work r) ((l b r).work r)) →
      ∀ r, M (Routine.work (.bind (g false op) k) r) (Routine.work (.bind (h false op) l) r))
    (p : Program R F α) (r : R) : M ((p.expand g true).work r) ((p.expand h true).work r) := by
  induction p generalizing r with
  | done a =>
    simp only [Program.expand,Routine.work_done]
    exact hanswer a
  | effect op => exact halone op r
  | bind sub next _ ihn => exact work_expand_below M hreject hbelow sub (fun b r => ihn b r r) r
  | malformed tag =>
    simp only [Program.expand,Routine.work_malformed]
    exact hreject _
  | raise e =>
    simp only [Program.expand,Routine.work_raise]
    exact hreject e

end Effectful
