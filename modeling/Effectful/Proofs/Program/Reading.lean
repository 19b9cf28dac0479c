import Effectful.Proofs.Program.Operations
/-!
# Reading a program

To evaluate a program directly is to read it depth-first from the left: a part to its end, then what its
continuation makes of the answer. Where the answers come from is left open. They may be given in a list, come from
actions on a world, or from an executor that need not give one. A reading tells what it meets, and how it ends.
-/
namespace Effectful

universe u v

/-- Where answers come from: what an operation comes to in a state, if it comes to anything, and the state that is
left. The flag tells whether a continuation waits for the answer. -/
abbrev Source (S : Type v) (F : Type → Type u) : Type (max 1 u v) :=
  (β : Type) → F β → Bool → S → Option (Outcome β × S)

/-- What is met in a program: an operation, or a continuation that is applied to an answer. -/
inductive Met (R : Type) (F : Type → Type u) : Type → Type (max 1 u)
  | asked {β : Type} (op : F β) : Met R F β
  | applied {β γ : Type} (k : β → R → Program R F γ) (b : β) : Met R F Unit

/-- Why a program is not read to its end. -/
inductive Halt
  | unanswered
  /-- An operation failed. -/
  | failed (e : Failure)
  /-- A continuation failed. -/
  | raised (e : Failure)
  | malformed (tag : String)
deriving DecidableEq, Repr

def Halt.failure (driver : String) : Halt → Failure
  | unanswered => .outOfFuel
  | failed e | raised e => e
  | malformed tag => .ofReason (.invariantViolation driver tag)

def Halt.failure? : Halt → Option Failure
  | failed e => some e
  | unanswered | raised _ | malformed _ => none

variable {R W : Type} {F : Type → Type u} {S : Type v}

namespace Source

def list : Source (List ((β : Type) → F β → Option β)) F
  | _, _, _, [] => none
  | _, op, _, x :: xs => (x _ op).map fun b => (.ok b,xs)

def performing (t : Translator F (Action W)) : Source W F := fun _ op _ w => some (t.perform op w)

/-- How a reading goes on from what an operation has come to. -/
def outcome {β : Type} (x : Option (Outcome β × S)) (s : S) : Except Halt β × S :=
  match x with
  | some (.ok b,s) => (.ok b,s)
  | some (.error e,s) => (.error (.failed e),s)
  | none => (.error .unanswered,s)

def ask {β : Type} (source : Source S F) (op : F β) (waited : Bool) (s : S) : Except Halt β × S :=
  outcome (source _ op waited s) s

end Source

namespace Program

/-- Reads a program from a state, whose part that continuations observe is what `look` shows. -/
def reading (source : Source S F) (look : S → R) {α : Type} :
    Bool → Program R F α → S → List (Σ β : Type, Met R F β) × Except Halt α × S
  | _, done a, s => ([],.ok a,s)
  | waited, effect op, s => ([⟨_,.asked op⟩],source.ask op waited s)
  | waited, bind sub k, s =>
    match reading source look true sub s with
    | (met,.ok b,s) =>
      match reading source look waited (k b (look s)) s with
      | (met',x) => (met ++ ⟨_,.applied k b⟩ :: met',x)
    | (met,.error halt,s) => (met,.error halt,s)
  | _, malformed tag, s => ([],.error (.malformed tag),s)
  | _, raise e, s => ([],.error (.raised e),s)

def asked (met : List (Σ β : Type, Met R F β)) : List (Σ β : Type, F β) :=
  met.filterMap fun
    | ⟨_,.asked op⟩ => some ⟨_,op⟩
    | ⟨_,.applied ..⟩ => none

def report {α : Type} (driver : String) : Except Halt α → Outcome α
  | .ok a => .ok a
  | .error halt => .error (halt.failure driver)

/-- The meaning of a program is what its reading comes to. -/
theorem eval_eq_reading [View W R] (driver : String) (t : Translator F (Action W)) (waited : Bool) {α : Type}
    (p : Program R F α) (w : W) :
    p.eval driver t w =
      (report driver (reading (Source.performing t) View.look waited p w).2.1,
        (reading (Source.performing t) View.look waited p w).2.2) := by
  induction p generalizing waited w with
  | done | malformed | raise => rfl
  | effect op =>
    simp only [eval,reading,Source.ask,Source.performing]
    rcases t.perform op w with ⟨a | e,w'⟩ <;> rfl
  | bind sub k ihs ihk =>
    simp only [eval,reading,Action.andThen]
    rw [ihs true w]
    rcases reading (Source.performing t) View.look true sub w with ⟨met,halt | b,w'⟩
    · rfl
    · exact ihk b (View.look w') waited w'

/-- The failure of the last operation, if that is how a reading ends. -/
def failure? {α : Type} : Except Halt α → Option Failure
  | .ok _ => none
  | .error halt => halt.failure?

/-- The operations that are met are performed in their order, each of them once. -/
theorem performs_reading (t : Translator F (Action W)) (look : W → R) (waited : Bool) {α : Type}
    (p : Program R F α) (w : W) :
    t.Performs (asked (reading (Source.performing t) look waited p w).1) w
      (failure? (reading (Source.performing t) look waited p w).2.1)
      (reading (Source.performing t) look waited p w).2.2 := by
  induction p generalizing waited w with
  | done | malformed | raise => exact .nothing w
  | effect op =>
    simp only [reading,Source.ask,Source.performing]
    rcases hop : t.perform op w with ⟨a | e,w'⟩
    · exact .answered hop (.nothing w')
    · exact .failed hop
  | bind sub k ihs ihk =>
    have hsub := ihs true w
    simp only [reading]
    rcases hx : reading (Source.performing t) look true sub w with ⟨met,halt | b,w'⟩ <;> rw [hx] at hsub
    · exact hsub
    · have hrest := ihk b (look w') waited w'
      rcases reading (Source.performing t) look waited (k b (look w')) w' with ⟨met',x⟩
      simp only [asked,List.filterMap_append,List.filterMap_cons]
      exact hsub.append hrest

theorem reading_alike {V : Type} {t : Translator F (Action W)} {t' : Translator F (Action V)} {look : W → R}
    {look' : V → R} {rel : W → V → Prop} (hlook : ∀ w v, rel w v → look w = look' v)
    (hop : ∀ {β : Type} (op : F β) w v, rel w v →
      (t.perform op w).1 = (t'.perform op v).1 ∧ rel (t.perform op w).2 (t'.perform op v).2)
    {α : Type} (waited : Bool) (p : Program R F α) {w : W} {v : V} (h : rel w v) :
    let x := reading (Source.performing t) look waited p w
    let y := reading (Source.performing t') look' waited p v
    x.1 = y.1 ∧ x.2.1 = y.2.1 ∧ rel x.2.2 y.2.2 := by
  induction p generalizing waited w v with
  | done | malformed | raise => exact ⟨rfl,rfl,h⟩
  | effect op =>
    obtain ⟨hends,hrel⟩ := hop op w v h
    simp only [reading,Source.ask,Source.performing]
    rcases hx : t.perform op w with ⟨a | e,w'⟩ <;> rcases hy : t'.perform op v with ⟨a' | e',v'⟩ <;>
      rw [hx,hy] at hends hrel <;> cases hends <;> exact ⟨trivial,rfl,hrel⟩
  | bind sub k ihs ihk =>
    obtain ⟨hmet,hends,hrel⟩ := ihs true h
    simp only [reading]
    rcases hx : reading (Source.performing t) look true sub w with ⟨met,halt | b,w'⟩ <;>
      rcases hy : reading (Source.performing t') look' true sub v with ⟨met',halt' | b',v'⟩ <;>
      rw [hx,hy] at hmet hends hrel <;> cases hends
    · exact ⟨hmet,rfl,hrel⟩
    · obtain rfl : met = met' := hmet
      obtain ⟨hmet',hends',hrel'⟩ := ihk b (look w') waited hrel
      dsimp only at hmet' hends' hrel' ⊢
      rw [hlook w' v' hrel] at hmet' hends' hrel' ⊢
      exact ⟨by rw [hmet'],hends',hrel'⟩

end Program

end Effectful
