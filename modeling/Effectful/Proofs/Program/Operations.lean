import Effectful.Proofs.Program.Meaning
/-!
# The operations that are performed

Reading a program from left to right tells which of its operations are performed from a world, and in which
order. The world is left as these operations leave it one after another, and one that fails is the last.
-/
namespace Effectful

universe u

variable {R W : Type} {F : Type → Type u} {E : Type}

/-- Operations are performed one after another, from one world to another. The failure is that of the last. -/
inductive Translator.Performs (t : Translator F (Action W)) :
    List (Σ β : Type, F β) → W → Option Failure → W → Prop
  | nothing (w : W) : Performs t [] w none w
  | answered {β : Type} {op : F β} {b : β} {ops : List (Σ β : Type, F β)} {w w' v : W}
      {e : Option Failure} :
      t.perform op w = (.ok b, w') → Performs t ops w' e v → Performs t (⟨β,op⟩ :: ops) w e v
  | failed {β : Type} {op : F β} {w w' : W} {e : Failure} :
      t.perform op w = (.error e, w') → Performs t [⟨β,op⟩] w (some e) w'

theorem Translator.Performs.append {t : Translator F (Action W)} {ops ops' : List (Σ β : Type, F β)}
    {w w' v : W} {e : Option Failure} (h : t.Performs ops w none w') (h' : t.Performs ops' w' e v) :
    t.Performs (ops ++ ops') w e v := by
  generalize hnone : (none : Option Failure) = e' at h
  induction h with
  | nothing => exact h'
  | answered hop _ ih => exact .answered hop (ih h' hnone)
  | failed => cases hnone

theorem Translator.Performs.split {t : Translator F (Action W)} {ops rest : List (Σ β : Type, F β)}
    {op : Σ β : Type, F β} {w v : W} {e : Option Failure} (h : t.Performs (ops ++ op :: rest) w e v) :
    ∃ w', t.Performs ops w none w' ∧ t.Performs (op :: rest) w' e v := by
  induction ops generalizing w with
  | nil => exact ⟨w,.nothing w,h⟩
  | cons first ops ih =>
    generalize hall : first :: ops ++ op :: rest = all at h
    cases h with
    | nothing => cases hall
    | answered hop hrest =>
      cases hall
      obtain ⟨w',hops,hlast⟩ := ih hrest
      exact ⟨w',.answered hop hops,hlast⟩
    | failed => simp at hall

/-- The operations that a run performs, what it comes to, and the world that it leaves. -/
abbrev Trace (F : Type → Type u) (W α : Type) : Type (max 1 u) := List (Σ β : Type, F β) × Outcome α × W

namespace Trace

variable {α : Type}

def after (ops : List (Σ β : Type, F β)) (x : Trace F W α) : Trace F W α := (ops ++ x.1,x.2)

theorem after_nil (x : Trace F W α) : x.after [] = x := rfl

theorem after_after (ops ops' : List (Σ β : Type, F β)) (x : Trace F W α) :
    (x.after ops').after ops = x.after (ops ++ ops') :=
  Prod.ext (List.append_assoc ..).symm rfl

end Trace

/-- Reads operations as `t` does, and notes the label of each that is performed. -/
def Translator.noting (t : Translator F (Action W)) (label : {β : Type} → F β → E) :
    Translator F (Action (W × List E)) where
  apply op := (t.apply op).map fun action w => ((action w.1).1,(action w.1).2,w.2 ++ [label op])

@[reducible] def View.first (W E R : Type) [View W R] : View (W × List E) R := ⟨fun w => View.look w.1⟩

namespace Program

variable [View W R] (driver : String) (t : Translator F (Action W))

/-- The operations that are performed when a program is read from left to right. One that is refused is not. -/
def operations {α : Type} : Program R F α → W → List (Σ β : Type, F β)
  | done _, _ | malformed _, _ | raise _, _ => []
  | effect op, _ =>
    match t.apply op with
    | .ok _ => [⟨_,op⟩]
    | .error _ => []
  | bind sub k, w => operations sub w ++
    match eval driver t sub w with
    | (.ok b, w) => operations (k b (View.look w)) w
    | (.error _, _) => []

/-- What a program performs, and what it comes to, read from left to right. -/
def trace {α : Type} (p : Program R F α) (w : W) : Trace F W α := (p.operations driver t w,p.eval driver t w)

/-- A program performs its operations, and nothing after one that fails. -/
theorem performs_operations {α : Type} (p : Program R F α) (w : W) :
    ∃ e, t.Performs (p.operations driver t w) w e (p.eval driver t w).2 ∧
      ∀ f, e = some f → (p.eval driver t w).1 = .error f := by
  induction p generalizing w with
  | done | malformed | raise => exact ⟨none,.nothing w,nofun⟩
  | effect op =>
    cases hop : t.apply op with
    | error e =>
      simp only [operations,eval,Translator.perform,hop]
      exact ⟨none,.nothing w,nofun⟩
    | ok action =>
      have hperform : t.perform op w = action w := by simp only [Translator.perform,hop]
      simp only [operations,eval,hop,hperform]
      rcases hx : action w with ⟨a | e,v⟩
      · exact ⟨none,.answered (hperform.trans hx) (.nothing v),nofun⟩
      · exact ⟨some e,.failed (hperform.trans hx),fun f hf => by cases hf; rfl⟩
  | bind sub k ihs ihk =>
    obtain ⟨e,hsub,he⟩ := ihs w
    simp only [operations,eval,Action.andThen]
    rcases hx : eval driver t sub w with ⟨b | f,w'⟩ <;> rw [hx] at hsub he
    · obtain rfl : e = none := by
        cases e with
        | none => rfl
        | some f => cases he f rfl
      obtain ⟨e',hrest,he'⟩ := ihk b (View.look w') w'
      exact ⟨e',hsub.append hrest,he'⟩
    · simp only [List.append_nil]
      exact ⟨e,hsub,fun f' hf => by cases he f' hf; rfl⟩

section Trace

variable {driver t} {α β γ : Type} {w u : W} {ops : List (Σ β : Type, F β)}

theorem trace_done (a : α) (w : W) : trace driver t (done a : Program R F α) w = ([],.ok a,w) := rfl

theorem trace_raise (e : Failure) (w : W) : trace driver t (raise e : Program R F α) w = ([],.error e,w) := rfl

theorem trace_effect {op : F α} {action : Action W α} (h : t.apply op = .ok action) (w : W) :
    trace driver t (effect op : Program R F α) w = ([⟨α,op⟩],action w) := by
  simp only [trace,operations,eval,Translator.perform,h]

theorem trace_bind_of_ok {sub : Program R F β} {k : β → R → Program R F α} {b : β}
    (h : trace driver t sub w = (ops,.ok b,u)) :
    trace driver t (.bind sub k) w = (trace driver t (k b (View.look u)) u).after ops := by
  obtain ⟨rfl,hsub⟩ := Prod.mk.inj h
  simp only [trace,operations,eval,Action.andThen,hsub]
  rfl

theorem trace_bind_of_error {sub : Program R F β} {k : β → R → Program R F α} {e : Failure}
    (h : trace driver t sub w = (ops,.error e,u)) :
    trace driver t (.bind sub k) w = (ops,.error e,u) := by
  obtain ⟨rfl,hsub⟩ := Prod.mk.inj h
  simp only [trace,operations,eval,Action.andThen,hsub,List.append_nil]

theorem trace_bind_bind (y : Program R F γ) (g : γ → R → Program R F β) (k : β → R → Program R F α) (w : W) :
    trace driver t (.bind (.bind y g) k) w = trace driver t (.bind y fun c r => .bind (g c r) k) w := by
  rcases hy : trace driver t y w with ⟨ops,c | e,u⟩
  · rw [trace_bind_of_ok hy]
    rcases hg : trace driver t (g c (View.look u)) u with ⟨ops',b | e,v⟩
    · have hsub : trace driver t (.bind y g) w = (ops ++ ops',.ok b,v) := by rw [trace_bind_of_ok hy,hg]; rfl
      rw [trace_bind_of_ok hsub,trace_bind_of_ok hg,Trace.after_after]
    · have hsub : trace driver t (.bind y g) w = (ops ++ ops',.error e,v) := by rw [trace_bind_of_ok hy,hg]; rfl
      rw [trace_bind_of_error hsub,trace_bind_of_error hg]
      rfl
  · rw [trace_bind_of_error (trace_bind_of_error hy),trace_bind_of_error hy]

theorem trace_ofOutcome_bind_of_ok {x : Outcome (Program R F β)} {k : β → R → Program R F α} {b : β}
    (h : trace driver t (ofOutcome x) w = (ops,.ok b,u)) :
    trace driver t (ofOutcome (x.map fun p => .bind p k)) w = (trace driver t (k b (View.look u)) u).after ops := by
  cases x with
  | ok p => exact trace_bind_of_ok h
  | error e => cases (trace_raise e w).symm.trans h

theorem performs_of_trace {p : Program R F α} {a : α} (h : trace driver t p w = (ops,.ok a,u)) :
    t.Performs ops w none u := by
  obtain ⟨rfl,hmeaning⟩ := Prod.mk.inj h
  obtain ⟨e,hperforms,he⟩ := performs_operations driver t p w
  rw [hmeaning] at hperforms he
  cases e with
  | none => exact hperforms
  | some e => cases he e rfl

end Trace

attribute [local instance] View.first in
/-- With notes, a program does what it does without them, and the notes are the labels of its operations. -/
theorem eval_noting (label : {β : Type} → F β → E) {α : Type} (p : Program R F α) (w : W)
    (notes : List E) :
    p.eval driver (t.noting label) (w,notes) = ((p.eval driver t w).1,(p.eval driver t w).2,
      notes ++ (p.operations driver t w).map fun op => label op.2) := by
  induction p generalizing w notes with
  | done | malformed | raise => simp only [operations,List.map_nil,List.append_nil]; rfl
  | effect op =>
    cases hop : t.apply op with
    | error e => simp [operations,eval,Translator.perform,Translator.noting,hop]
    | ok action => simp [operations,eval,Translator.perform,Translator.noting,hop]
  | bind sub k ihs ihk =>
    simp only [operations,eval,Action.andThen,ihs]
    rcases hx : eval driver t sub w with ⟨b | f,w'⟩
    · simp only [ihk,List.map_append,List.append_assoc]
      rfl
    · simp only [List.append_nil]

end Program

end Effectful
