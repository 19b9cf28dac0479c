import Effectful.Program.Reduction
/-!
# Interpretation

A program is interpreted in a target by a reading of its operations there and by the target's own
way of chaining. Interpretation reduces the program to its first operation, and interprets the rest when
the target hands over the answer, so it never runs ahead of the effects. Replacing the vocabulary of
a program is the interpretation whose target is programs again.
-/
namespace Effectful

universe u v w

/-- A reading of every operation of `F` in the target `G`, which may refuse an operation. -/
structure Translator (F : Type → Type u) (G : Type → Type v) where
  apply : {α : Type} → F α → Outcome (G α)

namespace Translator

variable {F : Type → Type u} {G : Type → Type v} {H : Type → Type w}

/-- Leaves each operation as it is. -/
protected def id : Translator F F := ⟨.ok⟩

/-- Reads an operation by `t`, and what comes of it by `u`. -/
def andThen (t : Translator F G) (u : Translator G H) : Translator F H :=
  ⟨fun op => (t.apply op).andThen u.apply⟩

end Translator

/-- A target of interpretation: its name, its finished values, and its way of chaining, whose
continuation may fail. -/
structure Context (R : Type) (G : Type → Type v) where
  name : String
  lift : {α : Type} → α → G α
  sequence : {α β : Type} → G α → (α → R → Outcome (G β)) → G β

namespace Program

variable {R : Type} {F : Type → Type u} {G : Type → Type v} {α : Type}

/-- Interprets a program, seen from the world `r`, in the target of `context`. A malformed node that
is met left of a bind is reported under the interpreter's own name, `driver`. A bare one would be
interpreted as nothing at all; this is not described, and that it is reported likewise is a
convention. -/
def interpret (driver : String) (translator : Translator F G) (context : Context R G)
    (p : Program R F α) (r : R) : Outcome (G α) :=
  match _h : head r p with
  | .error e => .error e
  | .ok (.done a) => .ok (context.lift a)
  | .ok (.effect op) => translator.apply op
  | .ok (.next op k) =>
    (translator.apply op).map fun first =>
      context.sequence first fun a r' => interpret driver translator context (k a r') r'
  | .ok (.stuck tag _) | .ok (.malformed tag) =>
    .error (.ofReason (.invariantViolation driver tag))
termination_by p
decreasing_by exact reached_of_head_eq_next _h a r'

section Equations

variable {β γ : Type} (driver : String) (t : Translator F G) (c : Context R G) (r : R)

@[simp] theorem interpret_done (a : α) :
    interpret driver t c (done a : Program R F α) r = .ok (c.lift a) := by
  rw [interpret, head_done]

@[simp] theorem interpret_effect (op : F α) : interpret driver t c (effect op) r = t.apply op := by
  rw [interpret, head_effect]

@[simp] theorem interpret_malformed (tag : String) :
    interpret driver t c (malformed tag : Program R F α) r =
      .error (.ofReason (.invariantViolation driver tag)) := by
  rw [interpret, head_malformed]

@[simp] theorem interpret_raise (e : Failure) :
    interpret driver t c (raise e : Program R F α) r = .error e := by
  rw [interpret, head_raise]

/-- A finished part hands its answer on at once. -/
@[simp] theorem interpret_bind_done (a : β) (k : β → R → Program R F α) :
    interpret driver t c (bind (done a) k) r = interpret driver t c (k a r) r := by
  rw [interpret, head_bind_done, ← interpret]

@[simp] theorem interpret_bind_effect (op : F β) (k : β → R → Program R F α) :
    interpret driver t c (bind (effect op) k) r =
      (t.apply op).map fun first =>
        c.sequence first fun a r' => interpret driver t c (k a r') r' := by
  rw [interpret, head_bind_effect]

/-- The nesting of binds is not seen by the target. -/
@[simp] theorem interpret_bind_bind (y : Program R F γ) (g : γ → R → Program R F β)
    (k : β → R → Program R F α) :
    interpret driver t c (bind (bind y g) k) r =
      interpret driver t c (bind y fun a r => bind (g a r) k) r := by
  rw [interpret, head_bind_bind, ← interpret]

@[simp] theorem interpret_bind_malformed (tag : String) (k : β → R → Program R F α) :
    interpret driver t c (bind (malformed tag) k) r =
      .error (.ofReason (.invariantViolation driver tag)) := by
  rw [interpret, head_bind_malformed]

@[simp] theorem interpret_bind_raise (e : Failure) (k : β → R → Program R F α) :
    interpret driver t c (bind (raise e) k) r = .error e := by
  rw [interpret, head_bind_raise]

/-- A failure to build a program is a failure to interpret it. -/
theorem interpret_ofOutcome (x : Outcome (Program R F α)) :
    interpret driver t c (ofOutcome x) r = x.andThen fun p => interpret driver t c p r := by
  cases x with
  | ok p => rfl
  | error e => exact interpret_raise driver t c r e

end Equations

/-- Programs as a target: chaining is `bind`. -/
def context : Context R (Program R F) where
  name := "Free"
  lift := done
  sequence p k := bind p fun a r => ofOutcome (k a r)

/-- Interprets a program in a target, under the common name of all such runs. -/
def runIn (translator : Translator F G) (context : Context R G) (p : Program R F α) (r : R) :
    Outcome (G α) :=
  interpret "runFree" translator context p r

/-- Replaces the vocabulary of a program, one operation at a time. -/
def translate (translator : Translator F G) (p : Program R F α) (r : R) : Outcome (Program R G α) :=
  interpret "translate" ⟨fun op => (translator.apply op).map effect⟩ context p r

end Program

end Effectful
