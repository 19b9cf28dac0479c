import Effectful.Proofs.Program.Morphism
/-!
# Operations that stand for programs

An operation may stand for a longer program that comes to the same. Interpretation is a morphism into every target that
can be run, so such a program may take the place of the operation anywhere in a program.
-/
namespace Effectful

universe u v

/-- The second program is the first one, with `g op` in the place of some occurrences of its operations. -/
inductive Program.Replaced {R : Type} {F : Type → Type u} (g : {α : Type} → F α → Program R F α) :
    {α : Type} → Program R F α → Program R F α → Prop
  | refl {α : Type} (p : Program R F α) : Replaced g p p
  | effect {α : Type} (op : F α) : Replaced g (.effect op) (g op)
  | bind {α β : Type} {sub sub' : Program R F β} {k k' : β → R → Program R F α} :
      Replaced g sub sub' → (∀ b r, Replaced g (k b r) (k' b r)) → Replaced g (.bind sub k) (.bind sub' k')

theorem Action.conclude_eq_andThen {R W α β : Type} [View W R] (t : Action W α) (f : α → R → Outcome β) :
    t.conclude f = t.andThen fun a w => Action.ofOutcome (f a (View.look w)) w := by
  funext w
  unfold conclude andThen
  rcases t w with ⟨a | e,w'⟩
  · dsimp only
    cases f a (View.look w') <;> rfl
  · rfl

namespace Context.Runner

variable {R W I α β : Type} {F : Type → Type u} {G : Type → Type v} {O : Type → Type} [View W R] {c : Context R G}
  (P : c.Runner W I O) (driver : String) (t : Translator F G)

theorem interpreted_effect {t : Translator F G} {op : F α} {m : G α} (h : t.apply op = .ok m) (i : I) :
    P.interpreted driver t (.effect op) i = P.run m i := by
  funext w
  rw [interpreted,Program.interpret_effect,h]
  rfl

theorem interpreted_ofOutcome_done (x : Outcome α) (i : I) :
    P.interpreted driver t (.ofOutcome (x.map .done) : Program R F α) i =
      Action.ofOutcome (x.map fun a => P.pack a i) := by
  funext w
  unfold interpreted
  cases x with
  | ok a =>
    change runBuilt P.run (Program.interpret driver t c (.done a) _) i w = _
    rw [Program.interpret_done]
    exact congrFun (P.run_lift a i) w
  | error e =>
    change runBuilt P.run (Program.interpret driver t c (.raise e) _) i w = _
    rw [Program.interpret_raise]
    rfl

variable {driver t}

/-- Programs that stand for operations anywhere in a program make no difference to its runs, if each of them runs as
its operation. -/
theorem interpreted_replaced {g : {α : Type} → F α → Program R F α}
    (hop : ∀ {β : Type} (op : F β) (i : I), P.interpreted driver t (.effect op) i = P.interpreted driver t (g op) i)
    {p q : Program R F α} (h : p.Replaced g q) (i : I) :
    P.interpreted driver t p i = P.interpreted driver t q i := by
  induction h generalizing i with
  | refl p => rfl
  | effect op => exact hop op i
  | bind _ _ ihs ihk =>
    rw [interpreted_bind,interpreted_bind,ihs]
    simp only [ihk]

end Context.Runner

end Effectful
