import Effectful.Proofs.Target.Runner
/-!
# Interpreters that agree

An interpretation and a direct reading of the same program may live in different worlds. They agree on every
program if they agree on every operation.
-/
namespace Effectful

universe u v

theorem Work.eval_ofOutcome {R W α : Type} [View W R] (x : Outcome (Work R W α)) (w : W) :
    (Work.ofOutcome x).eval w = runBuilt (Work.reading R W).run x () w := by
  cases x <;> rfl

namespace Context.Runner

variable {R W V I : Type} {G : Type → Type v} {O : Type → Type} [View W R] [View V R]
  {c : Context R G}

/-- Two runs from the input `i` come to the same answer with what follows related by `live`, or to the same
failure in worlds related by `dead`. -/
def Agrees (P : c.Runner W I O) (live : I → W → V → Prop) (dead : W → V → Prop) (i : I) {α : Type} :
    Outcome (O α) × W → Outcome α × V → Prop
  | (.ok o,w), (.ok a,v) => (P.next o i).1 = a ∧ live (P.next o i).2 w v
  | (.error e,w), (.error e',v) => e = e' ∧ dead w v
  | _, _ => False

variable {F : Type → Type u} (P : c.Runner W I O) {live : I → W → V → Prop} {dead : W → V → Prop}
  {t : Translator F G} {t' : Translator F (Action V)}

/-- Agreement on the operations is agreement on the programs. -/
theorem interpret_agrees (driver : String)
    (hlook : ∀ i w v, live i w v → (View.look w : R) = View.look v)
    (hdead : ∀ i w v, live i w v → dead w v)
    (hop : ∀ {β : Type} (op : F β) i w v, live i w v →
      P.Agrees live dead i (runBuilt P.run (t.apply op) i w) (t'.perform op v))
    {α : Type} (p : Program R F α) (i : I) (w : W) (v : V) (h : live i w v) :
    P.Agrees live dead i (runBuilt P.run (p.interpret driver t c (View.look w)) i w)
      (p.eval driver t' v) := by
  induction p using Program.induct_next generalizing i w v with
  | done a =>
    rw [Program.interpret_done]
    simp only [runBuilt,P.run_lift,Program.eval,Action.answer,Agrees,P.next_pack]
    exact ⟨trivial,h⟩
  | effect op =>
    rw [Program.interpret_effect]
    exact hop op i w v h
  | malformed tag =>
    rw [Program.interpret_malformed]
    exact ⟨rfl,hdead i w v h⟩
  | raise e =>
    rw [Program.interpret_raise]
    exact ⟨rfl,hdead i w v h⟩
  | bind_done a k ih =>
    rw [Program.interpret_bind_done]
    simp only [Program.eval,Action.answer_andThen,← hlook i w v h]
    exact ih (View.look w) i w v h
  | bind_effect op k ih =>
    have hfirst := hop op i w v h
    rw [Program.interpret_bind_effect]
    simp only [Program.eval,Action.andThen]
    cases hm : t.apply op with
    | error e =>
      simp only [hm,runBuilt,Action.fail] at hfirst
      simp only [Outcome.map_error,runBuilt,Action.fail]
      rcases hv : t'.perform op v with ⟨a | e',v'⟩
      · rw [hv] at hfirst
        exact hfirst.elim
      · rwa [hv] at hfirst
    | ok m =>
      simp only [hm,runBuilt] at hfirst
      simp only [Outcome.map_ok,runBuilt,P.run_sequence,Action.andThen]
      rcases hw : P.run m i w with ⟨o | e,w'⟩ <;> rcases hv : t'.perform op v with ⟨a | e',v'⟩ <;>
        rw [hw,hv] at hfirst
      · -- The rest runs from what the operation left, which reads outputs as the input `i` does.
        obtain ⟨rfl,hlive⟩ := hfirst
        have hrest := ih (P.next o i).1 (View.look w') (P.next o i).2 w' v' hlive
        dsimp only
        rw [← hlook _ _ _ hlive]
        unfold Agrees at hrest ⊢
        simp only [P.next_next] at hrest
        exact hrest
      · exact hfirst.elim
      · exact hfirst.elim
      · exact hfirst
  | bind_bind y g k ih =>
    rw [Program.interpret_bind_bind,Program.eval_bind_bind]
    exact ih i w v h
  | bind_malformed tag k =>
    rw [Program.interpret_bind_malformed]
    exact ⟨rfl,hdead i w v h⟩
  | bind_raise e k =>
    rw [Program.interpret_bind_raise]
    exact ⟨rfl,hdead i w v h⟩

theorem interpret_alike {W V : Type} [View W R] [View V R] (P : c.Runner W Unit fun α => α)
    (hP : ∀ {α : Type} (a : α), (P.next a ()).1 = a) {t : Translator F G}
    {t' : Translator F (Action V)} {rel : W → V → Prop} (driver : String)
    (hlook : ∀ w v, rel w v → (View.look w : R) = View.look v)
    (hop : ∀ {β : Type} (op : F β) w v, rel w v →
      (runBuilt P.run (t.apply op) () w).1 = (t'.perform op v).1 ∧
        rel (runBuilt P.run (t.apply op) () w).2 (t'.perform op v).2)
    {α : Type} (p : Program R F α) (w : W) (v : V) (h : rel w v) :
    (runBuilt P.run (p.interpret driver t c (View.look w)) () w).1 = (p.eval driver t' v).1 ∧
      rel (runBuilt P.run (p.interpret driver t c (View.look w)) () w).2 (p.eval driver t' v).2 := by
  have hiff : ∀ {β : Type} (x : Outcome β × W) (y : Outcome β × V),
      P.Agrees (fun _ => rel) rel () x y ↔ x.1 = y.1 ∧ rel x.2 y.2 := by
    rintro β ⟨a | e,w⟩ ⟨a' | e',v⟩
    · simp only [Agrees,hP,Outcome.ok.injEq]
    · simp [Agrees]
    · simp [Agrees]
    · simp only [Agrees,Outcome.error.injEq]
  rw [← hiff]
  exact P.interpret_agrees driver (fun _ => hlook) (fun _ _ _ h => h)
    (fun op _ w v h => (hiff _ _).mpr (hop op w v h)) p () w v h

theorem interpret_eq_eval (P : c.Runner W Unit fun α => α)
    (hP : ∀ {α : Type} (a : α), (P.next a ()).1 = a) (driver : String) (t : Translator F G)
    (t' : Translator F (Action W))
    (hop : ∀ {β : Type} (op : F β) w, runBuilt P.run (t.apply op) () w = t'.perform op w)
    {α : Type} (p : Program R F α) (w : W) :
    runBuilt P.run (p.interpret driver t c (View.look w)) () w = p.eval driver t' w := by
  have hsame : ∀ {β : Type} (op : F β) w v, w = v →
      (runBuilt P.run (t.apply op) () w).1 = (t'.perform op v).1 ∧
        (runBuilt P.run (t.apply op) () w).2 = (t'.perform op v).2 := by
    rintro β op w _ rfl
    rw [hop]
    exact ⟨rfl,rfl⟩
  obtain ⟨hanswer,hworld⟩ := P.interpret_alike hP driver (fun _ _ h => congrArg View.look h) hsame p w w rfl
  exact Prod.ext hanswer hworld

end Context.Runner

end Effectful
