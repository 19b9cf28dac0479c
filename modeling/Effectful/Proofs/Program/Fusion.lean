import Effectful.Proofs.Program.Operations
import Effectful.Proofs.Target.Agreement
/-!
# Translation before interpretation

To replace the vocabulary of a program and to interpret the result is to interpret the program by both readings,
one after the other, in any target. Translation is lazy: it reads the operation in front now, and the rest when
the answer is known. It nevertheless reads every operation once, and in the order in which it is performed.
-/
namespace Effectful

universe u v w

theorem Translator.andThen_id {F : Type → Type u} {G : Type → Type v} (t : Translator F G) :
    t.andThen Translator.id = t := by
  obtain ⟨apply⟩ := t
  unfold andThen
  congr 1
  funext β op
  dsimp only
  cases apply op <;> rfl

namespace Program

variable {R : Type} {F : Type → Type u} {G : Type → Type v} {H : Type → Type w} {α : Type}

/-- What comes of translating first and interpreting then is built in the same way, call by call, from the target's
lifting and chaining, for which no law is assumed. -/
theorem interpret_translate (driver : String) (t : Translator F G) (u : Translator G H) (c : Context R H)
    {p : Program R F α} (hp : p.WellFormed) (r : R) :
    ((p.translate t r).andThen fun q => q.interpret driver u c r) =
      p.interpret driver (t.andThen u) c r := by
  unfold translate
  induction p using induct_next generalizing r with
  | done a => rw [interpret_done,interpret_done]; exact interpret_done driver u c r a
  | effect op =>
    rw [interpret_effect,interpret_effect]
    simp only [Translator.andThen]
    cases t.apply op with
    | error e => rfl
    | ok op' => exact interpret_effect driver u c r op'
  | malformed tag => exact hp.elim
  | raise e => rw [interpret_raise,interpret_raise]; rfl
  | bind_done a k ih =>
    rw [interpret_bind_done,interpret_bind_done]
    exact ih r (hp.2 a r) r
  | bind_effect op k ih =>
    rw [interpret_bind_effect,interpret_bind_effect]
    simp only [Translator.andThen]
    cases t.apply op with
    | error e => rfl
    | ok op' =>
      refine (interpret_bind_effect driver u c r op' _).trans ?_
      refine congrArg (Outcome.map · (u.apply op')) (funext fun first => ?_)
      refine congrArg (c.sequence first) (funext fun a => funext fun r' => ?_)
      rw [interpret_ofOutcome]
      exact ih a r' (hp.2 a r') r'
  | bind_bind y g k ih =>
    rw [interpret_bind_bind,interpret_bind_bind]
    exact ih ⟨hp.1.1,fun a r' => ⟨hp.1.2 a r',hp.2⟩⟩ r
  | bind_malformed tag k => exact hp.1.elim
  | bind_raise e k => rw [interpret_bind_raise,interpret_bind_raise]; rfl

theorem translate_translate (t : Translator F G) (u : Translator G H) {p : Program R F α}
    (hp : p.WellFormed) (r : R) :
    ((p.translate t r).andThen fun q => q.translate u r) = p.translate (t.andThen u) r := by
  have hreadings : t.andThen ⟨fun op => (u.apply op).map effect⟩ =
      (⟨fun op => ((t.andThen u).apply op).map effect⟩ : Translator F (Program R H)) := by
    unfold Translator.andThen
    congr 1
    funext β op
    dsimp only
    cases t.apply op <;> rfl
  refine (interpret_translate "translate" t _ context hp r).trans ?_
  rw [hreadings]
  rfl

section Running

variable {W : Type} [View W R] (driver : String)

theorem execute_eq_run (t : Translator F (Action W)) (p : Program R F α) (w : W) :
    p.execute driver t w =
      runBuilt (Target.performing R W).run (p.interpret driver t (Target.immediate R W) (View.look w)) ()
        w := by
  have hop : ∀ {β : Type} (op : F β) w,
      runBuilt (Target.performing R W).run (t.apply op) () w = t.perform op w := by
    intro β op w
    unfold Translator.perform
    cases t.apply op <;> rfl
  rw [execute_eq_eval,(Target.performing R W).interpret_eq_eval (fun _ => rfl) driver t t hop]

theorem execute_translate (t : Translator F G) (u : Translator G (Action W)) {p : Program R F α}
    (hp : p.WellFormed) (w : W) :
    (ofOutcome (p.translate t (View.look w))).execute driver u w = p.execute driver (t.andThen u) w := by
  rw [execute_eq_run,execute_eq_run,interpret_ofOutcome,interpret_translate driver t u _ hp]

end Running

section Notes

attribute [local instance] View.first

/-- Translation fuses with interpretation. To translate a program and to interpret what comes of it is to interpret
the program by both readings, in any target and with any refusals; two translations are one; a translation that
changes no operation is not seen by any interpreter; and with a reading that notes every operation, running the
translated program notes the operations that the program performs, each once and in their order, and does nothing
else besides. -/
theorem translate_fuses {p : Program R F α} (hp : p.WellFormed) :
    (∀ {G : Type → Type v} {H : Type → Type w} (t : Translator F G) (u : Translator G H) (c : Context R H)
        (r : R),
      ((p.translate t r).andThen fun q => q.runIn u c r) = p.runIn (t.andThen u) c r) ∧
      (∀ {G : Type → Type v} {H : Type → Type w} (t : Translator F G) (u : Translator G H) (r : R),
        ((p.translate t r).andThen fun q => q.translate u r) = p.translate (t.andThen u) r) ∧
      (∀ {G : Type → Type v} (driver : String) (t : Translator F G) (c : Context R G) (r : R),
        ((p.translate Translator.id r).andThen fun q => q.interpret driver t c r) =
          p.interpret driver t c r) ∧
      ∀ {W E : Type} [View W R] (driver : String) (t : Translator F (Action W)) (w : W),
        (ofOutcome (p.translate Translator.id (View.look w))).execute driver t w = p.execute driver t w ∧
        ∀ (label : {β : Type} → F β → E) (notes : List E),
          (ofOutcome (p.translate (t.noting label) (View.look w))).execute driver Translator.id (w,notes) =
            ((p.execute driver t w).1,(p.execute driver t w).2,
              notes ++ (p.operations driver t w).map fun op => label op.2) := by
  refine ⟨fun t u c r => interpret_translate "runFree" t u c hp r,
    fun t u r => translate_translate t u hp r,
    fun driver t c r => interpret_translate driver Translator.id t c hp r,
    fun driver t w => ⟨execute_translate driver Translator.id t hp w,fun label notes => ?_⟩⟩
  have hrun := execute_translate driver (t.noting label) Translator.id hp (w,notes)
  rw [Translator.andThen_id] at hrun
  refine hrun.trans ?_
  rw [execute_eq_eval,eval_noting,execute_eq_eval]

/-- Three effects nested to the left, each of which is noted once. -/
theorem translate_fuses_log :
    let say (s : String) : Action (List String) Unit := fun log => (.ok (),log ++ [s])
    let p : Computation Unit (List String) Unit :=
      bind (bind (effect (say "a")) fun _ _ => effect (say "b")) fun _ _ => effect (say "c")
    p.WellFormed ∧
      (ofOutcome (p.translate (Translator.id.noting fun _ => "noted") ())).execute "runTrampoline"
        Translator.id ([],[]) = (.ok (),["a","b","c"],["noted","noted","noted"]) := by
  intro say p
  have hp : p.WellFormed := ⟨⟨trivial,fun _ _ => trivial⟩,fun _ _ => trivial⟩
  obtain ⟨-,-,-,hrun⟩ := translate_fuses.{0,0,0} hp
  have hnotes := (hrun "runTrampoline" Translator.id []).2 (fun _ => "noted") []
  refine ⟨hp,hnotes.trans ?_⟩
  rw [execute_eq_eval]
  rfl

end Notes

end Program

end Effectful
