import Effectful.Proofs.Computation.Runners
import Effectful.Proofs.Routine.Awaiting
/-!
# Malformed nodes

An interpreter reports a malformed node when it meets it: while it builds, if no operation stands before the node,
and else while what it has built is run. It has performed the operations before the node then, and looks at nothing
that follows. So whether it comes to a violation, and after what, is told by the reading of the program.
-/
namespace Effectful

open Program

universe u v w

def violation (driver tag : String) : Failure := .ofReason (.invariantViolation driver tag)

theorem violation_isFatal (driver tag : String) :
    ∃ s : SystemError, violation driver tag = .system s ∧ s.isFatal = true := ⟨_,rfl,rfl⟩

theorem Source.ask_ne_malformed {F : Type → Type u} {S : Type w} {β : Type} (source : Source S F) (op : F β)
    (waited : Bool) (s : S) (tag : String) : (source.ask op waited s).1 ≠ .error (.malformed tag) := by
  unfold Source.ask Source.outcome
  rcases source β op waited s with _ | ⟨b | e,s'⟩ <;> simp

namespace Program

variable {R W : Type} {F : Type → Type u} {G : Type → Type v} {α : Type}

/-- A violation is reported at a malformed node, or it is the failure of an operation or of a continuation. -/
theorem report_eq_violation_iff {x : Except Halt α} {driver tag : String} :
    report driver x = .error (violation driver tag) ↔
      x = .error (.malformed tag) ∨ x = .error (.failed (violation driver tag)) ∨
        x = .error (.raised (violation driver tag)) := by
  obtain (halt | a) := x
  · cases halt with
    | unanswered => simp [report,Halt.failure,violation,Failure.ofReason]
    | failed | raised => simp [report,Halt.failure]
    | malformed tag' =>
      constructor
      · intro h
        have hreason : Failure.ofReason (.invariantViolation driver tag') =
            .ofReason (.invariantViolation driver tag) := Outcome.error.inj h
        simp only [Failure.ofReason] at hreason
        cases hreason
        exact .inl rfl
      · rintro (h | h | h) <;> cases h
        rfl
  · simp [report]

section Building

variable {S : Type w} (source : Source S F) (look : S → R) (driver : String) (t : Translator F G)
  (c : Context R G) (p : Program R F α) (s : S)

theorem reading_ne_malformed {p : Program R F α} (hp : p.WellFormed) (waited : Bool) (s : S) (tag : String) :
    (reading source look waited p s).2.1 ≠ .error (.malformed tag) := by
  intro h
  induction p generalizing waited s with
  | done | raise => cases h
  | malformed => exact hp
  | effect op => exact source.ask_ne_malformed op waited s tag h
  | bind sub k ihs ihk =>
    have hsub := ihs hp.1 true s
    simp only [reading] at h
    rcases hx : reading source look true sub s with ⟨met,halt | b,s'⟩ <;> rw [hx] at h hsub
    · cases h
      exact hsub rfl
    · exact ihk b (look s') (hp.2 b (look s')) waited s' h

theorem interpret_of_asked_nil (h : asked (reading source look false p s).1 = []) :
    p.interpret driver t c (look s) = (report driver (reading source look false p s).2.1).map c.lift := by
  have hreading := exposures_eq_reading source look p s
  have hops : (exposures source look p s).1 = [] := (congrArg Prod.fst hreading).trans h
  rw [← congrArg (·.2.1) hreading]
  rcases hhead : head (look s) p with front | e <;> rw [exposures,hhead] at hops ⊢ <;> rw [interpret,hhead]
  · cases front with
    | next op k =>
      dsimp only at hops
      rcases hask : source.ask op true s with ⟨halt | b,s'⟩ <;> rw [hask] at hops <;> cases hops
    | effect op => cases hops
    | done a => rfl
    | stuck tag k => rfl
    | malformed tag => rfl
  · rfl

theorem interpret_of_asked_cons {op : Σ β : Type, F β} {ops : List (Σ β : Type, F β)}
    (h : asked (reading source look false p s).1 = op :: ops) (e : Failure) :
    p.interpret driver t c (look s) = .error e ↔ t.apply op.2 = .error e := by
  have hops : (exposures source look p s).1 = op :: ops :=
    (congrArg Prod.fst (exposures_eq_reading source look p s)).trans h
  rcases hhead : head (look s) p with front | e' <;> rw [exposures,hhead] at hops <;> rw [interpret,hhead]
  · cases front with
    | next op' k =>
      have hop : (⟨_,op'⟩ : Σ β : Type, F β) = op := by
        dsimp only at hops
        rcases hask : source.ask op' true s with ⟨halt | b,s'⟩ <;> rw [hask] at hops <;> cases hops <;> rfl
      subst hop
      change (t.apply op').map _ = _ ↔ t.apply op' = _
      cases t.apply op' <;> simp
    | effect op' =>
      cases hops
      exact Iff.rfl
    | done a => cases hops
    | stuck tag k => cases hops
    | malformed tag => cases hops
  · cases hops

end Building

end Program

section Running

variable {R W : Type} {F : Type → Type u} {α : Type} [View W R]

/-- The executor comes to what a reading comes to. It ends where the reading meets a malformed node, in the world
that the effects before the node have left; and whenever its outcome is known, that is how the reading ends. -/
def Work.Reports (driver : String) (work : Work R W α) (w : W) (x : Except Halt α × Queue W) : Prop :=
  (∀ tag, x.1 = .error (.malformed tag) → work.Ends w (.error (violation driver tag)) x.2.afterStrays) ∧
    ∀ n y, (Executor.advance^[n] (.start work w)).task.outcome? = some y →
      x.1 ≠ .error .unanswered ∧ y = report driver x.1

theorem Program.interpret_reports {c : Context R (Work R W)} {wrap : {β : Type} → Work R W β → Work R W β}
    (hc : Work.Chains c wrap) (driver : String) (t : Translator F (Work R W)) (p : Program R F α) (w : W) :
    (Work.ofOutcome (p.interpret driver t c (View.look w))).Reports driver w
      (reading (Work.answers wrap t) Queue.look false p { world := w }).2 := by
  have hmeets := interpret_meets hc driver t p (q := { world := w }) ⟨rfl,nofun⟩ .bare
  rw [exposures_eq_reading] at hmeets
  refine ⟨fun tag htag => ?_,fun n y hy => hmeets.outcome_eq hy⟩
  generalize (reading (Work.answers wrap t) Queue.look false p { world := w }).2 = x at hmeets htag ⊢
  obtain ⟨x,q⟩ := x
  obtain rfl : x = .error (.malformed tag) := htag
  exact Executor.Meets.ends hmeets

end Running

namespace Program

variable {R W : Type} {F : Type → Type u} {α : Type} [View W R]

theorem runBuilt_performing (t : Translator F (Action W)) (p : Program R F α) (w : W) :
    runBuilt (Target.performing R W).run (p.runIn t (Target.immediate R W) (View.look w)) () w =
      p.eval "runFree" t w := by
  refine (Target.performing R W).interpret_eq_eval (fun _ => rfl) "runFree" t t (fun op w => ?_) p w
  unfold Translator.perform
  cases t.apply op <;> rfl

theorem execute_translated (t : Translator F (Action W)) (p : Program R F α) (w : W) :
    Computation.execute (.ofOutcome (p.translate t (View.look w))) w = p.eval "translate" t w := by
  have hrun : Computation.execute (.ofOutcome (p.translate t (View.look w))) w =
      runBuilt (Program.executing R W).run (p.translate t (View.look w)) () w := by
    cases p.translate t (View.look w) with
    | ok c => rfl
    | error e => exact execute_raise ..
  rw [hrun]
  refine (Program.executing R W).interpret_eq_eval (fun _ => rfl) "translate" _ t (fun op w => ?_) p w
  change runBuilt (Program.executing R W).run ((t.apply op).map effect) () w = _
  unfold Translator.perform
  cases t.apply op with
  | ok act => exact execute_effect (R := R) "runTrampoline" Translator.id w act
  | error e => rfl

/-- A violation is raised for a malformed node, at the right moment, and by the interpreter that has met the node.
An interpreter raises it while it builds if no operation is met before the node; if one is, only the translation of
that one may fail then. The loop, nested actions, programs translated first, and work on the executor come to what
the reading comes to under the name of the interpreter: where that meets a malformed node, to the fatal violation,
with the operations before the node performed in their order and nothing else; and where it meets none, to no
violation but one that an operation or a continuation has brought itself. -/
theorem malformed_violates (p : Program R F α) (m : Program R (Work R W) α) :
    (∀ driver tag, ∃ s : SystemError, violation driver tag = .system s ∧ s.isFatal = true) ∧
      (∀ driver tag (x : Except Halt α), report driver x = .error (violation driver tag) ↔
        x = .error (.malformed tag) ∨ x = .error (.failed (violation driver tag)) ∨
          x = .error (.raised (violation driver tag))) ∧
      (∀ {G : Type → Type v} {S : Type w} (driver : String) (t : Translator F G) (c : Context R G)
        (source : Source S F) (look : S → R) (s : S),
        let x := reading source look false p s
        (asked x.1 = [] → p.interpret driver t c (look s) = (report driver x.2.1).map c.lift) ∧
          (∀ op ops, asked x.1 = op :: ops → ∀ e,
            p.interpret driver t c (look s) = .error e ↔ t.apply op.2 = .error e) ∧
          (p.WellFormed → ∀ tag, x.2.1 ≠ .error (.malformed tag))) ∧
      (∀ (t : Translator F (Action W)) (w : W),
        let x := reading (Source.performing t) View.look false p w
        t.Performs (asked x.1) w (failure? x.2.1) x.2.2 ∧
          p.execute "runTrampoline" t w = (report "runTrampoline" x.2.1,x.2.2) ∧
          runBuilt (Target.performing R W).run (p.runIn t (Target.immediate R W) (View.look w)) () w =
            (report "runFree" x.2.1,x.2.2) ∧
          Computation.execute (.ofOutcome (p.translate t (View.look w))) w =
            (report "translate" x.2.1,x.2.2)) ∧
      (∀ (t : Translator F (Work R W)) (w : W),
        (Work.ofOutcome (p.runIn t Work.context (View.look w))).Reports "runFree" w
          (reading (Work.answers Work.fork t) Queue.look false p { world := w }).2) ∧
      ∀ w : W, (Work.ofOutcome (Work.ofSuspended m (View.look w))).Reports "async run" w
        (reading (Work.answers (fun work => work) Translator.id) Queue.look false m { world := w }).2 := by
  refine ⟨violation_isFatal,fun _ _ _ => report_eq_violation_iff,fun driver t c source look s => ?_,
    fun t w => ?_,fun t => interpret_reports Work.chains_forked "runFree" t p,
    interpret_reports Work.chains_eager "async run" Translator.id m⟩
  · exact ⟨interpret_of_asked_nil source look driver t c p s,
      fun op ops => interpret_of_asked_cons source look driver t c p s,
      fun hp tag => reading_ne_malformed source look hp false s tag⟩
  · refine ⟨performs_reading t View.look false p w,?_,?_,?_⟩
    · rw [execute_eq_eval,eval_eq_reading "runTrampoline" t false]
    · rw [runBuilt_performing,eval_eq_reading "runFree" t false]
    · rw [execute_translated,eval_eq_reading "translate" t false]

/-- A malformed node stands below a bind, after an effect and before another. -/
theorem malformed_violates_log :
    let say (s : String) : Action (List String) Unit := fun log => (.ok (),log ++ [s])
    let p : Computation Unit (List String) Unit := bind (effect (say "a")) fun _ _ =>
      bind (bind (malformed "Weird") fun (_ : Unit) _ => effect (say "b")) fun (_ : Unit) _ => effect (say "c")
    Program.execute "runTrampoline" Translator.id p [] = (.error (violation "runTrampoline" "Weird"),["a"]) ∧
      Computation.execute (.ofOutcome (p.translate Translator.id ())) [] =
        (.error (violation "translate" "Weird"),["a"]) ∧
      (Work.ofOutcome (p.runIn (Work.delaying Unit (List String)) Work.context ())).Ends []
        (.error (violation "runFree" "Weird")) ["a"] := by
  intro say p
  obtain ⟨-,-,-,hdirect,hwork,-⟩ :=
    malformed_violates.{0,0,0} p (done () : Program Unit (Work Unit (List String)) Unit)
  obtain ⟨-,hloop,-,htranslated⟩ := hdirect Translator.id []
  refine ⟨hloop,htranslated,?_⟩
  let first : Work Unit (List String) Unit := .fork (.delay (say "a"))
  have hsettle : first.settle { world := [] } = some (.ok (),{ world := ["a"] }) := by
    refine Work.settle_eq_some_iff.mpr (.later rfl ?_)
    exact .now (e := ⟨.settled (.ok ()),{ world := ["a"] }⟩) rfl
  have hreading : (reading (Work.answers Work.fork (Work.delaying Unit (List String))) Queue.look false p
      { world := [] }).2 = (.error (.malformed "Weird"),{ world := ["a"] }) := by
    simp only [p,reading,Source.ask,Work.answers,Work.delaying,if_true]
    rw [hsettle]
    rfl
  have hends := (hwork (Work.delaying Unit (List String)) []).1 "Weird" (by rw [hreading])
  rw [hreading] at hends
  exact hends

end Program

end Effectful
