import Effectful.Proofs.Program.Reading
/-!
# Stepping through a program

Stepping brings the next operation of a program to the front. To step again and again, each time with an answer to
the operation in front, is to read the program depth-first from the left: the same operations are met, and each
continuation is applied once, to the answer of the part before it.

Stepping hides which continuations it applies, as it moves them across each other. They become visible in a program
that records, by an operation of its own, every continuation as it is applied.
-/
namespace Effectful.Program

universe u v w

variable {R : Type} {F : Type → Type u} {G : Type → Type v} {α β γ : Type}

/-- The program with other operations in the place of its own. -/
def replace (τ : {β : Type} → F β → G β) {α : Type} : Program R F α → Program R G α
  | done a => done a
  | effect op => effect (τ op)
  | bind sub k => bind (replace τ sub) fun b r => replace τ (k b r)
  | malformed tag => malformed tag
  | raise e => raise e

section Step

variable (r : R)

theorem step_done (a : α) : step r (done a : Program R F α) = .ok (done a) := by
  rw [step,head_done]
  rfl

theorem step_effect (op : F α) : step r (effect op : Program R F α) = .ok (effect op) := by
  rw [step,head_effect]
  rfl

theorem step_malformed (tag : String) :
    step r (malformed tag : Program R F α) = .ok (malformed tag) := by
  rw [step,head_malformed]
  rfl

theorem step_raise (e : Failure) : step r (raise e : Program R F α) = .error e := by
  rw [step,head_raise]
  rfl

theorem step_bind_done (b : β) (k : β → R → Program R F α) :
    step r (bind (done b) k) = step r (k b r) := by
  rw [step,head_bind_done,← step]

theorem step_bind_effect (op : F β) (k : β → R → Program R F α) :
    step r (bind (effect op) k) = .ok (bind (effect op) k) := by
  rw [step,head_bind_effect]
  rfl

theorem step_bind_bind (p : Program R F γ) (g : γ → R → Program R F β) (k : β → R → Program R F α) :
    step r (bind (bind p g) k) = step r (bind p fun c r => bind (g c r) k) := by
  rw [step,head_bind_bind,← step]

theorem step_bind_malformed (tag : String) (k : β → R → Program R F α) :
    step r (bind (malformed tag) k) = .ok (bind (malformed tag) k) := by
  rw [step,head_bind_malformed]
  rfl

theorem step_bind_raise (e : Failure) (k : β → R → Program R F α) :
    step r (bind (raise e) k) = .error e := by
  rw [step,head_bind_raise]
  rfl

theorem step_replace (τ : {β : Type} → F β → G β) (p : Program R F α) :
    step r (p.replace τ) = (step r p).map (replace τ) := by
  induction p using induct_next generalizing r with
  | done a => simp only [replace,step_done,Outcome.map_ok]
  | effect op => simp only [replace,step_effect,Outcome.map_ok]
  | malformed tag => simp only [replace,step_malformed,Outcome.map_ok]
  | raise e => simp only [replace,step_raise,Outcome.map_error]
  | bind_done a k ih =>
    simp only [replace,step_bind_done]
    exact ih r r
  | bind_effect op k ih => simp only [replace,step_bind_effect,Outcome.map_ok]
  | bind_bind y g k ih =>
    have hrest := ih r
    simp only [replace] at hrest
    simp only [replace,step_bind_bind]
    exact hrest
  | bind_malformed tag k => simp only [replace,step_bind_malformed,Outcome.map_ok]
  | bind_raise e k => simp only [replace,step_bind_raise,Outcome.map_error]

/-- What stepping ends with is reached by reductions, so whatever holds of it and is not changed by a reduction
holds of the program. -/
theorem step_induct {motive : Program R F α → Prop} {p q : Program R F α} (h : step r p = .ok q)
    (front : motive q)
    (resume : ∀ {β : Type} (b : β) (k : β → R → Program R F α), motive (k b r) →
      motive (bind (done b) k))
    (rotate : ∀ {β γ : Type} (y : Program R F γ) (g : γ → R → Program R F β)
      (k : β → R → Program R F α), motive (bind y fun c r => bind (g c r) k) →
      motive (bind (bind y g) k)) : motive p := by
  induction p using induct_next generalizing r with
  | done a => rw [step_done] at h; cases h; exact front
  | effect op => rw [step_effect] at h; cases h; exact front
  | malformed tag => rw [step_malformed] at h; cases h; exact front
  | raise e => rw [step_raise] at h; cases h
  | bind_done b k ih =>
    rw [step_bind_done] at h
    exact resume b k (ih r r h resume)
  | bind_effect op k ih => rw [step_bind_effect] at h; cases h; exact front
  | bind_bind y g k ih =>
    rw [step_bind_bind] at h
    exact rotate y g k (ih r h resume)
  | bind_malformed tag k => rw [step_bind_malformed] at h; cases h; exact front
  | bind_raise e k => rw [step_bind_raise] at h; cases h

theorem head_of_step {p q : Program R F α} (h : step r p = .ok q) :
    ∃ x : Head R F α, q = x.toProgram := by
  unfold step at h
  cases hx : head r p with
  | ok x =>
    rw [hx] at h
    cases h
    exact ⟨x,rfl⟩
  | error e => rw [hx] at h; cases h

theorem step_step {p q : Program R F α} (h : step r p = .ok q) : step r q = .ok q := by
  obtain ⟨x,rfl⟩ := head_of_step r h
  cases x with
  | done a => exact step_done r a
  | effect op => exact step_effect r op
  | next op k => exact step_bind_effect r op k
  | stuck tag k => exact step_bind_malformed r tag k
  | malformed tag => exact step_malformed r tag

theorem step_shape {p q : Program R F α} (hp : p.WellFormed) (h : step r p = .ok q) :
    (∃ a, q = done a) ∨ (∃ op, q = effect op) ∨
      ∃ (β : Type) (op : F β) (k : β → R → Program R F α), q = bind (effect op) k := by
  have hq : q.WellFormed := by
    revert hp
    refine step_induct (motive := fun p => p.WellFormed → q.WellFormed) r h (fun hq => hq)
      (fun b k hk hp => hk (hp.2 b r)) fun y g k hy hp => ?_
    exact hy ⟨hp.1.1,fun c r' => ⟨hp.1.2 c r',hp.2⟩⟩
  obtain ⟨x,rfl⟩ := head_of_step r h
  cases x with
  | done a => exact .inl ⟨a,rfl⟩
  | effect op => exact .inr (.inl ⟨op,rfl⟩)
  | next op k => exact .inr (.inr ⟨_,op,k,rfl⟩)
  | stuck tag k => exact hq.1.elim
  | malformed tag => exact hq.elim

theorem interpret_step (driver : String) (t : Translator F G) (c : Context R G) {p q : Program R F α}
    (h : step r p = .ok q) : q.interpret driver t c r = p.interpret driver t c r := by
  refine step_induct (motive := fun p => q.interpret driver t c r = p.interpret driver t c r) r h rfl
    (fun b k hk => ?_) fun y g k hy => ?_
  · rw [interpret_bind_done]
    exact hk
  · rw [interpret_bind_bind]
    exact hy

theorem eval_step {W : Type} [View W R] (driver : String) (t : Translator F (Action W)) {p q : Program R F α}
    {w : W} (h : step (View.look w) p = .ok q) : q.eval driver t w = p.eval driver t w := by
  refine step_induct (motive := fun p => q.eval driver t w = p.eval driver t w) (View.look w) h rfl
    (fun b k hk => hk) fun y g k hy => ?_
  rw [eval_bind_bind]
  exact hy

end Step

section Stepping

variable {S : Type v} (source : Source S F) (look : S → R)

/-- Steps through a program: the operations that come to the front one after another, as the continuation
that is exposed is applied to the next answer, and what this comes to. -/
def exposures (p : Program R F α) (s : S) : List (Σ β : Type, F β) × Except Halt α × S :=
  match _h : head (look s) p with
  | .error e => ([],.error (.raised e),s)
  | .ok (.done a) => ([],.ok a,s)
  | .ok (.effect op) => ([⟨_,op⟩],source.ask op false s)
  | .ok (.next op k) =>
    match source.ask op true s with
    | (.ok b,s) =>
      match exposures (k b (look s)) s with
      | (ops,x) => (⟨_,op⟩ :: ops,x)
    | (.error halt,s) => ([⟨_,op⟩],.error halt,s)
  | .ok (.stuck tag _) | .ok (.malformed tag) => ([],.error (.malformed tag),s)
termination_by p
decreasing_by exact reached_of_head_eq_next _h b (look s)

theorem exposures_congr {p q : Program R F α} {s : S} (h : head (look s) p = head (look s) q) :
    exposures source look p s = exposures source look q s := by
  unfold exposures
  rw [h]

/-- Stepping again and again is reading. -/
theorem exposures_eq_reading (p : Program R F α) (s : S) :
    exposures source look p s =
      (asked (reading source look false p s).1,(reading source look false p s).2) := by
  induction p using induct_next generalizing s with
  | done a => rw [exposures,head_done]; rfl
  | effect op => rw [exposures,head_effect]; rfl
  | malformed tag => rw [exposures,head_malformed]; rfl
  | raise e => rw [exposures,head_raise]; rfl
  | bind_done b k ih =>
    rw [exposures_congr source look (head_bind_done (look s) b k),ih (look s)]
    rfl
  | bind_effect op k ih =>
    rw [exposures,head_bind_effect]
    simp only [reading]
    rcases source.ask op true s with ⟨halt | b,s'⟩
    · rfl
    · dsimp only
      rw [ih b (look s') s']
      rfl
  | bind_bind y g k ih =>
    rw [exposures_congr source look (head_bind_bind (look s) y g k),ih]
    simp only [reading]
    rcases reading source look true y s with ⟨met,halt | c,s'⟩
    · rfl
    · dsimp only
      rcases reading source look true (g c (look s')) s' with ⟨met',halt | b,s''⟩ <;> simp [asked]
  | bind_malformed tag k => rw [exposures,head_bind_malformed]; rfl
  | bind_raise e k => rw [exposures,head_bind_raise]; rfl

theorem step_eq_error_iff (p : Program R F α) (s : S) (e : Failure) :
    step (look s) p = .error e ↔ asked (reading source look false p s).1 = [] ∧
      (reading source look false p s).2.1 = .error (.raised e) := by
  have hreading := exposures_eq_reading source look p s
  have hops : (exposures source look p s).1 = asked (reading source look false p s).1 :=
    congrArg Prod.fst hreading
  have hends : (exposures source look p s).2.1 = (reading source look false p s).2.1 :=
    congrArg (·.2.1) hreading
  rw [← hops,← hends]
  unfold step exposures
  rcases head (look s) p with front | e'
  · cases front with
    | next op k => rcases hop : source.ask op true s with ⟨halt | b,s'⟩ <;> simp [hop]
    | _ => simp
  · simp

/-- The program that records every continuation as it is applied. -/
def recorded {α : Type} : Program R F α → Program R (Met R F) α
  | done a => done a
  | effect op => effect (.asked op)
  | bind sub k => bind (recorded sub) fun b r => bind (effect (.applied k b)) fun _ _ => recorded (k b r)
  | malformed tag => malformed tag
  | raise e => raise e

/-- Answers the operations of a program with records; a record takes no answer from the source. -/
def recording (source : Source S F) : Source S (Met R F)
  | _, .asked op, waited, s => source _ op waited s
  | _, .applied .., _, s => some (.ok (),s)

theorem reading_recorded (p : Program R F α) (waited : Bool) (s : S) :
    (asked (reading (recording source) look waited p.recorded s).1,
      (reading (recording source) look waited p.recorded s).2) = reading source look waited p s := by
  induction p generalizing waited s with
  | done | malformed | raise => rfl
  | effect op => rfl
  | bind sub k ihs ihk =>
    simp only [recorded,reading]
    rw [← ihs true s]
    rcases reading (recording source) look true sub.recorded s with ⟨met,halt | b,s'⟩
    · rfl
    · simp only [Source.ask,Source.outcome,recording]
      rw [← ihk b (look s') waited s']
      rcases reading (recording source) look waited (k b (look s')).recorded s' with ⟨met',x⟩
      simp [asked]

end Stepping

/-- Stepping exposes exactly the next operation. It looks at no operation, and fails only where a continuation
fails before any is met. What it comes to is finished, one operation, or an operation before a continuation; it is
not changed by a further step, is interpreted as the program is in every target, and does what the program does.
So whatever the answers are, to step again and again, and to apply the exposed continuation to the next answer each
time, brings up the operations of the depth-first reading from the left and its final value, and applies each
continuation of the reading once, to the answer of the part before it. -/
theorem step_exposes {p : Program R F α} (hp : p.WellFormed) (r : R) :
    (∀ {G : Type → Type v} (τ : {β : Type} → F β → G β),
        step r (p.replace τ) = (step r p).map (replace τ)) ∧
      (∀ q, step r p = .ok q →
        ((∃ a, q = done a) ∨ (∃ op, q = effect op) ∨
          ∃ (β : Type) (op : F β) (k : β → R → Program R F α), q = bind (effect op) k) ∧
        step r q = .ok q ∧
        (∀ {G : Type → Type v} (driver : String) (t : Translator F G) (c : Context R G),
          q.interpret driver t c r = p.interpret driver t c r) ∧
        ∀ {W : Type} [View W R] (driver : String) (t : Translator F (Action W)) (w : W),
          View.look w = r → q.eval driver t w = p.eval driver t w) ∧
      ∀ {S : Type w} (source : Source S F) (look : S → R) (s : S),
        (look s = r → ∀ e, step r p = .error e ↔ asked (reading source look false p s).1 = [] ∧
          (reading source look false p s).2.1 = .error (.raised e)) ∧
        exposures source look p s =
          (asked (reading source look false p s).1,(reading source look false p s).2) ∧
        exposures (recording source) look p.recorded s = reading source look false p s := by
  refine ⟨fun τ => step_replace r τ p,fun q h => ⟨step_shape r hp h,step_step r h,?_,?_⟩,
    fun source look s => ⟨?_,exposures_eq_reading source look p s,?_⟩⟩
  · exact fun driver t c => interpret_step r driver t c h
  · rintro W _ driver t w rfl
    exact eval_step driver t h
  · rintro rfl
    exact step_eq_error_iff source look p s
  · rw [exposures_eq_reading]
    exact reading_recorded source look p false s

/-- A program that is nested to the left, with an answer for each operation, and with one answer alone. -/
theorem step_exposes_nested :
    let say (s : String) : Action (List String) Unit := fun log => (.ok (),log ++ [s])
    let p : Program Unit (Action (List String)) Unit :=
      bind (bind (effect (say "a")) fun _ _ => effect (say "b")) fun _ _ => effect (say "c")
    let answer (β : Type) (op : Action (List String) β) : Option β := (op []).1.toOption
    p.WellFormed ∧
      exposures Source.list (fun _ => ()) p [answer,answer,answer] =
        ([⟨Unit,say "a"⟩,⟨Unit,say "b"⟩,⟨Unit,say "c"⟩],.ok (),[]) ∧
      exposures Source.list (fun _ => ()) p [answer] =
        ([⟨Unit,say "a"⟩,⟨Unit,say "b"⟩],.error .unanswered,[]) := by
  intro say p answer
  have hp : p.WellFormed := ⟨⟨trivial,fun _ _ => trivial⟩,fun _ _ => trivial⟩
  have hexposes := (step_exposes.{0,0,1} hp ()).2.2 Source.list fun _ => ()
  exact ⟨hp,(hexposes _).2.1,(hexposes _).2.1⟩

end Effectful.Program
