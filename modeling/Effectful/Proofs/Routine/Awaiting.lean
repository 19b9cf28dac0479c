import Effectful.Proofs.Program.Exposure
import Effectful.Proofs.Work.Settling
/-!
# Programs of work on the executor

The executor reads a program piece by piece: each piece of work is started on what the one before it has left, runs
as it does alone, and its answer goes to the continuation. Work that is chained on the executor waits for the late
effects of the work before it, as it takes a turn to start; work that is chained on the caller's turn does not.
-/
namespace Effectful

open Program

universe u

variable {R W : Type} {F : Type → Type u} {α β γ : Type} [View W R]

namespace Work

def begun (work : Work R W α) (q : Queue W) : Executor R W α :=
  ⟨(Task.start work [] q).1,(Task.start work [] q).2⟩

open Classical in
/-- What work comes to that is started on a queue, if it comes to anything, and the queue that it leaves. -/
noncomputable def settle (work : Work R W α) (q : Queue W) : Option (Outcome α × Queue W) :=
  if h : ∃ x : Outcome α × Queue W, (work.begun q).Settles x.1 x.2 then some h.choose else none

theorem settle_eq_some_iff {work : Work R W α} {q : Queue W} {x : Outcome α × Queue W} :
    work.settle q = some x ↔ (work.begun q).Settles x.1 x.2 := by
  unfold settle
  split
  case isTrue hexists =>
    constructor
    · intro h
      cases h
      exact hexists.choose_spec
    · intro h
      obtain ⟨hx,hq⟩ := hexists.choose_spec.unique h
      exact congrArg some (Prod.ext hx hq)
  case isFalse hexists => exact ⟨nofun,fun h => (hexists ⟨x,h⟩).elim⟩

theorem silent_of_settle {work : Work R W α} {q : Queue W} (h : work.settle q = none) :
    (work.begun q).Silent := by
  rcases (work.begun q).silent_or_settles with hsilent | ⟨x,q',hsettles⟩
  · exact hsilent
  · cases h.symm.trans (settle_eq_some_iff (x := (x,q')).mpr hsettles)

/-- The answers of pieces of work, each started on the queue that the one before it has left. Work that a
continuation waits for is started by way of `wrap`. -/
noncomputable def answers (wrap : {β : Type} → Work R W β → Work R W β) (t : Translator F (Work R W)) :
    Source (Queue W) F := fun _ op waited q =>
  match t.apply op with
  | .ok work => (if waited then wrap work else work).settle q
  | .error e => some (.error e,q)

end Work

def Queue.look (q : Queue W) : R := View.look q.world

def Turn.perform : Turn W → W → W
  | .resume _, w => w
  | .stray late, w => late w

/-- The world that the turns of a quiet queue leave. -/
def Queue.afterStrays (q : Queue W) : W := q.turns.foldl (fun w turn => turn.perform w) q.world

namespace Executor

/-- Rounds lead from one executor to another, and the outcome is not known before. -/
def Waits (e e' : Executor R W α) : Prop :=
  ∃ n, advance^[n] e = e' ∧ ∀ m < n, (advance^[m] e).task.outcome? = none

variable {e e' e'' : Executor R W α}

theorem Waits.reaches (h : e.Waits e') : e.Reaches e' := by
  obtain ⟨n,hn,-⟩ := h
  exact ⟨n,hn⟩

theorem Waits.refl (e : Executor R W α) : e.Waits e := ⟨0,rfl,fun _ h => (Nat.not_lt_zero _ h).elim⟩

theorem Waits.head (hnone : e.task.outcome? = none) (h : e.advance.Waits e') : e.Waits e' := by
  obtain ⟨n,hn,hbefore⟩ := h
  refine ⟨n + 1,hn,fun m hm => ?_⟩
  cases m with
  | zero => exact hnone
  | succ m => exact hbefore m (by omega)

theorem Waits.settles_iff (h : e.Waits e') {x : Outcome α} {q : Queue W} :
    e.Settles x q ↔ e'.Settles x q := by
  obtain ⟨n,rfl,hbefore⟩ := h
  induction n generalizing e with
  | zero => exact Iff.rfl
  | succ n ih =>
    have hnone : e.task.outcome? = none := hbefore 0 (Nat.succ_pos n)
    refine Iff.trans ⟨fun h => ?_,.later hnone⟩ (ih fun m hm => hbefore (m + 1) (by omega))
    cases h with
    | now hx => cases hnone.symm.trans hx
    | later _ hrest => exact hrest

theorem iterate_strays (t : Task R W α) (w : W) {turns : List (Turn W)}
    (hturns : ∀ turn ∈ turns, turn.path? = none) (more : List (Turn W)) :
    ∃ n, advance^[n] ⟨t,⟨w,[],turns ++ more⟩⟩ = ⟨t,⟨(Queue.mk w [] turns).afterStrays,[],more⟩⟩ ∧
      ∀ m < n, (advance^[m] ⟨t,⟨w,[],turns ++ more⟩⟩).task = t := by
  induction turns generalizing w with
  | nil => exact ⟨0,rfl,fun _ h => (Nat.not_lt_zero _ h).elim⟩
  | cons turn turns ih =>
    cases turn with
    | resume path => cases hturns _ (List.mem_cons_self ..)
    | stray late =>
      obtain ⟨n,hn,htask⟩ := ih (late w) fun turn hmem => hturns turn (List.mem_cons_of_mem _ hmem)
      refine ⟨n + 1,hn,fun m hm => ?_⟩
      cases m with
      | zero => rfl
      | succ m => exact htask m (by omega)

theorem waits_strays {t : Task R W α} (ht : t.outcome? = none) (w : W) {turns : List (Turn W)}
    (hturns : ∀ turn ∈ turns, turn.path? = none) (more : List (Turn W)) :
    Waits ⟨t,⟨w,[],turns ++ more⟩⟩ ⟨t,⟨(Queue.mk w [] turns).afterStrays,[],more⟩⟩ := by
  obtain ⟨n,hn,htask⟩ := iterate_strays t w hturns more
  exact ⟨n,hn,fun m hm => by rw [htask m hm,ht]⟩

theorem reaches_afterStrays (t : Task R W α) {q : Queue W} (hq : q.Quiet) :
    Reaches ⟨t,q⟩ ⟨t,{ world := q.afterStrays }⟩ := by
  obtain ⟨w,jobs,turns⟩ := q
  obtain ⟨rfl,hturns⟩ : jobs = [] ∧ ∀ turn ∈ turns, turn.path? = none := hq
  obtain ⟨n,hn,-⟩ := iterate_strays t w hturns []
  rw [List.append_nil] at hn
  exact ⟨n,hn⟩

end Executor

namespace Work

/-- To start what a target chains is to start its first work, on a quiet queue and below the continuation; and so
is to start that work by way of `wrap`. -/
structure Chains (c : Context R (Work R W)) (wrap : {β : Type} → Work R W β → Work R W β) : Prop where
  lift : ∀ {α : Type} (a : α), c.lift a = .answer a
  sequence : ∀ {α β : Type} (first : Work R W β) (f : β → R → Outcome (Work R W α)) (q : Queue W), q.Quiet →
    ∃ q₀ : Queue W, q₀.Quiet ∧ (wrap first).settle q = first.settle q₀ ∧
      ∀ {γ : Type} (s : Task.Stack R W α γ), (s.executor (Task.start (c.sequence first f) [] q)).Reaches
        ((Task.Stack.chain (fun b r => ofOutcome (f b r)) s).executor (Task.start first [] q₀))

theorem chains_eager : Chains (eagerContext : Context R (Work R W)) fun work => work where
  lift _ := rfl
  sequence first f q hq := ⟨q,hq,rfl,fun s => by
    rw [← s.executor_above]
    exact .refl _⟩

theorem chains_forked : Chains (context : Context R (Work R W)) fork where
  lift _ := rfl
  sequence {α β} first f q hq := by
    obtain ⟨w,jobs,turns⟩ := q
    obtain ⟨rfl,hturns⟩ : jobs = [] ∧ ∀ turn ∈ turns, turn.path? = none := hq
    refine ⟨{ world := (Queue.mk w [] turns).afterStrays },⟨rfl,nofun⟩,Option.ext fun x => ?_,fun s => ?_⟩
    · have hwaits := Executor.waits_strays (t := Task.asleep first) rfl w hturns [.resume []]
      rw [settle_eq_some_iff,settle_eq_some_iff]
      exact hwaits.settles_iff.trans (Executor.Waits.settles_iff (.head rfl (.refl _)))
    · let start : Task R W α := .asleep (andThen first fun b r => ofOutcome (f b r))
      have hnone : (s.plug start).outcome? = none := s.outcome?_plug rfl
      have hwaits := Executor.waits_strays hnone w hturns [.resume []]
      change (s.executor (start,_)).Reaches _
      rw [s.executor_eq rfl]
      refine hwaits.reaches.trans (.head ?_)
      rw [s.advance_plug rfl,← s.executor_above]
      exact .refl _

end Work

/-- The executor comes to what a reading comes to, below the stack `s`. -/
def Executor.Meets (s : Task.Stack R W α γ) (driver : String) :
    Except Halt α × Queue W → Executor R W γ → Prop
  | (.error .unanswered,_), e => ∃ e', e.Reaches e' ∧ e'.Silent
  | (.error (.failed failure),_), e => ∃ e', e.Reaches e' ∧ e'.task.Sinks failure
  | (x,q), e =>
    q.Quiet ∧ ∃ t : Task R W α, t.outcome? = some (report driver x) ∧ e.Reaches (s.executor (t,q))

namespace Executor

variable {s : Task.Stack R W α γ} {driver : String} {x : Except Halt α × Queue W} {e e' : Executor R W γ}

/-- What an executor meets is met earlier in its run, and below any stack that passes an outcome on from the same
queue. -/
theorem Meets.of_reaches {s' : Task.Stack R W α γ} (h : e'.Meets s' driver x) (hr : e.Reaches e')
    (hs : ∀ {q : Queue W} {t : Task R W α} {y : Outcome α}, q.Quiet → t.outcome? = some y →
      (s'.executor (t,q)).Reaches (s.executor (t,q))) : e.Meets s driver x := by
  obtain ⟨(halt | a),q⟩ := x
  · cases halt with
    | unanswered | failed =>
      obtain ⟨e'',hr',h⟩ := h
      exact ⟨e'',hr.trans hr',h⟩
    | raised | malformed =>
      obtain ⟨hq,t,ht,hr'⟩ := h
      exact ⟨hq,t,ht,hr.trans (hr'.trans (hs hq ht))⟩
  · obtain ⟨hq,t,ht,hr'⟩ := h
    exact ⟨hq,t,ht,hr.trans (hr'.trans (hs hq ht))⟩

theorem Meets.head (hr : e.Reaches e') (h : e'.Meets s driver x) : e.Meets s driver x :=
  h.of_reaches hr fun _ _ => .refl _

theorem Meets.relay {steps : Nat} (h : e.Meets (.relay steps s) driver x) : e.Meets s driver x := by
  refine h.of_reaches (.refl e) fun {q t _} hq ht => ?_
  obtain ⟨w,jobs,turns⟩ := q
  obtain ⟨rfl,-⟩ : jobs = [] ∧ _ := hq
  exact s.relay_reaches ht steps w turns

theorem Meets.goOn {work : Work R W α} {q : Queue W}
    (h : ∀ {γ : Type} (s : Task.Stack R W α γ),
      (s.executor (Task.start work [] q)).Meets s driver x) (s : Task.Stack R W α γ) :
    (s.executor (Task.goOn work [] q)).Meets s driver x := by
  by_cases hwork : ∃ e, work = .reject e
  · obtain ⟨e,rfl⟩ := hwork
    exact h s
  · obtain ⟨steps,hgo⟩ := s.executor_goOn (fun e he => hwork ⟨e,he⟩) q
    rw [hgo]
    exact (h (.relay steps s)).relay

theorem meets_settled (s : Task.Stack R W α γ) (driver : String) (e : Failure) (q : Queue W) :
    (s.executor (.settled (.error e),q)).Meets s driver (.error (.failed e),q) :=
  ⟨_,.refl _,Task.Sinks.plug (.here rfl) s⟩

theorem meets_settle (s : Task.Stack R W α γ) (driver : String) (work : Work R W α) {q : Queue W}
    (hq : q.Quiet) :
    (s.executor (Task.start work [] q)).Meets s driver (Source.outcome (work.settle q) q) := by
  rcases hsettle : work.settle q with _ | ⟨a | e,q'⟩
  · exact ⟨_,.refl _,s.silent (Work.silent_of_settle hsettle)⟩
  · have hsettles := Work.settle_eq_some_iff.mp hsettle
    obtain ⟨t,ht,-,hr⟩ := Task.Stack.settles_reaches hsettles
    exact ⟨hsettles.quiet (sound_start work hq) rfl,t,ht,hr s⟩
  · obtain ⟨t,ht,-,hr⟩ := Task.Stack.settles_reaches (Work.settle_eq_some_iff.mp hsettle)
    exact ⟨_,hr s,(Task.Sinks.here ht).plug s⟩

theorem Meets.outcome_eq {e : Executor R W α} {x : Except Halt α × Queue W} (h : e.Meets .bare driver x)
    {n : Nat} {y : Outcome α} (hy : (advance^[n] e).task.outcome? = some y) :
    x.1 ≠ .error .unanswered ∧ y = report driver x.1 := by
  have hlater : ∀ {e'}, e.Reaches e' → (advance^[n] e').task.outcome? = some y := by
    rintro _ ⟨m,rfl⟩
    rw [← Function.iterate_add_apply,Nat.add_comm,Function.iterate_add_apply]
    exact outcome?_iterate hy m
  obtain ⟨halt | a,q⟩ := x
  · cases halt with
    | unanswered =>
      obtain ⟨e',hr,hsilent⟩ := h
      cases (hsilent n).symm.trans (hlater hr)
    | failed failure =>
      obtain ⟨e',hr,hsinks⟩ := h
      have hsinks' : (advance^[n] e').task.Sinks failure :=
        iterate_task (fun _ path q ht => ht.visit [] path q) hsinks n
      exact ⟨nofun,hsinks'.outcome?_eq (hlater hr)⟩
    | raised | malformed =>
      obtain ⟨hq,t,ht,hr⟩ := h
      exact ⟨nofun,Option.some.inj ((hlater hr).symm.trans (outcome?_iterate ht n))⟩
  · obtain ⟨hq,t,ht,hr⟩ := h
    exact ⟨nofun,Option.some.inj ((hlater hr).symm.trans (outcome?_iterate ht n))⟩

theorem Meets.ends {work : Work R W α} {w : W} {tag : String} {q : Queue W}
    (h : (work.begun { world := w }).Meets .bare driver (.error (.malformed tag),q)) :
    work.Ends w (.error (.ofReason (.invariantViolation driver tag))) q.afterStrays := by
  obtain ⟨hq,t,ht,hr⟩ := h
  exact ⟨_,hr.trans (reaches_afterStrays t hq),rfl,ht,rfl⟩

end Executor

namespace Program

variable {c : Context R (Work R W)} {wrap : {β : Type} → Work R W β → Work R W β}

/-- On the executor, the work that a program is interpreted as comes to what the program is read to. -/
theorem interpret_meets (hc : Work.Chains c wrap) (driver : String) (t : Translator F (Work R W))
    (p : Program R F α) {q : Queue W} (hq : q.Quiet) (s : Task.Stack R W α γ) :
    (s.executor (Task.start (Work.ofOutcome (p.interpret driver t c q.look)) [] q)).Meets s driver
      (exposures (Work.answers wrap t) Queue.look p q).2 := by
  induction p using induct_next generalizing q γ with
  | done a =>
    rw [interpret_done,exposures,head_done,hc.lift]
    exact ⟨hq,.settled (.ok a),rfl,.refl _⟩
  | effect op =>
    rw [interpret_effect,exposures,head_effect]
    cases hop : t.apply op with
    | ok work =>
      simp only [Source.ask,Work.answers,hop,Bool.false_eq_true,if_false]
      exact Executor.meets_settle s driver work hq
    | error e =>
      simp only [Source.ask,Work.answers,hop]
      exact Executor.meets_settled s driver e q
  | malformed tag =>
    rw [interpret_malformed,exposures,head_malformed]
    exact ⟨hq,.settled _,rfl,.refl _⟩
  | raise e =>
    rw [interpret_raise,exposures,head_raise]
    exact ⟨hq,.settled _,rfl,.refl _⟩
  | bind_done b k ih =>
    rw [interpret_bind_done,exposures_congr _ Queue.look (head_bind_done q.look b k)]
    exact ih _ hq s
  | bind_effect op k ih =>
    rw [interpret_bind_effect,exposures,head_bind_effect]
    cases hop : t.apply op with
    | error e =>
      simp only [Source.ask,Work.answers,hop]
      exact Executor.meets_settled s driver e q
    | ok first =>
      obtain ⟨q₀,hq₀,hsettle,hr⟩ := hc.sequence first (fun a r => interpret driver t c (k a r) r) q hq
      have hfirst := Executor.meets_settle
        (.chain (fun b r => Work.ofOutcome (interpret driver t c (k b r) r)) s) driver first hq₀
      rw [← hsettle] at hfirst
      refine Executor.Meets.head (hr s) ?_
      simp only [Source.ask,Work.answers,hop,if_true]
      rcases hx : (wrap first).settle q with _ | ⟨b | e,q'⟩ <;> rw [hx] at hfirst
      · exact hfirst
      · obtain ⟨hq',t',ht',hr'⟩ := hfirst
        obtain ⟨w,jobs,turns⟩ := q'
        obtain rfl : jobs = [] := hq'.1
        refine .head (hr'.trans (.head (.refl _))) ?_
        rw [s.advance_chain_ok ht']
        exact .goOn (fun s => ih b _ hq' s) s
      · exact hfirst
  | bind_bind y g k ih =>
    rw [interpret_bind_bind,exposures_congr _ Queue.look (head_bind_bind q.look y g k)]
    exact ih hq s
  | bind_malformed tag k =>
    rw [interpret_bind_malformed,exposures,head_bind_malformed]
    exact ⟨hq,.settled _,rfl,.refl _⟩
  | bind_raise e k =>
    rw [interpret_bind_raise,exposures,head_bind_raise]
    exact ⟨hq,.settled _,rfl,.refl _⟩

end Program

end Effectful
