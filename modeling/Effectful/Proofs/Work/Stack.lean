import Effectful.Proofs.Program.Meaning
import Effectful.Proofs.Work.Frame
import Effectful.Proofs.Work.Rounds
import Effectful.Work.Evaluation
/-!
# Work of one thread

Work without pairs whose callbacks are told one answer has one live place, which waits for its turn below a
stack of chains and relays. The stack is only passed through until the outcome of the place is known; then
one job climbs it. By induction on the work, whatever the stack above it, the executor comes to what the
direct reading of the work comes to.
-/
namespace Effectful

open Filter

universe u

namespace Task

variable {R W α β γ : Type}

/-- A relay above a task. A relay of a relay is one relay. -/
def relayed (t : Task R W α) (steps : Nat) : Task R W α :=
  match t with
  | relay child more => relay child (more + steps + 1)
  | t => relay t steps

@[simp] theorem outcome?_relayed (t : Task R W α) (steps : Nat) : (t.relayed steps).outcome? = none := by
  unfold relayed
  split <;> rfl

theorem relayed_relayed (t : Task R W α) (m n : Nat) :
    (t.relayed m).relayed n = t.relayed (m + n + 1) := by
  cases t <;> simp only [relayed]
  congr 1
  omega

theorem relayed_of_outcome {t : Task R W α} {x : Outcome α} (h : t.outcome? = some x) (steps : Nat) :
    t.relayed steps = relay t steps := by
  cases t <;> first | rfl | cases h

theorem passOn_eq (t : Task R W α) (steps : Nat) (path : Path) (q : Queue W) :
    passOn t steps path q = (t.relayed steps,if t.outcome?.isSome then q.postJob path else q) := by
  cases t <;> rfl

theorem relayed_start (work : Work R W α) (path : Path) (q : Queue W) (steps : Nat) :
    (start work path q).1.relayed steps = relay (start work path q).1 steps := by
  cases work with
  | callback register =>
    simp only [start]
    split <;> rfl
  | both left right f =>
    simp only [start,beside]
    split <;> rfl
  | _ => rfl

theorem goOn_eq {work : Work R W α} (hwork : ∀ e, work ≠ .reject e) (path : Path) (q : Queue W) :
    goOn work path q =
      if (start work path q).1.outcome?.isSome then
        (relay (start work path q).1 1,(start work path q).2.postJob path)
      else (relay (start work path q).1 0,(start work path q).2) := by
  cases work with
  | reject e => exact (hwork e rfl).elim
  | _ => rfl

section Visits

variable [View W R]

theorem visit_relayed {t : Task R W α} (h : t.outcome? = none) (steps : Nat) (here rest : Path)
    (q : Queue W) :
    visit here (t.relayed steps) rest q = ((visit here t rest q).1.relayed steps,
      if (visit here t rest q).1.outcome?.isSome then (visit here t rest q).2.postJob here
      else (visit here t rest q).2) := by
  cases t with
  | relay child more =>
    change visit here (relay child (more + steps + 1)) rest q = _
    cases hc : child.outcome? with
    | none =>
      rw [visit_relay hc,visit_relay hc,passOn_eq,passOn_eq,relayed_relayed,outcome?_relayed]
      rfl
    | some x =>
      cases rest with
      | nil =>
        cases more with
        | zero =>
          simp only [visit,hc,Nat.zero_add,relayed_of_outcome hc]
          rfl
        | succ more =>
          simp only [visit,hc,Nat.succ_add]
          rfl
      | cons side rest =>
        simp only [visit,hc]
        rfl
  | settled result => cases h
  | asleep | listening | silent | chain | pair =>
    exact (visit_relay h steps here rest q).trans (passOn_eq ..)

end Visits

/-- The stack above a live place, from the inside out. -/
inductive Stack (R W : Type) : Type → Type → Type 1
  | bare {α : Type} : Stack R W α α
  | chain {α β γ : Type} (f : β → R → Work R W α) (s : Stack R W α γ) : Stack R W β γ
  | relay {α γ : Type} (steps : Nat) (s : Stack R W α γ) : Stack R W α γ

namespace Stack

def plug {α γ : Type} : Stack R W α γ → Task R W α → Task R W γ
  | bare, t => t
  | chain f s, t => plug s (.chain t f none)
  | relay steps s, t => plug s (t.relayed steps)

/-- The queue with the job that a stack asks for above a place whose outcome is known. -/
def notify {α γ : Type} (s : Stack R W α γ) (t : Task R W α) (q : Queue W) : Queue W :=
  match s with
  | bare => q
  | chain .. | relay .. => if t.outcome?.isSome then q.postJob [] else q

theorem notify_world (s : Stack R W α γ) (t : Task R W α) (q : Queue W) : (s.notify t q).world = q.world := by
  cases s <;> simp only [notify] <;> split <;> rfl

def executor (s : Stack R W α γ) (place : Task R W α × Queue W) : Executor R W γ :=
  ⟨s.plug place.1,s.notify place.1 place.2⟩

theorem executor_eq (s : Stack R W α γ) {t : Task R W α} (h : t.outcome? = none) (q : Queue W) :
    s.executor (t, q) = ⟨s.plug t,q⟩ := by
  cases s <;> simp only [executor,notify,h] <;> rfl

theorem executor_above (s : Stack R W α γ) (child : Task R W β) (f : β → R → Work R W α) (q : Queue W) :
    s.executor (above child f [] q) = (chain f s).executor (child, q) :=
  s.executor_eq rfl _

theorem executor_goOn (s : Stack R W α γ) {work : Work R W α} (hwork : ∀ e, work ≠ .reject e)
    (q : Queue W) : ∃ steps, s.executor (goOn work [] q) = (relay steps s).executor (start work [] q) := by
  have hrelay := relayed_start work [] q
  rw [goOn_eq hwork]
  split
  case isTrue h => exact ⟨1,by rw [s.executor_eq rfl]; simp only [executor,plug,notify,hrelay,h]; rfl⟩
  case isFalse h => exact ⟨0,by rw [s.executor_eq rfl]; simp only [executor,plug,notify,hrelay,h]; rfl⟩

theorem executor_goOn_cases (s : Stack R W α γ) (work : Work R W α) (q : Queue W) :
    s.executor (goOn work [] q) = s.executor (start work [] q) ∨
      ∃ steps, s.executor (goOn work [] q) = (relay steps s).executor (start work [] q) := by
  cases work with
  | reject e => exact .inl rfl
  | _ => exact .inr (s.executor_goOn (fun _ he => by cases he) q)

theorem executor_chain (s : Stack R W α γ) {t : Task R W β} {x : Outcome β} (h : t.outcome? = some x)
    (f : β → R → Work R W α) (w : W) (turns : List (Turn W)) :
    (chain f s).executor (t, { world := w, turns }) =
      ⟨s.plug (.chain t f none),{ world := w, jobs := [[]], turns }⟩ := by
  simp only [executor,plug,notify,h]
  rfl

theorem executor_relay (s : Stack R W α γ) {t : Task R W α} {x : Outcome α} (h : t.outcome? = some x) (steps : Nat)
    (w : W) (turns : List (Turn W)) :
    (relay steps s).executor (t, { world := w, turns }) =
      ⟨s.plug (.relay t steps),{ world := w, jobs := [[]], turns }⟩ := by
  simp only [executor,plug,notify,relayed_of_outcome h,h]
  rfl

variable [View W R]

theorem visit_plug (s : Stack R W α γ) {t : Task R W α} (h : t.outcome? = none) (rest : Path)
    (q : Queue W) :
    visit [] (s.plug t) rest q =
      (s.plug (visit [] t rest q).1,s.notify (visit [] t rest q).1 (visit [] t rest q).2) := by
  induction s with
  | bare => rfl
  | chain f s ih =>
    change visit [] (s.plug (.chain t f none)) rest q = _
    rw [ih rfl,visit_chain h]
    cases s <;> rfl
  | relay steps s ih =>
    change visit [] (s.plug (t.relayed steps)) rest q = _
    rw [ih (outcome?_relayed t steps),visit_relayed h]
    cases s <;> simp only [notify,outcome?_relayed] <;> rfl

/-- Below a stack, a task whose outcome is not known does what it does alone. -/
theorem advance_plug (s : Stack R W α γ) {t : Task R W α} (h : t.outcome? = none) (q : Queue W) :
    (Executor.mk (s.plug t) q).advance =
      s.executor ((Executor.mk t q).advance.task,(Executor.mk t q).advance.queue) := by
  obtain ⟨w,jobs,turns⟩ := q
  rcases jobs with _ | ⟨path,jobs⟩
  · rcases turns with _ | ⟨path | effect,turns⟩
    · exact (s.executor_eq h _).symm
    · have hvisit := visit_plug s h path { world := w, turns }
      simp only [Executor.advance,hvisit]
      rfl
    · exact (s.executor_eq h _).symm
  · have hvisit := visit_plug s h path { world := w, jobs, turns }
    simp only [Executor.advance,hvisit]
    rfl

theorem advance_chain_ok (s : Stack R W α γ) {t : Task R W β} {a : β} (h : t.outcome? = some (.ok a))
    (f : β → R → Work R W α) (w : W) (turns : List (Turn W)) :
    ((chain f s).executor (t, { world := w, turns })).advance =
      s.executor (goOn (f a (View.look w)) [] { world := w, turns }) := by
  rw [executor_chain s h,advance_plug s rfl]
  simp only [Executor.advance,visit,h]

theorem advance_chain_error (s : Stack R W α γ) {t : Task R W β} {e : Failure}
    (h : t.outcome? = some (.error e)) (f : β → R → Work R W α) (w : W) (turns : List (Turn W)) :
    ((chain f s).executor (t, { world := w, turns })).advance =
      s.executor (.chain t f (some e), { world := w, turns }) := by
  rw [executor_chain s h,advance_plug s rfl]
  simp only [Executor.advance,visit,h]

theorem advance_relay_zero (s : Stack R W α γ) {t : Task R W α} {x : Outcome α} (h : t.outcome? = some x) (w : W)
    (turns : List (Turn W)) :
    ((relay 0 s).executor (t, { world := w, turns })).advance = s.executor (t, { world := w, turns }) := by
  rw [executor_relay s h,advance_plug s rfl]
  simp only [Executor.advance,visit,h]

theorem advance_relay_succ (s : Stack R W α γ) {t : Task R W α} {x : Outcome α} (h : t.outcome? = some x)
    (steps : Nat) (w : W) (turns : List (Turn W)) :
    ((relay (steps + 1) s).executor (t, { world := w, turns })).advance =
      (relay steps s).executor (t, { world := w, turns }) := by
  rw [executor_relay s h,executor_relay s h,advance_plug s rfl]
  simp only [Executor.advance,visit,h]
  exact executor_eq s rfl _

theorem relay_reaches (s : Stack R W α γ) {t : Task R W α} {x : Outcome α} (h : t.outcome? = some x)
    (steps : Nat) (w : W) (turns : List (Turn W)) :
    ((relay steps s).executor (t, { world := w, turns })).Reaches
      (s.executor (t, { world := w, turns })) := by
  induction steps with
  | zero =>
    apply Executor.Reaches.head
    rw [advance_relay_zero s h]
    exact .refl _
  | succ steps ih =>
    apply Executor.Reaches.head
    rw [advance_relay_succ s h]
    exact ih

end Stack

end Task

/-- A reply that tells one answer: at once, or on one later turn. -/
def Reply.Once {W α : Type} : Reply W α → Prop
  | ⟨_ :: _,later⟩ => later = []
  | ⟨[],later⟩ => ∃ first, later = [first]

namespace Work

variable {R W α γ : Type}

/-- Work without pairs whose callbacks are told one answer. -/
def OneThread {α : Type} : Work R W α → Prop
  | answer _ | reject _ | delay _ => True
  | fork w => OneThread w
  | callback register => ∀ w reply, (register w).1 = .ok reply → reply.Once
  | andThen w f => OneThread w ∧ ∀ b r, OneThread (f b r)
  | both .. => False

theorem oneThread_of_uses {F : Type → Type u} (driver : String) {t : Translator F (Work R W)} {p : Program R F α}
    (hp : p.Uses fun op => ∀ work, t.apply op = .ok work → work.OneThread) (r : R) {work : Work R W α}
    (h : p.interpret driver t context r = .ok work) : work.OneThread := by
  refine hp.interpret_holds driver (context : Context R (Work R W)) OneThread (fun _ => trivial)
    (fun {_ _ _ f} hm hf => ⟨hm,fun b r => ?_⟩) r h
  change (ofOutcome (f b r)).OneThread
  cases hnext : f b r with
  | ok next => exact hf b r hnext
  | error e => trivial

theorem oneThread_interpret {F : Type → Type u} (driver : String) (t : Translator F (Work R W))
    (ht : ∀ {β : Type} (op : F β) {work : Work R W β}, t.apply op = .ok work → work.OneThread)
    (p : Program R F α) (r : R) {work : Work R W α}
    (h : p.interpret driver t context r = .ok work) : work.OneThread :=
  oneThread_of_uses driver (Program.uses_of_forall (fun op _ => ht op) p) r h

variable [View W R]

/-- Below any stack, started work of one thread comes to a place with the outcome of its direct reading, in
the world that the reading leaves, and with nothing left to run but what the stack asks for. -/
theorem start_reaches {work : Work R W α} (hone : work.OneThread) (s : Task.Stack R W α γ) (w : W) :
    ∃ t : Task R W α, t.outcome? = some (work.eval w).1 ∧
      (s.executor (Task.start work [] { world := w })).Reaches
        (s.executor (t, { world := (work.eval w).2 })) := by
  induction work generalizing γ w with
  | answer a => exact ⟨.settled (.ok a),rfl,.refl _⟩
  | reject e => exact ⟨.settled (.error e),rfl,.refl _⟩
  | delay t => exact ⟨.settled (t w).1,rfl,.refl _⟩
  | fork work ih =>
    obtain ⟨t,ht,hr⟩ := ih hone s w
    refine ⟨t,ht,.head ?_⟩
    change (s.executor (.asleep work, { world := w, turns := [.resume []] })).advance.Reaches _
    rw [s.executor_eq rfl,s.advance_plug rfl]
    exact hr
  | callback register =>
    have hreply := hone w
    rcases hreg : register w with ⟨⟨now,later⟩ | e,w'⟩
    · have hnow := hreply _ (by rw [hreg])
      cases now with
      | cons a now =>
        obtain rfl : later = [] := hnow
        simp only [Task.start,Queue.perform,eval,Action.andThen,hreg]
        exact ⟨.settled (.ok a),rfl,.refl _⟩
      | nil =>
        obtain ⟨first,rfl⟩ : ∃ first, later = [first] := hnow
        simp only [Task.start,Queue.perform,eval,Action.andThen,hreg]
        refine ⟨.settled (.ok (first w').1),rfl,.head ?_⟩
        change (s.executor (.listening first, { world := w', turns := [.resume []] })).advance.Reaches _
        rw [s.executor_eq rfl,s.advance_plug rfl]
        exact .refl _
    · simp only [Task.start,Queue.perform,eval,Action.andThen,hreg]
      exact ⟨.settled (.error e),rfl,.refl _⟩
  | andThen work f ih ihf =>
    obtain ⟨t,ht,hr⟩ := ih hone.1 (.chain f s) w
    rw [← s.executor_above] at hr
    simp only [eval,Action.andThen]
    rcases hw : work.eval w with ⟨a | e,w'⟩ <;> rw [hw] at ht hr <;> dsimp only at ht hr ⊢
    · have hnext := s.advance_chain_ok ht f w' []
      by_cases hwork : ∃ e, f a (View.look w') = reject e
      · obtain ⟨e,he⟩ := hwork
        refine ⟨.settled (.error e),by rw [he]; rfl,hr.trans (.head ?_)⟩
        rw [hnext,he]
        exact .refl _
      · obtain ⟨steps,hgo⟩ := s.executor_goOn (fun e he => hwork ⟨e,he⟩) { world := w' }
        obtain ⟨t',ht',hr'⟩ := ihf a (View.look w') (hone.2 a _) (.relay steps s) w'
        refine ⟨t',ht',hr.trans (.head ?_)⟩
        rw [hnext,hgo]
        exact hr'.trans (s.relay_reaches ht' steps _ [])
    · refine ⟨.chain t f (some e),rfl,hr.trans (.head ?_)⟩
      rw [s.advance_chain_error ht f w' []]
      exact .refl _
  | both left right f => exact hone.elim

theorem run_eq_eval {work : Work R W α} (hone : work.OneThread) (w : W) :
    ∀ᶠ fuel in atTop, work.run fuel w = work.eval w := by
  obtain ⟨t,ht,hr⟩ := start_reaches hone .bare w
  filter_upwards [hr.eventually_drain rfl] with fuel hfuel
  have hstart : Executor.start work w =
      Task.Stack.bare.executor (Task.start work [] { world := w }) := rfl
  simp only [run,hstart,hfuel]
  change (t.outcome?.getD _,(work.eval w).2) = _
  rw [ht]
  rfl

end Work

end Effectful
