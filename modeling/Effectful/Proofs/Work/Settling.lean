import Effectful.Proofs.Work.Requests
/-!
# Work that is waited for

What a piece of work comes to is the first outcome that is known of it. Below the continuations that wait for it,
the work runs as it does alone until then, and when it answers it leaves nothing behind but late effects. So whoever
waits for it may look at it as if it ran alone.
-/
namespace Effectful

variable {R W α β γ : Type}

namespace Executor

variable [View W R]

/-- The executor runs until the outcome of its task is known. It is `x`, and the queue is `q` then. -/
inductive Settles : Executor R W α → Outcome α → Queue W → Prop
  | now {e : Executor R W α} {x : Outcome α} : e.task.outcome? = some x → Settles e x e.queue
  | later {e : Executor R W α} {x : Outcome α} {q : Queue W} :
      e.task.outcome? = none → Settles e.advance x q → Settles e x q

def Silent (e : Executor R W α) : Prop := ∀ n, (advance^[n] e).task.outcome? = none

variable {e : Executor R W α} {x y : Outcome α} {q q' : Queue W}

theorem outcome?_iterate (h : e.task.outcome? = some x) (n : Nat) :
    (advance^[n] e).task.outcome? = some x :=
  iterate_task (P := fun t => t.outcome? = some x) (fun _ path q ht => Task.outcome?_visit ht [] path q) h n

theorem Settles.unique (h : e.Settles x q) (h' : e.Settles y q') : x = y ∧ q = q' := by
  induction h with
  | now hx =>
    cases h' with
    | now hy => exact ⟨Option.some.inj (hx.symm.trans hy),rfl⟩
    | later hnone _ => cases hnone.symm.trans hx
  | later hnone _ ih =>
    cases h' with
    | now hy => cases hnone.symm.trans hy
    | later _ hrest => exact ih hrest

theorem Settles.quiet (h : e.Settles x q) (hsound : e.Sound) {a : α} (hx : x = .ok a) : q.Quiet := by
  induction h with
  | now hy => exact hsound.quiet (hx ▸ hy)
  | later _ _ ih => exact ih hsound.advance hx

theorem silent_or_settles (e : Executor R W α) : e.Silent ∨ ∃ x q, e.Settles x q := by
  refine or_iff_not_imp_left.mpr fun hsilent => ?_
  obtain ⟨n,hn⟩ := not_forall.mp hsilent
  induction n generalizing e with
  | zero =>
    obtain ⟨x,hx⟩ := Option.ne_none_iff_exists'.mp hn
    exact ⟨x,e.queue,.now hx⟩
  | succ n ih =>
    cases hx : e.task.outcome? with
    | some x => exact ⟨x,e.queue,.now hx⟩
    | none =>
      obtain ⟨x,q,hrest⟩ := ih e.advance (fun h => hn (h n)) hn
      exact ⟨x,q,.later hx hrest⟩

end Executor

namespace Task.Stack

theorem outcome?_plug (s : Stack R W α γ) {t : Task R W α} (h : t.outcome? = none) :
    (s.plug t).outcome? = none := by
  induction s with
  | bare => exact h
  | chain f s ih => exact ih rfl
  | relay steps s ih => exact ih (outcome?_relayed ..)

variable [View W R]

/-- Below a stack, a task comes to its outcome as it does alone. -/
theorem settles_reaches {e : Executor R W α} {x : Outcome α} {q : Queue W} (h : e.Settles x q) :
    ∃ t : Task R W α, t.outcome? = some x ∧ e.Reaches ⟨t,q⟩ ∧
      ∀ {γ : Type} (s : Stack R W α γ), (s.executor (e.task,e.queue)).Reaches (s.executor (t,q)) := by
  induction h with
  | @now e x hx => exact ⟨e.task,hx,.refl _,fun s => .refl _⟩
  | later hnone _ ih =>
    obtain ⟨t,ht,halone,hr⟩ := ih
    refine ⟨t,ht,.head halone,fun s => .head ?_⟩
    rw [s.executor_eq hnone,s.advance_plug hnone]
    exact hr s

theorem iterate_silent (s : Stack R W α γ) {e : Executor R W α} (h : e.Silent) (n : Nat) :
    Executor.advance^[n] (s.executor (e.task,e.queue)) =
      s.executor ((Executor.advance^[n] e).task,(Executor.advance^[n] e).queue) := by
  induction n with
  | zero => rfl
  | succ n ih =>
    rw [Function.iterate_succ_apply',Function.iterate_succ_apply',ih,s.executor_eq (h n),s.advance_plug (h n)]

theorem silent (s : Stack R W α γ) {e : Executor R W α} (h : e.Silent) :
    (s.executor (e.task,e.queue)).Silent := by
  intro n
  rw [s.iterate_silent h]
  exact s.outcome?_plug (h n)

end Task.Stack

namespace Task

/-- The task comes to the failure `e`, if it comes to anything. -/
inductive Sinks (e : Failure) : {α : Type} → Task R W α → Prop
  | here {α : Type} {t : Task R W α} : t.outcome? = some (.error e) → Sinks e t
  | chain {α β : Type} {child : Task R W β} {f : β → R → Work R W α} :
      Sinks e child → Sinks e (chain child f none)
  | relay {α : Type} {child : Task R W α} {steps : Nat} : Sinks e child → Sinks e (relay child steps)

namespace Sinks

variable {e : Failure}

theorem outcome?_eq {t : Task R W α} (h : t.Sinks e) {x : Outcome α} (hx : t.outcome? = some x) :
    x = .error e := by
  cases h with
  | here h => exact Option.some.inj (hx.symm.trans h)
  | chain => cases hx
  | relay => cases hx

theorem relayed {t : Task R W α} (h : t.Sinks e) (steps : Nat) : (t.relayed steps).Sinks e := by
  cases h with
  | here h =>
    rw [relayed_of_outcome h]
    exact .relay (.here h)
  | chain h => exact .relay (.chain h)
  | relay h => exact .relay h

theorem plug {t : Task R W α} (h : t.Sinks e) (s : Stack R W α γ) : (s.plug t).Sinks e := by
  induction s with
  | bare => exact h
  | chain f s ih => exact ih (.chain h)
  | relay steps s ih => exact ih (h.relayed steps)

theorem visit [View W R] {t : Task R W α} (h : t.Sinks e) (here rest : Path) (q : Queue W) :
    (visit here t rest q).1.Sinks e := by
  induction h generalizing rest q with
  | here h => exact .here (outcome?_visit h here rest q)
  | @chain _ _ child f h ih =>
    cases hx : child.outcome? with
    | none =>
      rw [visit_chain hx]
      exact .chain (ih rest q)
    | some x =>
      obtain rfl := h.outcome?_eq hx
      cases rest with
      | nil =>
        simp only [Task.visit,hx]
        exact .here rfl
      | cons side rest =>
        simp only [Task.visit,hx]
        exact .chain (ih _ q)
  | @relay _ child steps h ih =>
    cases hx : child.outcome? with
    | none =>
      rw [visit_relay hx,passOn_eq]
      exact (ih rest q).relayed steps
    | some x =>
      cases rest with
      | nil =>
        simp only [Task.visit,hx]
        cases steps with
        | zero => exact h
        | succ steps => exact .relay h
      | cons side rest =>
        simp only [Task.visit,hx]
        exact .relay (ih _ q)

end Sinks

end Task

end Effectful
