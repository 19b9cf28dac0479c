import Effectful.Work.Executor
import Mathlib.Logic.Function.Iterate
import Mathlib.Order.Filter.AtTopBot.Basic
/-!
# Rounds of the executor

To drain an executor is to repeat its rounds; an executor that has nothing left to run stays as it is, so
what is reached once nothing is left is what every longer run comes to.
-/
namespace Effectful

open Filter

variable {R W α : Type}

namespace Executor

theorem isIdle_iff {e : Executor R W α} : e.isIdle = true ↔ e.queue.jobs = [] ∧ e.queue.turns = [] := by
  simp only [isIdle,Bool.and_eq_true,List.isEmpty_iff]

variable [View W R]

theorem iterate_task {P : Task R W α → Prop} (hP : ∀ t path q, P t → P (Task.visit [] t path q).1)
    {e : Executor R W α} (h : P e.task) (n : Nat) : P (advance^[n] e).task := by
  refine Function.Iterate.rec (fun e : Executor R W α => P e.task) h (fun e he => ?_) n
  obtain ⟨task,⟨world,jobs,turns⟩⟩ := e
  rcases jobs with _ | ⟨path,jobs⟩
  · rcases turns with _ | ⟨path | effect,turns⟩
    · exact he
    · exact hP task path _ he
    · exact he
  · exact hP task path _ he

theorem advance_of_isIdle {e : Executor R W α} (h : e.isIdle = true) : e.advance = e := by
  obtain ⟨task,⟨world,jobs,turns⟩⟩ := e
  obtain ⟨hj,ht⟩ := isIdle_iff.mp h
  change jobs = [] at hj
  change turns = [] at ht
  subst hj
  subst ht
  rfl

theorem drain_eq_iterate (n : Nat) (e : Executor R W α) : e.drain n = advance^[n] e := by
  induction n generalizing e with
  | zero => rfl
  | succ n ih =>
    rw [drain,Function.iterate_succ_apply]
    split
    case isTrue h => rw [advance_of_isIdle h,Function.iterate_fixed (advance_of_isIdle h)]
    case isFalse => exact ih e.advance

/-- Some number of rounds leads from one executor to another. -/
def Reaches (e e' : Executor R W α) : Prop := ∃ n, advance^[n] e = e'

namespace Reaches

variable {e e' e'' : Executor R W α}

theorem refl (e : Executor R W α) : e.Reaches e := ⟨0,rfl⟩

theorem head (h : e.advance.Reaches e') : e.Reaches e' := by
  obtain ⟨n,hn⟩ := h
  exact ⟨n + 1,by rw [Function.iterate_succ_apply,hn]⟩

theorem trans (h : e.Reaches e') (h' : e'.Reaches e'') : e.Reaches e'' := by
  obtain ⟨n,hn⟩ := h
  obtain ⟨m,hm⟩ := h'
  exact ⟨m + n,by rw [Function.iterate_add_apply,hn,hm]⟩

/-- Once nothing is left to run, more rounds change nothing. -/
theorem eventually_drain (h : e.Reaches e') (hidle : e'.isIdle = true) :
    ∀ᶠ n in atTop, e.drain n = e' := by
  obtain ⟨n,hn⟩ := h
  filter_upwards [eventually_ge_atTop n] with m hm
  obtain ⟨k,rfl⟩ := Nat.exists_eq_add_of_le' hm
  rw [drain_eq_iterate,Function.iterate_add_apply,hn,Function.iterate_fixed (advance_of_isIdle hidle)]

end Reaches

end Executor

/-- The next place to be visited, and what is left in the queue then. -/
inductive Queue.Next : Queue W → Path → Queue W → Prop
  | job (w : W) (path : Path) (jobs : List Path) (turns : List (Turn W)) :
      Next ⟨w,path :: jobs,turns⟩ path ⟨w,jobs,turns⟩
  | turn (w : W) (path : Path) (turns : List (Turn W)) : Next ⟨w,[],.resume path :: turns⟩ path ⟨w,[],turns⟩

theorem Queue.Next.world_eq {q q' : Queue W} {path : Path} (h : q.Next path q') : q'.world = q.world := by
  cases h <;> rfl

theorem Queue.Next.turns_subset {q q' : Queue W} {path : Path} (h : q.Next path q') : q'.turns ⊆ q.turns := by
  cases h with
  | job => exact List.Subset.refl _
  | turn => exact List.subset_cons_self ..

theorem Queue.Next.advance_eq [View W R] {q q' : Queue W} {path : Path} (h : q.Next path q') (t : Task R W α) :
    (Executor.mk t q).advance = ⟨(t.visit [] path q').1,(t.visit [] path q').2⟩ := by
  cases h <;> rfl

/-- A round of the executor visits the next place, or does an effect whose answer comes too late, or nothing. -/
theorem Executor.advance_cases [View W R] (e : Executor R W α) :
    (∃ path q, e.queue.Next path q ∧ e.advance = ⟨(e.task.visit [] path q).1,(e.task.visit [] path q).2⟩) ∨
      (∃ w effect turns, e.queue = ⟨w,[],.stray effect :: turns⟩ ∧
        e.advance = ⟨e.task,⟨effect w,[],turns⟩⟩) ∨
      e.advance = e := by
  obtain ⟨task,⟨w,jobs,turns⟩⟩ := e
  rcases jobs with _ | ⟨path,jobs⟩
  · rcases turns with _ | ⟨path | effect,turns⟩
    · exact .inr (.inr rfl)
    · exact .inl ⟨path,_,.turn w path turns,rfl⟩
    · exact .inr (.inl ⟨w,effect,turns,rfl,rfl⟩)
  · exact .inl ⟨path,_,.job w path jobs turns,rfl⟩

/-- Started in a world, the work runs until nothing is left to run. It comes to the outcome `x`, and the world
is `w'` then. -/
def Work.Ends {R W α : Type} [View W R] (work : Work R W α) (w : W) (x : Outcome α) (w' : W) : Prop :=
  ∃ e, (Executor.start work w).Reaches e ∧ e.isIdle = true ∧ e.task.outcome? = some x ∧
    e.queue.world = w'

theorem Work.Ends.eventually_run {R W α : Type} [View W R] {work : Work R W α} {w w' : W} {x : Outcome α}
    (h : work.Ends w x w') : ∀ᶠ fuel in atTop, work.run fuel w = (x,w') := by
  obtain ⟨e,hr,hidle,hx,rfl⟩ := h
  filter_upwards [hr.eventually_drain hidle] with fuel hfuel
  simp only [run,hfuel,Executor.outcome,hx]
  rfl

theorem Work.Ends.unique {R W α : Type} [View W R] {work : Work R W α} {w v v' : W} {x x' : Outcome α}
    (h : work.Ends w x v) (h' : work.Ends w x' v') : x = x' ∧ v = v' := by
  obtain ⟨fuel,hv,hv'⟩ := (h.eventually_run.and h'.eventually_run).exists
  exact Prod.mk.inj (hv.symm.trans hv')

end Effectful
