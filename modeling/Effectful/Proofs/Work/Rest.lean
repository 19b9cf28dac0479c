import Effectful.Proofs.Work.Requests
/-!
# Work comes to rest

A visit brings a waiting place forward, and new work comes from a continuation only, which belongs to the work
that was started. So a task can be visited only so often, and an executor runs out of jobs and turns.
-/
namespace Effectful

variable {R W α β γ : Type}

namespace Task

theorem awaits_of_relayed {t : Task R W α} {steps : Nat} {m : Multiset Path} (h : (t.relayed steps).Awaits m)
    (hx : t.outcome? = none) : t.Awaits m := by
  cases t with
  | relay child more =>
    cases h with
    | relay hchild hm => exact .relay hchild hm
    | relay_ready hchild hm => exact .relay_ready hchild hm
  | _ =>
    cases h with
    | relay _ hm => exact hm
    | relay_ready hy _ => cases hx.symm.trans hy

variable [View W R]

/-- The task that a visit to a waiting place leaves. -/
def Visited (t' t : Task R W α) : Prop :=
  ∃ path n here q, t.Awaits (path ::ₘ n) ∧ t' = (visit here t path q).1

/-- Every series of visits to waiting places of the task comes to an end. -/
abbrev Finite (t : Task R W α) : Prop := Acc Visited t

theorem Finite.intro {t : Task R W α}
    (h : ∀ path n here q, t.Awaits (path ::ₘ n) → (visit here t path q).1.Finite) : t.Finite := by
  refine Acc.intro t fun t' ht => ?_
  obtain ⟨path,n,here,q,hm,rfl⟩ := ht
  exact h path n here q hm

theorem finite_of_awaits_zero {t : Task R W α} (h : ∀ m, t.Awaits m → m = 0) : t.Finite :=
  .intro fun _ _ _ _ hm => absurd (h _ hm) Multiset.cons_ne_zero

theorem finite_settled (x : Outcome α) : (settled x : Task R W α).Finite := by
  refine finite_of_awaits_zero fun m hm => ?_
  cases hm
  rfl

theorem finite_silent : (silent : Task R W α).Finite := by
  refine finite_of_awaits_zero fun m hm => ?_
  cases hm
  rfl

theorem finite_chain_failed {child : Task R W β} (h : child.Finite) (f : β → R → Work R W α) (e : Failure) :
    (chain child f (some e)).Finite := by
  induction h with
  | intro child _ ih =>
    refine .intro fun path n here q hm => ?_
    cases hm with
    | chain_failed _ hchild => exact ih _ ⟨path,n,here,q,hchild,rfl⟩

theorem path_cases {path : Path} {n m : Multiset Path} (h : path ::ₘ n = [] ::ₘ m) :
    path = [] ∨ ∃ side rest k, path = side :: rest ∧ m = path ::ₘ k := by
  rcases Multiset.cons_eq_cons.mp h with ⟨hpath,-⟩ | ⟨hne,k,-,hk⟩
  · exact .inl hpath
  · obtain ⟨side,rest,rfl⟩ := List.exists_cons_of_ne_nil hne
    exact .inr ⟨side,rest,k,rfl,hk⟩

theorem Finite.relayed {t : Task R W α} (h : t.Finite) (steps : Nat) : (t.relayed steps).Finite := by
  induction h generalizing steps with
  | intro t ht ih =>
    cases hx : t.outcome? with
    | none =>
      refine .intro fun path n here q hm => ?_
      rw [visit_relayed hx]
      exact ih _ ⟨path,n,here,q,awaits_of_relayed hm hx,rfl⟩ steps
    | some x =>
      rw [relayed_of_outcome hx]
      induction steps using Nat.strongRecOn with
      | ind steps hsteps =>
        refine .intro fun path n here q hm => ?_
        generalize hk : path ::ₘ n = k at hm
        cases hm with
        | relay hnone _ => cases hnone.symm.trans hx
        | relay_ready _ hchild =>
          rcases path_cases hk with rfl | ⟨side,rest,k,rfl,rfl⟩ <;> simp only [visit,hx]
          · cases steps with
            | zero => exact Acc.intro t ht
            | succ steps => exact hsteps steps steps.lt_succ_self
          · rw [← relayed_of_outcome (outcome?_visit hx here (side :: rest) q)]
            exact ih _ ⟨_,k,here,q,hchild,rfl⟩ steps

theorem Finite.chain {child : Task R W β} (h : child.Finite) {f : β → R → Work R W α}
    (hf : ∀ b r here q, (goOn (f b r) here q).1.Finite) : (chain child f none).Finite := by
  induction h with
  | intro child hchild ih =>
    refine .intro fun path n here q hm => ?_
    generalize hk : path ::ₘ n = k at hm
    cases hm with
    | chain hnone hm =>
      subst hk
      rw [visit_chain hnone]
      exact ih _ ⟨path,n,here,q,hm,rfl⟩
    | @chain_ready _ _ _ _ _ x hx hm =>
      cases x with
      | ok b =>
        simp only [visit,hx]
        exact hf b _ here q
      | error e =>
        rcases path_cases hk with rfl | ⟨side,rest,k,rfl,rfl⟩ <;> simp only [visit,hx]
        · exact finite_chain_failed (Acc.intro child hchild) f e
        · exact ih _ ⟨_,k,here,q,hm,rfl⟩

theorem Finite.pair {left : Task R W β} {right : Task R W γ} (hl : left.Finite) (hr : right.Finite)
    (f : β → γ → R → Outcome α) (failure : Option Failure) (steps : Nat) :
    (pair left right f failure steps).Finite := by
  -- A visit to a side may give the pair two jobs more, so the jobs are counted below both sides.
  induction hl generalizing right failure steps with
  | intro left hl ihl =>
    induction hr generalizing failure steps with
    | intro right hr ihr =>
      have hsides : ∀ failure steps path n here q {m k}, left.Awaits m → right.Awaits k →
          path ::ₘ n = sides m k → (visit here (Task.pair left right f failure steps) path q).1.Finite := by
        intro failure steps path n here q m k hm hk hpath
        rcases cons_eq_sides hpath with ⟨rest,m',rfl,rfl,rfl⟩ | ⟨rest,k',rfl,rfl,rfl⟩
        · obtain ⟨failure',steps',h⟩ := visit_pair_left left right f failure steps here rest q
          rw [h]
          exact ihl _ ⟨rest,m',_,q,hm,rfl⟩ (Acc.intro right hr) _ _
        · obtain ⟨failure',steps',h⟩ := visit_pair_right left right f failure steps here rest q
          rw [h]
          exact ihr _ ⟨rest,k',_,q,hk,rfl⟩ _ _
      induction steps using Nat.strongRecOn with
      | ind steps hsteps =>
        refine .intro fun path n here q hm => ?_
        generalize hp : path ::ₘ n = p at hm
        cases hm with
        | pair _ hm hk => exact hsides none 2 path n here q hm hk hp
        | pair_failed hm hk => exact hsides _ 0 path n here q hm hk hp
        | @pair_joining _ _ _ a b _ steps hlast =>
          obtain ⟨rfl,rfl⟩ := (Multiset.singleton_eq_cons_iff _).mp hp.symm
          obtain rfl | rfl : steps = 0 ∨ steps = 1 := by omega
          · exact finite_settled _
          · exact hsteps 1 Nat.one_lt_two
        | @pair_failing _ _ _ _ _ _ m k e steps hlast hm hk =>
          rcases Multiset.cons_eq_cons.mp hp with ⟨rfl,-⟩ | ⟨-,n',-,hsides'⟩
          · obtain rfl | rfl : steps = 0 ∨ steps = 1 := by omega
            · exact hsteps 0 Nat.zero_lt_one
            · exact hsteps 1 Nat.one_lt_two
          · exact hsides _ _ path n' here q hm hk hsides'.symm

/-- The visits to the places of started work come to an end. -/
theorem finite_start (work : Work R W α) (here : Path) (q : Queue W) : (start work here q).1.Finite := by
  induction work generalizing here q with
  | answer a => exact finite_settled _
  | reject e => exact finite_settled _
  | delay t => exact finite_settled _
  | fork work ih =>
    refine .intro fun path n here q hm => ?_
    exact ih here q
  | callback register =>
    rw [start_callback]
    rcases q.perform register with ⟨⟨now,later⟩ | e,q'⟩
    · cases now with
      | cons a now => exact finite_settled _
      | nil =>
        cases later with
        | nil => exact finite_silent
        | cons answer later => exact .intro fun path n here q hm => finite_settled _
    · exact finite_settled _
  | andThen work f ih ihf =>
    refine (ih here q).chain fun b r here q => ?_
    by_cases hwork : ∃ e, f b r = .reject e
    · obtain ⟨e,he⟩ := hwork
      rw [he]
      exact finite_settled _
    · have hrelay := fun steps => (ihf b r here q).relayed steps
      rw [goOn_eq (fun e he => hwork ⟨e,he⟩)]
      split
      · exact relayed_start (f b r) here q 1 ▸ hrelay 1
      · exact relayed_start (f b r) here q 0 ▸ hrelay 0
  | both left right f ihl ihr =>
    obtain ⟨failure,hpair⟩ := beside_pair (start left (here ++ [.left]) q).1
      (start right (here ++ [.right]) (start left (here ++ [.left]) q).2).1 f here
      (start right (here ++ [.right]) (start left (here ++ [.left]) q).2).2
    change (beside _ _ f here _).1.Finite
    rw [hpair]
    exact (ihl _ _).pair (ihr _ _) f failure 2

end Task

namespace Executor

variable [View W R]

theorem Sound.reaches {e e' : Executor R W α} (h : e.Sound) (hr : e.Reaches e') : e'.Sound := by
  obtain ⟨n,rfl⟩ := hr
  exact Function.Iterate.rec (fun e : Executor R W α => e.Sound) h (fun _ => Sound.advance) n

theorem Sound.rests {e : Executor R W α} (h : e.Sound) (hfin : e.task.Finite) :
    ∃ e' : Executor R W α, e.Reaches e' ∧ e'.isIdle = true := by
  obtain ⟨task,q⟩ := e
  change task.Finite at hfin
  induction hfin generalizing q with
  | intro task _ ih =>
    have hvisit : ∀ {q q' : Queue W} {path : Path}, q.Next path q' → Sound ⟨task,q⟩ →
        ∃ e' : Executor R W α, (Executor.mk task q).Reaches e' ∧ e'.isIdle = true := by
      intro q q' path hnext hsound
      have hm : task.Awaits (path ::ₘ q'.requests) := hnext.requests_eq ▸ hsound
      obtain ⟨e',hr,hidle⟩ := ih _ ⟨path,q'.requests,[],q',hm,rfl⟩ _ (hnext.advance_eq task ▸ hsound.advance)
      exact ⟨e',.head (hnext.advance_eq task ▸ hr),hidle⟩
    obtain ⟨w,jobs,turns⟩ := q
    induction turns generalizing w jobs with
    | nil =>
      cases jobs with
      | nil => exact ⟨_,.refl _,rfl⟩
      | cons path jobs => exact hvisit (.job ..) h
    | cons turn turns ihturns =>
      cases jobs with
      | cons path jobs => exact hvisit (.job ..) h
      | nil =>
        cases turn with
        | resume path => exact hvisit (.turn ..) h
        | stray effect =>
          obtain ⟨e',hr,hidle⟩ := ihturns (effect w) [] h.advance
          exact ⟨e',.head hr,hidle⟩

end Executor

/-- Started on an executor of its own, work comes to rest, with nothing left to wait for. -/
theorem Work.rests [View W R] (work : Work R W α) (w : W) :
    ∃ e : Executor R W α, (Executor.start work w).Reaches e ∧ e.isIdle = true ∧ e.task.Awaits 0 := by
  have hsound : (Executor.start work w).Sound := Executor.sound_start work (q := { world := w }) ⟨rfl,List.forall_mem_nil _⟩
  obtain ⟨e,hr,hidle⟩ := hsound.rests (Task.finite_start work [] _)
  have hrequests : e.queue.requests = 0 := by
    obtain ⟨hjobs,hturns⟩ := Executor.isIdle_iff.mp hidle
    simp [Queue.requests,hjobs,hturns]
  exact ⟨e,hr,hidle,hrequests ▸ hsound.reaches hr⟩

end Effectful
