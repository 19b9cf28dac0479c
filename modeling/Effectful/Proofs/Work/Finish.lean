import Effectful.Proofs.Routine.Awaiting
import Effectful.Proofs.Work.Accounts
/-!
# What work comes to when nothing is left

A run goes on after its outcome is known, as long as a side of a failed pair is left or late effects are. What is left
runs below a continuation as it does alone, since the jobs of the continuation touch nothing else. So the run of a
chain is the whole run of its work, followed by the whole run of what its continuation goes on with, provided
that work which has answered has nothing left to change.
-/
namespace Effectful

open Filter

variable {R W α β γ : Type}

theorem Queue.afterStrays_eq {w : W} {turns : List (Turn W)} (h : ∀ turn ∈ turns, ∀ w, turn.perform w = w) :
    (Queue.mk w [] turns).afterStrays = w := by
  unfold afterStrays
  dsimp only
  induction turns with
  | nil => rfl
  | cons turn turns ih =>
    rw [List.foldl_cons,h turn (List.mem_cons_self ..)]
    exact ih fun turn hmem => h turn (List.mem_cons_of_mem _ hmem)

theorem Queue.behind_nil (q : Queue W) (jobs : List Path) (turns : List (Turn W)) :
    q.behind [] jobs turns = ⟨q.world,jobs ++ q.jobs,turns ++ q.turns⟩ := by
  have hunder : (Turn.under [] : Turn W → Turn W) = id := funext Turn.under_nil
  simp [behind,hunder]

theorem Task.Awaits.root_notMem {t : Task R W α} {m : Multiset Path} (h : t.Awaits m) {x : Outcome α}
    (hx : t.outcome? = some x) : [] ∉ m := by
  induction h with
  | settled | silent => exact Multiset.notMem_zero _
  | chain_failed hchild _ ih => exact ih hchild
  | pair_failed => simp [sides]
  | _ => cases hx

variable [View W R]

namespace Task

theorem visit_behind_root (t : Task R W α) (rest : Path) (w : W) (jobs : List Path) (turns : List (Turn W)) :
    visit [] t rest ⟨w,jobs,turns⟩ = ((visit [] t rest ⟨w,[],[]⟩).1,⟨(visit [] t rest ⟨w,[],[]⟩).2.world,
      jobs ++ (visit [] t rest ⟨w,[],[]⟩).2.jobs,turns ++ (visit [] t rest ⟨w,[],[]⟩).2.turns⟩) := by
  rw [← Queue.behind_nil,← visit_behind [] jobs turns t [] rest ⟨w,[],[]⟩,Queue.behind_empty]
  rfl

end Task

namespace Executor

theorem Reaches.rest {e e' e'' : Executor R W α} (h : e.Reaches e') (h' : e.Reaches e'') (hidle : e''.isIdle = true) :
    e'.Reaches e'' := by
  obtain ⟨n,rfl⟩ := h
  obtain ⟨m,rfl⟩ := h'
  refine ⟨m,?_⟩
  rw [← Function.iterate_add_apply,Nat.add_comm,Function.iterate_add_apply,Function.iterate_fixed (advance_of_isIdle hidle)]

/-- The executor runs until nothing is left. It has come to `x` then, and the world is `v`. -/
def Rests (e : Executor R W α) (x : Outcome α) (v : W) : Prop :=
  ∃ e' : Executor R W α, e.Reaches e' ∧ e'.isIdle = true ∧ e'.outcome = x ∧ e'.queue.world = v

variable {e e' : Executor R W α} {x y : Outcome α} {v v' : W}

theorem Rests.head (h : e'.Rests x v) (hr : e.Reaches e') : e.Rests x v := by
  obtain ⟨e'',hr',hrest⟩ := h
  exact ⟨e'',hr.trans hr',hrest⟩

theorem Rests.tail (h : e.Rests x v) (hr : e.Reaches e') : e'.Rests x v := by
  obtain ⟨e'',hr',hidle,hrest⟩ := h
  exact ⟨e'',hr.rest hr' hidle,hidle,hrest⟩

theorem Rests.unique (h : e.Rests x v) (h' : e.Rests y v') : x = y ∧ v = v' := by
  obtain ⟨e₁,hr₁,hidle₁,rfl,rfl⟩ := h
  obtain ⟨e₂,hr₂,hidle₂,rfl,rfl⟩ := h'
  obtain ⟨n,hn⟩ := hr₁.rest hr₂ hidle₂
  rw [Function.iterate_fixed (advance_of_isIdle hidle₁)] at hn
  subst hn
  exact ⟨rfl,rfl⟩

theorem Rests.outcome_eq (h : e.Rests x v) (hy : e.task.outcome? = some y) : x = y := by
  obtain ⟨_,⟨n,rfl⟩,-,rfl,-⟩ := h
  rw [outcome,outcome?_iterate hy n]
  rfl

/-- Late effects that change nothing may run before anything else. -/
theorem reaches_past {t : Task R W α} {w : W} {jobs : List Path} {turns strays : List (Turn W)}
    (hstrays : ∀ turn ∈ strays, turn.path? = none ∧ ∀ w, turn.perform w = w)
    (h : Reaches ⟨t,⟨w,jobs,turns⟩⟩ e) (hidle : e.isIdle = true) : Reaches ⟨t,⟨w,jobs,strays ++ turns⟩⟩ e := by
  obtain ⟨n,hn⟩ := h
  have hjobless : ∀ {t : Task R W α} {w : W} {turns : List (Turn W)},
      Reaches ⟨t,⟨w,[],strays ++ turns⟩⟩ ⟨t,⟨w,[],turns⟩⟩ := by
    intro t w turns
    obtain ⟨m,hm,-⟩ := iterate_strays t w (fun turn h => (hstrays turn h).1) turns
    rw [Queue.afterStrays_eq fun turn h => (hstrays turn h).2] at hm
    exact ⟨m,hm⟩
  induction n generalizing t w jobs turns with
  | zero =>
    obtain rfl := hn
    obtain ⟨rfl,-⟩ := isIdle_iff.mp hidle
    exact hjobless
  | succ n ih =>
    cases jobs with
    | nil => exact hjobless.trans ⟨n + 1,hn⟩
    | cons path jobs =>
      have hinner := (Queue.Next.job w path jobs turns).advance_eq t
      have houter := (Queue.Next.job w path jobs (strays ++ turns)).advance_eq t
      rw [Task.visit_behind_root] at hinner houter
      rw [Function.iterate_succ_apply,hinner] at hn
      refine .head ?_
      rw [houter,List.append_assoc]
      exact ih hn

/-- A place above a task whose outcome is known comes to its own job, after those that were asked for before. -/
theorem reaches_own_job {wrap : Task R W α → Task R W β}
    (hwrap : ∀ (t : Task R W α) (side : Side) (rest : Path) (q : Queue W), t.outcome? = some x →
      (wrap t).visit [] (side :: rest) q = (wrap (t.visit [] (side :: rest) q).1,(t.visit [] (side :: rest) q).2))
    {t : Task R W α} {w : W} {pre post : List Path} {turns : List (Turn W)} (hx : t.outcome? = some x)
    (hsound : Sound ⟨t,⟨w,pre ++ post,turns⟩⟩) :
    ∃ (t' : Task R W α) (w' : W) (jobs : List Path) (turns' : List (Turn W)), t'.outcome? = some x ∧
      Reaches ⟨t,⟨w,pre ++ post,turns⟩⟩ ⟨t',⟨w',jobs,turns'⟩⟩ ∧
      Reaches ⟨wrap t,⟨w,pre ++ [] :: post,turns⟩⟩ ⟨wrap t',⟨w',[] :: jobs,turns'⟩⟩ := by
  induction pre generalizing t w post turns with
  | nil => exact ⟨t,w,post,turns,hx,.refl _,.refl _⟩
  | cons path pre ih =>
    have hnext : (Queue.mk w (path :: (pre ++ post)) turns).Next path ⟨w,pre ++ post,turns⟩ := .job ..
    have hpath : path ≠ [] := by
      intro hroot
      have hmem : path ∈ (Queue.mk w (path :: (pre ++ post)) turns).requests :=
        hnext.requests_eq ▸ Multiset.mem_cons_self ..
      exact hsound.root_notMem hx (hroot ▸ hmem)
    obtain ⟨side,rest,rfl⟩ := List.exists_cons_of_ne_nil hpath
    have hinner := hnext.advance_eq t
    have houter := (Queue.Next.job w (side :: rest) (pre ++ [] :: post) turns).advance_eq (wrap t)
    have hadvance := hsound.advance
    rw [hwrap t side rest _ hx] at houter
    rw [Task.visit_behind_root,List.append_assoc] at hinner houter
    rw [List.cons_append,hinner] at hadvance
    obtain ⟨t',w',jobs,turns',hx',hr,hr'⟩ := ih (Task.outcome?_visit hx [] (side :: rest) _) hadvance
    refine ⟨t',w',jobs,turns',hx',.head ?_,.head ?_⟩
    · rw [List.cons_append,hinner]
      exact hr
    · rw [List.cons_append,houter]
      exact hr'

theorem relay_hands_on {t : Task R W α} {q : Queue W} (hx : t.outcome? = some x) (hsound : Sound ⟨t,q⟩) (steps : Nat) :
    ∃ e' : Executor R W α, Reaches ⟨t,q⟩ e' ∧ Reaches ⟨.relay t steps,q.postJob []⟩ e' := by
  have hwrap : ∀ (steps : Nat) (t : Task R W α) (side : Side) (rest : Path) (q : Queue W), t.outcome? = some x →
      (Task.relay t steps).visit [] (side :: rest) q =
        (.relay (t.visit [] (side :: rest) q).1 steps,(t.visit [] (side :: rest) q).2) := by
    intro steps t side rest q hx
    simp only [Task.visit,hx]
  induction steps generalizing t q with
  | zero =>
    obtain ⟨w,jobs,turns⟩ := q
    have hsound' : Sound ⟨t,⟨w,jobs ++ [],turns⟩⟩ := by rwa [List.append_nil]
    obtain ⟨t',w',jobs',turns',hx',hr,hr'⟩ := reaches_own_job (hwrap 0) hx hsound'
    rw [List.append_nil] at hr
    refine ⟨_,hr,hr'.trans (.head ?_)⟩
    rw [(Queue.Next.job w' [] jobs' turns').advance_eq]
    simp only [Task.visit,hx']
    exact .refl _
  | succ steps ih =>
    obtain ⟨w,jobs,turns⟩ := q
    have hsound' : Sound ⟨t,⟨w,jobs ++ [],turns⟩⟩ := by rwa [List.append_nil]
    obtain ⟨t',w',jobs',turns',hx',hr,hr'⟩ := reaches_own_job (hwrap (steps + 1)) hx hsound'
    rw [List.append_nil] at hr
    obtain ⟨e',hrest,hrest'⟩ := ih hx' (hsound.reaches hr)
    refine ⟨e',hr.trans hrest,hr'.trans (.head ?_)⟩
    rw [(Queue.Next.job w' [] jobs' turns').advance_eq]
    simp only [Task.visit,hx']
    exact hrest'

theorem Rests.relay (h : e.Rests x v) (hsound : e.Sound) (steps : Nat) :
    ((Task.Stack.relay steps .bare).executor (e.task,e.queue)).Rests x v := by
  rcases e.silent_or_settles with hsilent | ⟨y,q,hsettles⟩
  · obtain ⟨_,⟨n,rfl⟩,hidle,rfl,rfl⟩ := h
    have hnone := hsilent n
    refine ⟨_,⟨n,Task.Stack.iterate_silent _ hsilent n⟩,?_,?_,?_⟩
    all_goals rw [Task.Stack.executor_eq _ hnone]
    · exact hidle
    · rw [outcome,outcome,hnone,Task.Stack.outcome?_plug _ hnone]
  · obtain ⟨t,ht,halone,hr⟩ := Task.Stack.settles_reaches hsettles
    have hplaced : (Task.Stack.relay steps .bare).executor (t,q) = ⟨.relay t steps,q.postJob []⟩ := by
      simp only [Task.Stack.executor,Task.Stack.plug,Task.Stack.notify,Task.relayed_of_outcome ht,ht]
      rfl
    obtain ⟨e',hinner,houter⟩ := relay_hands_on ht (hsound.reaches halone) steps
    exact ((h.tail halone).tail hinner).head ((hr _).trans (hplaced ▸ houter))

theorem Rests.chain_silent (h : e.Rests x v) (hsilent : e.Silent) (f : α → R → Work R W β) :
    x = .error .outOfFuel ∧ ((Task.Stack.chain f .bare).executor (e.task,e.queue)).Rests (.error .outOfFuel) v := by
  obtain ⟨_,⟨n,rfl⟩,hidle,rfl,rfl⟩ := h
  have hnone := hsilent n
  refine ⟨by rw [outcome,hnone]; rfl,_,⟨n,Task.Stack.iterate_silent _ hsilent n⟩,?_,?_,?_⟩
  all_goals rw [Task.Stack.executor_eq _ hnone]
  · exact hidle
  · rfl

private theorem iterate_failed (t : Task R W α) (q : Queue W) (f : α → R → Work R W β) (failure : Failure) (n : Nat) :
    advance^[n] ⟨.chain t f (some failure),q⟩ =
      ⟨.chain (advance^[n] ⟨t,q⟩).task f (some failure),(advance^[n] ⟨t,q⟩).queue⟩ := by
  induction n generalizing t q with
  | zero => rfl
  | succ n ih =>
    obtain ⟨w,jobs,turns⟩ := q
    rw [Function.iterate_succ_apply,Function.iterate_succ_apply]
    rcases jobs with _ | ⟨path,jobs⟩
    · rcases turns with _ | ⟨path | effect,turns⟩ <;> exact ih ..
    · exact ih ..

theorem Rests.chain_failed (h : e.Rests x v) (hsound : e.Sound) {failure : Failure} {q : Queue W}
    (hsettles : e.Settles (.error failure) q) (f : α → R → Work R W β) :
    ((Task.Stack.chain f .bare).executor (e.task,e.queue)).Rests (.error failure) v := by
  obtain ⟨t,ht,halone,hr⟩ := Task.Stack.settles_reaches hsettles
  obtain ⟨w,jobs,turns⟩ := q
  have hplaced : (Task.Stack.chain f .bare).executor (t,⟨w,jobs,turns⟩) =
      ⟨.chain t f none,⟨w,jobs ++ [] :: [],turns⟩⟩ := by
    simp only [Task.Stack.executor,Task.Stack.plug,Task.Stack.notify,ht]
    rfl
  have hsound' : Sound ⟨t,⟨w,jobs ++ [],turns⟩⟩ := by
    rw [List.append_nil]
    exact hsound.reaches halone
  have hwrap : ∀ (t : Task R W α) (side : Side) (rest : Path) (q : Queue W), t.outcome? = some (.error failure) →
      (Task.chain t f none).visit [] (side :: rest) q =
        (.chain (t.visit [] (side :: rest) q).1 f none,(t.visit [] (side :: rest) q).2) := by
    intro t side rest q ht
    simp only [Task.visit,ht]
  obtain ⟨t',w',jobs',turns',ht',hinner,houter⟩ := reaches_own_job hwrap ht hsound'
  rw [List.append_nil] at hinner
  obtain ⟨_,⟨n,rfl⟩,hidle,-,rfl⟩ := (h.tail halone).tail hinner
  have hfailed : Reaches ⟨.chain t' f none,⟨w',[] :: jobs',turns'⟩⟩ ⟨.chain t' f (some failure),⟨w',jobs',turns'⟩⟩ := by
    refine .head ?_
    rw [(Queue.Next.job w' [] jobs' turns').advance_eq]
    simp only [Task.visit,ht']
    exact .refl _
  refine ⟨_,(hr _).trans (hplaced ▸ houter.trans (hfailed.trans ⟨n,iterate_failed t' _ f failure n⟩)),hidle,rfl,rfl⟩

end Executor

/-- Nothing is left in the queue but late effects that change nothing. -/
def Queue.Still (q : Queue W) : Prop := q.jobs = [] ∧ ∀ turn ∈ q.turns, turn.path? = none ∧ ∀ w, turn.perform w = w

namespace Work

/-- By the time the work answers, it has done whatever it does to the world. -/
def Concludes (work : Work R W α) : Prop :=
  ∀ (w : W) (a : α) (q : Queue W), (Executor.start work w).Settles (.ok a) q → q.Still

/-- What the work comes to when nothing is left to run, and the world then. -/
noncomputable def finish (work : Work R W α) : Action W α := fun w =>
  ((work.rests w).choose.outcome,(work.rests w).choose.queue.world)

theorem rests_finish (work : Work R W α) (w : W) :
    (Executor.start work w).Rests (work.finish w).1 (work.finish w).2 :=
  ⟨(work.rests w).choose,(work.rests w).choose_spec.1,(work.rests w).choose_spec.2.1,rfl,rfl⟩

variable {work : Work R W α} {w v : W} {x : Outcome α}

theorem finish_eq (h : (Executor.start work w).Rests x v) : work.finish w = (x,v) := by
  obtain ⟨rfl,rfl⟩ := (work.rests_finish w).unique h
  rfl

theorem eventually_run_eq_finish (work : Work R W α) (w : W) : ∀ᶠ fuel in atTop, work.run fuel w = work.finish w := by
  obtain ⟨e,hr,hidle,hx,hv⟩ := work.rests_finish w
  filter_upwards [hr.eventually_drain hidle] with fuel hfuel
  rw [run,hfuel,hx,hv]

theorem finish_answer (a : α) : (answer a : Work R W α).finish = .answer a :=
  funext fun _ => finish_eq ⟨_,.refl _,rfl,rfl,rfl⟩

theorem finish_reject (e : Failure) : (reject e : Work R W α).finish = .fail e :=
  funext fun _ => finish_eq ⟨_,.refl _,rfl,rfl,rfl⟩

theorem finish_delay (t : Action W α) : (delay t : Work R W α).finish = t :=
  funext fun _ => finish_eq ⟨_,.refl _,rfl,rfl,rfl⟩

/-- A callback that is registered counts with its first answer, and late calls come after it. -/
theorem finish_callback (register : Action W (Reply W α)) :
    (callback register : Work R W α).finish = register.andThen Reply.settle := by
  have hstrays : ∀ (t : Task R W α) (later : List (W → α × W)) (w : W),
      Executor.Reaches ⟨t,(Queue.mk w [] []).postStrays later⟩ ⟨t,{ world := Reply.performStrays later w }⟩ := by
    intro t later w
    have hquiet : ((Queue.mk w [] []).postStrays later).Quiet := by
      simp [Queue.Quiet,Queue.postStrays,Turn.path?]
    have hworld : ((Queue.mk w [] []).postStrays later).afterStrays = Reply.performStrays later w := by
      simp [Queue.afterStrays,Queue.postStrays,Reply.performStrays,List.foldl_map,Turn.perform]
    rw [← hworld]
    exact Executor.reaches_afterStrays t hquiet
  funext w
  refine finish_eq ?_
  have hstart : Executor.start (callback register : Work R W α) w = begun (callback register) { world := w } := rfl
  rw [hstart,begun,Task.start_callback]
  simp only [Queue.perform]
  rcases register w with ⟨⟨now,later⟩ | e,w'⟩
  · cases now with
    | cons a now => exact ⟨_,hstrays (.settled (.ok a)) later w',rfl,rfl,rfl⟩
    | nil =>
      cases later with
      | nil => exact ⟨_,.refl _,rfl,rfl,rfl⟩
      | cons first later => exact ⟨_,.head (hstrays (.settled (.ok (first w').1)) later (first w').2),rfl,rfl,rfl⟩
  · exact ⟨_,.refl _,rfl,rfl,rfl⟩

theorem finish_fork (work : Work R W α) : (fork work).finish = work.finish :=
  funext fun w => finish_eq ((work.rests_finish w).head (.head (.refl _)))

theorem rests_begun (work : Work R W α) {q : Queue W} (hq : q.Still) :
    (work.begun q).Rests (work.finish q.world).1 (work.finish q.world).2 := by
  obtain ⟨w,jobs,turns⟩ := q
  obtain ⟨rfl,hturns⟩ : jobs = [] ∧ ∀ turn ∈ turns, turn.path? = none ∧ ∀ w, turn.perform w = w := hq
  have hbegun : work.begun ⟨w,[],turns⟩ = ⟨(work.begun { world := w }).task,⟨(work.begun { world := w }).queue.world,
      (work.begun { world := w }).queue.jobs,turns ++ (work.begun { world := w }).queue.turns⟩⟩ := by
    have hstart := Task.start_behind [] [] turns work [] { world := w }
    rw [Queue.behind_empty,Queue.behind_nil,List.nil_append] at hstart
    unfold begun
    rw [hstart]
    rfl
  obtain ⟨e,hr,hidle,hx⟩ := work.rests_finish w
  rw [hbegun]
  exact ⟨e,Executor.reaches_past hturns hr hidle,hidle,hx⟩

theorem rests_goOn (work : Work R W α) {q : Queue W} (hq : q.Still) :
    (Executor.mk (Task.goOn work [] q).1 (Task.goOn work [] q).2).Rests (work.finish q.world).1 (work.finish q.world).2 := by
  by_cases hwork : ∃ e, work = .reject e
  · obtain ⟨e,rfl⟩ := hwork
    exact (reject e : Work R W α).rests_begun hq
  · obtain ⟨steps,hgo⟩ := Task.Stack.bare.executor_goOn (fun e he => hwork ⟨e,he⟩) q
    change (Task.Stack.bare.executor (Task.goOn work [] q)).Rests _ _
    rw [hgo]
    exact (rests_begun work hq).relay (Executor.sound_start work ⟨hq.1,fun turn h => (hq.2 turn h).1⟩) steps

/-- Chained work is run to its end, and then what its answer leads to. -/
theorem finish_andThen {work : Work R W β} (h : work.Concludes) (f : β → R → Work R W α) :
    (andThen work f).finish = work.finish.andThen fun b u => (f b (View.look u)).finish u := by
  funext w
  have hrests := work.rests_finish w
  have hsound : (Executor.start work w).Sound := Executor.sound_start work ⟨rfl,List.forall_mem_nil _⟩
  have hstart : Executor.start (andThen work f) w =
      (Task.Stack.chain f .bare).executor ((Executor.start work w).task,(Executor.start work w).queue) :=
    Task.Stack.bare.executor_above ..
  refine finish_eq ?_
  rw [hstart]
  rcases hfinish : work.finish w with ⟨x,v⟩
  rw [hfinish] at hrests
  -- The work is never heard of again, or it answers with nothing left to change, or it fails and lets the rest run on.
  rcases (Executor.start work w).silent_or_settles with hsilent | ⟨b | e,q,hsettles⟩
  · obtain ⟨rfl,hchain⟩ := hrests.chain_silent hsilent f
    exact hchain
  · have hstill := h w b q hsettles
    obtain ⟨t,ht,halone,hr⟩ := Task.Stack.settles_reaches hsettles
    obtain ⟨u,jobs,turns⟩ := q
    obtain ⟨rfl,hturns⟩ : jobs = [] ∧ ∀ turn ∈ turns, turn.path? = none ∧ ∀ w, turn.perform w = w := hstill
    have hquiet : (Queue.mk u [] turns).Quiet := ⟨rfl,fun turn h => (hturns turn h).1⟩
    have hdone := Executor.reaches_afterStrays t hquiet
    rw [Queue.afterStrays_eq fun turn h => (hturns turn h).2] at hdone
    have hworld : (Executor.start work w).Rests (.ok b) u := ⟨_,halone.trans hdone,rfl,by rw [Executor.outcome,ht]; rfl,rfl⟩
    obtain ⟨rfl,rfl⟩ := hrests.unique hworld
    refine Executor.Rests.head ?_ (hr (.chain f .bare))
    refine Executor.Rests.head ?_ (.head (.refl _))
    rw [Task.Stack.advance_chain_ok _ ht]
    exact (f b (View.look v)).rests_goOn ⟨rfl,hturns⟩
  · obtain ⟨t,ht,halone,-⟩ := Task.Stack.settles_reaches hsettles
    obtain rfl := (hrests.tail halone).outcome_eq ht
    exact hrests.chain_failed hsound hsettles f

end Work

end Effectful
