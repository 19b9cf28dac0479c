import Effectful.Proofs.Work.Frame
import Effectful.Proofs.Work.Rounds
import Mathlib.Data.List.Forall2
/-!
# Corresponding work

Work on one world corresponds to work on another if the two are built alike and their actions do the same in
worlds that correspond. Then they run alike: with the same jobs and turns, to the same outcome, in worlds that
still correspond. What the actions may do to the first of the two worlds can be limited besides.
-/
namespace Effectful

universe u v

variable {R W W' α β γ : Type}

/-- Which worlds correspond, and what may become of the first of the two. -/
structure Correspondence (W W' : Type) where
  between : W → W' → Prop
  change : W → W → Prop
  refl : ∀ w, change w w
  trans : ∀ {w v u}, change w v → change v u → change w u

namespace Correspondence

variable {S S' : Type} {X X' : Type u} {Y Y' : Type v}

/-- In states that correspond, the two steps come to results of which `P` holds, and lead to states that
correspond. -/
def Acts (s : Correspondence S S') (P : X → X' → Prop) (g : S → X × S) (g' : S' → X' × S') : Prop :=
  ∀ q q', s.between q q' → P (g q).1 (g' q').1 ∧ s.between (g q).2 (g' q').2 ∧ s.change q (g q).2

variable {s : Correspondence S S'} {P : X → X' → Prop} {Q : Y → Y' → Prop}

theorem Acts.answer {x : X} {x' : X'} (h : P x x') : s.Acts P (fun q => (x,q)) fun q => (x',q) :=
  fun q _ hq => ⟨h,hq,s.refl q⟩

theorem Acts.bind {g : S → Y × S} {g' : S' → Y' × S'} {k : Y → S → X × S} {l : Y' → S' → X' × S'}
    (hg : s.Acts Q g g') (hk : ∀ y y', Q y y' → s.Acts P (k y) (l y')) :
    s.Acts P (fun q => k (g q).1 (g q).2) fun q => l (g' q).1 (g' q).2 := by
  intro q q' hq
  obtain ⟨hQ,hnext,hchange⟩ := hg q q' hq
  obtain ⟨hP,hlast,hchange'⟩ := hk _ _ hQ _ _ hnext
  exact ⟨hP,hlast,s.trans hchange hchange'⟩

theorem Acts.congr {f g : S → X × S} {f' g' : S' → X' × S'} (h : s.Acts P g g') (hf : ∀ q, f q = g q)
    (hf' : ∀ q, f' q = g' q) : s.Acts P f f' := by
  rwa [funext hf,funext hf']

def lax (s : Correspondence S S') : Correspondence S S' :=
  ⟨s.between,fun _ _ => True,fun _ => trivial,fun _ _ => trivial⟩

theorem Acts.lax {g : S → X × S} {g' : S' → X' × S'} (h : s.Acts P g g') : s.lax.Acts P g g' :=
  fun q q' hq => ⟨(h q q' hq).1,(h q q' hq).2.1,trivial⟩

end Correspondence

section Work

variable (s : Correspondence W W')

/-- The outcomes of two registrations correspond: the callbacks are told the same now, and after effects that
correspond later. -/
inductive Reply.Related : Outcome (Reply W α) → Outcome (Reply W' α) → Prop
  | error (e : Failure) : Related (.error e) (.error e)
  | ok (now : List α) {later : List (W → α × W)} {later' : List (W' → α × W')}
      (h : List.Forall₂ (s.Acts Eq) later later') : Related (.ok ⟨now,later⟩) (.ok ⟨now,later'⟩)

inductive Work.Related : {α : Type} → Work R W α → Work R W' α → Prop
  | answer {α : Type} (a : α) : Related (.answer a) (.answer a)
  | reject {α : Type} (e : Failure) : Related (.reject e : Work R W α) (.reject e)
  | delay {α : Type} {t : Action W α} {t' : Action W' α} (h : s.Acts Eq t t') :
      Related (.delay t) (.delay t')
  | fork {α : Type} {work : Work R W α} {work' : Work R W' α} (h : Related work work') :
      Related (.fork work) (.fork work')
  | callback {α : Type} {register : Action W (Reply W α)} {register' : Action W' (Reply W' α)}
      (h : s.Acts (Reply.Related s) register register') : Related (.callback register) (.callback register')
  | andThen {α β : Type} {work : Work R W β} {work' : Work R W' β} {f : β → R → Work R W α}
      {f' : β → R → Work R W' α} (h : Related work work') (hf : ∀ b r, Related (f b r) (f' b r)) :
      Related (.andThen work f) (.andThen work' f')
  | both {α β γ : Type} {left : Work R W β} {left' : Work R W' β} {right : Work R W γ}
      {right' : Work R W' γ} (hl : Related left left') (hr : Related right right')
      (f : β → γ → R → Outcome α) : Related (.both left right f) (.both left' right' f)

inductive Task.Related : {α : Type} → Task R W α → Task R W' α → Prop
  | settled {α : Type} (result : Outcome α) : Related (.settled result) (.settled result)
  | asleep {α : Type} {work : Work R W α} {work' : Work R W' α} (h : work.Related s work') :
      Related (.asleep work) (.asleep work')
  | listening {α : Type} {answer : W → α × W} {answer' : W' → α × W'} (h : s.Acts Eq answer answer') :
      Related (.listening answer) (.listening answer')
  | silent {α : Type} : Related (.silent : Task R W α) .silent
  | chain {α β : Type} {child : Task R W β} {child' : Task R W' β} {f : β → R → Work R W α}
      {f' : β → R → Work R W' α} (h : Related child child') (hf : ∀ b r, (f b r).Related s (f' b r))
      (failure : Option Failure) : Related (.chain child f failure) (.chain child' f' failure)
  | relay {α : Type} {child : Task R W α} {child' : Task R W' α} (h : Related child child') (steps : Nat) :
      Related (.relay child steps) (.relay child' steps)
  | pair {α β γ : Type} {left : Task R W β} {left' : Task R W' β} {right : Task R W γ}
      {right' : Task R W' γ} (hl : Related left left') (hr : Related right right')
      (f : β → γ → R → Outcome α) (failure : Option Failure) (steps : Nat) :
      Related (.pair left right f failure steps) (.pair left' right' f failure steps)

inductive Turn.Related : Turn W → Turn W' → Prop
  | resume (path : Path) : Related (.resume path) (.resume path)
  | stray {effect : W → W} {effect' : W' → W'}
      (h : s.Acts Eq (fun w => ((),effect w)) fun w => ((),effect' w)) :
      Related (.stray effect) (.stray effect')

structure Queue.Related (q : Queue W) (q' : Queue W') : Prop where
  world : s.between q.world q'.world
  jobs : q.jobs = q'.jobs
  turns : List.Forall₂ (Turn.Related s) q.turns q'.turns

def Correspondence.queue : Correspondence (Queue W) (Queue W') where
  between := Queue.Related s
  change q v := s.change q.world v.world
  refl q := s.refl q.world
  trans h h' := s.trans h h'

end Work

variable {s : Correspondence W W'}

private theorem Reply.Related.lax {x : Outcome (Reply W α)} {x' : Outcome (Reply W' α)}
    (h : Reply.Related s x x') : Reply.Related s.lax x x' := by
  cases h with
  | error e => exact .error e
  | ok now hlater => exact .ok now (hlater.imp fun _ _ h => h.lax)

theorem Work.Related.lax {work : Work R W α} {work' : Work R W' α} (h : work.Related s work') :
    work.Related s.lax work' := by
  induction h with
  | answer a => exact .answer a
  | reject e => exact .reject e
  | delay h => exact .delay h.lax
  | fork _ ih => exact .fork ih
  | callback h =>
    exact .callback fun w w' hw => ⟨(h w w' hw).1.lax,(h w w' hw).2.1,trivial⟩
  | andThen _ _ ih ihf => exact .andThen ih ihf
  | both _ _ f ihl ihr => exact .both ihl ihr f

namespace Correspondence

variable {X X' : Type u} {P : X → X' → Prop}

theorem Acts.postJob {x : X} {x' : X'} (h : P x x') (path : Path) :
    s.queue.Acts P (fun q => (x,q.postJob path)) fun q => (x',q.postJob path) := by
  intro q q' hq
  refine ⟨h,⟨hq.world,?_,hq.turns⟩,s.refl _⟩
  simp [Queue.postJob,hq.jobs]

theorem Acts.postTurns {x : X} {x' : X'} (h : P x x') {turns : List (Turn W)} {turns' : List (Turn W')}
    (hturns : List.Forall₂ (Turn.Related s) turns turns') :
    s.queue.Acts P (fun q => (x,{ q with turns := q.turns ++ turns }))
      fun q => (x',{ q with turns := q.turns ++ turns' }) :=
  fun _ _ hq => ⟨h,⟨hq.world,hq.jobs,List.rel_append hq.turns hturns⟩,s.refl _⟩

theorem Acts.perform {P : Outcome α → Outcome β → Prop} {t : Action W α} {t' : Action W' β}
    (h : s.Acts P t t') : s.queue.Acts P (fun q => q.perform t) fun q => q.perform t' := by
  intro q q' hq
  obtain ⟨hP,hbetween,hchange⟩ := h _ _ hq.world
  exact ⟨hP,⟨hbetween,hq.jobs,hq.turns⟩,hchange⟩

end Correspondence

namespace Task

theorem Related.outcome?_eq {t : Task R W α} {t' : Task R W' α} (h : t.Related s t') :
    t.outcome? = t'.outcome? := by
  cases h with
  | chain _ _ failure => cases failure <;> rfl
  | pair _ _ _ failure steps => cases failure <;> cases steps <;> rfl
  | _ => rfl

private theorem related_settled (x x' : Outcome α) (h : x = x') :
    s.queue.Acts (Related (R := R) s) (fun q => (settled x,q)) fun q => (settled x',q) := by
  subst h
  exact .answer (.settled x)

private theorem related_above {child : Task R W β} {child' : Task R W' β} {f : β → R → Work R W α}
    {f' : β → R → Work R W' α} (h : child.Related s child') (hf : ∀ b r, (f b r).Related s (f' b r))
    (path : Path) : s.queue.Acts (Related s) (above child f path) (above child' f' path) := by
  unfold above
  rw [h.outcome?_eq]
  split
  · exact .postJob (.chain h hf none) path
  · exact .answer (.chain h hf none)

private theorem related_passOn {child : Task R W α} {child' : Task R W' α} (h : child.Related s child')
    (steps : Nat) (path : Path) : s.queue.Acts (Related s) (passOn child steps path) (passOn child' steps path) := by
  have hrelay : ∀ {t : Task R W α} {t' : Task R W' α}, t.Related s t' →
      s.queue.Acts (Related s)
        (fun q => (relay t steps,if t.outcome?.isSome then q.postJob path else q))
        fun q => (relay t' steps,if t'.outcome?.isSome then q.postJob path else q) := by
    intro t t' ht
    rw [ht.outcome?_eq]
    split
    · exact .postJob (.relay ht steps) path
    · exact .answer (.relay ht steps)
  cases h with
  | relay h more => exact .answer (.relay h _)
  | settled result => exact hrelay (.settled result)
  | asleep h => exact hrelay (.asleep h)
  | listening h => exact hrelay (.listening h)
  | silent => exact hrelay .silent
  | chain h hf failure => exact hrelay (.chain h hf failure)
  | pair hl hr f failure more => exact hrelay (.pair hl hr f failure more)

private theorem related_beside {left : Task R W β} {left' : Task R W' β} {right : Task R W γ}
    {right' : Task R W' γ} (hl : left.Related s left') (hr : right.Related s right')
    (f : β → γ → R → Outcome α) (path : Path) :
    s.queue.Acts (Related s) (beside left right f path) (beside left' right' f path) := by
  unfold beside
  rw [hl.outcome?_eq,hr.outcome?_eq]
  split
  · exact .postJob (.pair hl hr f _ 2) path
  · exact .postJob (.pair hl hr f _ 2) path
  · exact .postJob (.pair hl hr f none 2) path
  · exact .answer (.pair hl hr f none 2)

private theorem related_strays {effects : List (W → α × W)} {effects' : List (W' → α × W')}
    (h : List.Forall₂ (s.Acts Eq) effects effects') :
    List.Forall₂ (Turn.Related s) (effects.map fun effect => .stray fun w => (effect w).2)
      (effects'.map fun effect => .stray fun w => (effect w).2) := by
  induction h with
  | nil => exact .nil
  | cons heffect _ ih => exact .cons (.stray fun w w' hw => ⟨rfl,(heffect w w' hw).2⟩) ih

private theorem related_replied {x : Outcome (Reply W α)} {x' : Outcome (Reply W' α)}
    (h : Reply.Related s x x') (path : Path) :
    s.queue.Acts (Related (R := R) s) (replied path x) (replied path x') := by
  cases h with
  | error e => exact .answer (.settled (.error e))
  | ok now h =>
    cases now with
    | cons a now => exact .postTurns (.settled (.ok a)) (related_strays h)
    | nil =>
      cases h with
      | nil => exact .answer .silent
      | cons hanswer h =>
        refine (Correspondence.Acts.postTurns (P := Related s) (.listening hanswer)
          (.cons (.resume path) (related_strays h))).congr (fun q => ?_) fun q => ?_
        · simp [replied,Queue.postTurn,Queue.postStrays]
        · simp [replied,Queue.postTurn,Queue.postStrays]

theorem related_start {work : Work R W α} {work' : Work R W' α} (h : work.Related s work') (path : Path) :
    s.queue.Acts (Related s) (start work path) (start work' path) := by
  induction h generalizing path with
  | answer a => exact .answer (.settled (.ok a))
  | reject e => exact .answer (.settled (.error e))
  | delay h =>
    exact (Correspondence.Acts.perform h).bind related_settled
  | fork h => exact .postTurns (.asleep h) (.cons (.resume path) .nil)
  | callback h =>
    exact ((Correspondence.Acts.perform h).bind fun x x' hx => related_replied hx path).congr
      (start_callback _ path) (start_callback _ path)
  | andThen h hf ih => exact (ih path).bind fun _ _ hchild => related_above hchild hf path
  | both hl hr f ihl ihr =>
    exact (ihl _).bind fun _ _ hleft => (ihr _).bind fun _ _ hright => related_beside hleft hright f path

private theorem related_goOn {work : Work R W α} {work' : Work R W' α} (h : work.Related s work')
    (path : Path) : s.queue.Acts (Related s) (goOn work path) (goOn work' path) := by
  have hgo : s.queue.Acts (Related s)
      (fun q => if (start work path q).1.outcome?.isSome then
        (relay (start work path q).1 1,(start work path q).2.postJob path)
        else (relay (start work path q).1 0,(start work path q).2))
      fun q => if (start work' path q).1.outcome?.isSome then
        (relay (start work' path q).1 1,(start work' path q).2.postJob path)
        else (relay (start work' path q).1 0,(start work' path q).2) := by
    refine (related_start h path).bind
      (k := fun t q => if t.outcome?.isSome then (relay t 1,q.postJob path) else (relay t 0,q))
      (l := fun t q => if t.outcome?.isSome then (relay t 1,q.postJob path) else (relay t 0,q))
      fun t t' ht => ?_
    rw [ht.outcome?_eq]
    split
    · exact .postJob (.relay ht 1) path
    · exact .answer (.relay ht 0)
  cases h with
  | reject e => exact .answer (.settled (.error e))
  | _ => exact hgo

section Visits

variable [View W R] [View W' R] (hlook : ∀ w w', s.between w w' → (View.look w : R) = View.look w')

include hlook

private theorem related_joined {left : Task R W β} {left' : Task R W' β} {right : Task R W γ}
    {right' : Task R W' γ} (hl : left.Related s left') (hr : right.Related s right')
    (f : β → γ → R → Outcome α) (failure : Option Failure) {steps : Nat} (hsteps : steps < 2) (here : Path) :
    s.queue.Acts (Related s) (visit here (pair left right f failure steps) [])
      (visit here (pair left' right' f failure steps) []) := by
  cases failure with
  | some e =>
    exact (Correspondence.Acts.answer (.pair hl hr f (some e) 0)).congr
      (visit_pair_failed left right f e hsteps here) (visit_pair_failed left' right' f e hsteps here)
  | none =>
    intro q q' hq
    rw [visit_pair_joined left right f hsteps,visit_pair_joined left' right' f hsteps,hl.outcome?_eq,
      hr.outcome?_eq,← hlook _ _ hq.world]
    split
    case h_1 a b _ _ => exact Correspondence.Acts.answer (.settled (f a b _)) q q' hq
    case h_2 => exact Correspondence.Acts.answer (.pair hl hr f none steps) q q' hq

theorem related_visit {t : Task R W α} {t' : Task R W' α} (h : t.Related s t') (here rest : Path) :
    s.queue.Acts (Related s) (visit here t rest) (visit here t' rest) := by
  induction h generalizing here rest with
  | settled result => exact .answer (.settled result)
  | silent => exact .answer .silent
  | asleep h => exact related_start h here
  | @listening _ answer answer' h =>
    have hperform : s.Acts Eq (fun w => (Outcome.ok (answer w).1,(answer w).2))
        fun w => (Outcome.ok (answer' w).1,(answer' w).2) :=
      fun w w' hw => ⟨congrArg Outcome.ok (h w w' hw).1,(h w w' hw).2⟩
    exact (Correspondence.Acts.perform hperform).bind related_settled
  | @chain _ _ child child' f f' h hf failure ih =>
    cases failure with
    | none =>
      rcases hc : child'.outcome? with _ | ⟨a | e⟩
      · have hc' := h.outcome?_eq.trans hc
        exact ((ih here rest).bind fun _ _ hchild => related_above hchild hf here).congr
          (visit_chain hc' f here rest) (visit_chain hc f' here rest)
      · have hc' := h.outcome?_eq.trans hc
        intro q q' hq
        simp only [visit,hc,hc']
        rw [← hlook _ _ hq.world]
        exact related_goOn (hf a _) here q q' hq
      · have hc' := h.outcome?_eq.trans hc
        cases rest with
        | nil =>
          exact (Correspondence.Acts.answer (.chain h hf (some e))).congr
            (fun q => by simp only [visit,hc']) fun q => by simp only [visit,hc]
        | cons side rest =>
          exact ((ih here (side :: rest)).bind
            (k := fun t q => (chain t f none,q)) (l := fun t q => (chain t f' none,q))
            fun _ _ hchild => .answer (.chain hchild hf none)).congr
            (fun q => by simp only [visit,hc']) fun q => by simp only [visit,hc]
    | some e =>
      exact (ih here rest).bind (k := fun t q => (chain t f (some e),q))
        (l := fun t q => (chain t f' (some e),q)) fun _ _ hchild => .answer (.chain hchild hf (some e))
  | @relay _ child child' h steps ih =>
    cases hc : child'.outcome? with
    | none =>
      have hc' := h.outcome?_eq.trans hc
      exact ((ih here rest).bind fun _ _ hchild => related_passOn hchild steps here).congr
        (visit_relay hc' steps here rest) (visit_relay hc steps here rest)
    | some x =>
      have hc' := h.outcome?_eq.trans hc
      cases rest with
      | nil =>
        cases steps with
        | zero =>
          exact (Correspondence.Acts.answer h).congr
            (fun q => by simp only [visit,hc']) fun q => by simp only [visit,hc]
        | succ steps =>
          exact (Correspondence.Acts.postJob (.relay h steps) here).congr
            (fun q => by simp only [visit,hc']) fun q => by simp only [visit,hc]
      | cons side rest =>
        exact ((ih here (side :: rest)).bind
          (k := fun t q => (relay t steps,q)) (l := fun t q => (relay t steps,q))
          fun _ _ hchild => .answer (.relay hchild steps)).congr
          (fun q => by simp only [visit,hc']) fun q => by simp only [visit,hc]
  | @pair _ _ _ left left' right right' hl hr f failure steps ihl ihr =>
    cases rest with
    | nil =>
      rcases Nat.lt_or_ge steps 2 with hlast | hmore
      · exact related_joined hlook hl hr f failure hlast here
      · obtain ⟨more,rfl⟩ := Nat.exists_eq_add_of_le' hmore
        exact .postJob (.pair hl hr f failure (more + 1)) here
    | cons side rest =>
      cases side with
      | left =>
        refine (ihl _ _).bind (k := fun t q => if failure.isSome then (pair t right f failure steps,q)
          else beside t right f here q) (l := fun t q => if failure.isSome then
          (pair t right' f failure steps,q) else beside t right' f here q) fun _ _ hleft => ?_
        split
        · exact .answer (.pair hleft hr f failure steps)
        · exact related_beside hleft hr f here
      | right =>
        refine (ihr _ _).bind (k := fun t q => if failure.isSome then (pair left t f failure steps,q)
          else beside left t f here q) (l := fun t q => if failure.isSome then
          (pair left' t f failure steps,q) else beside left' t f here q) fun _ _ hright => ?_
        split
        · exact .answer (.pair hl hright f failure steps)
        · exact related_beside hl hright f here

end Visits

end Task

structure Executor.Related (s : Correspondence W W') (e : Executor R W α) (e' : Executor R W' α) : Prop where
  task : e.task.Related s e'.task
  queue : e.queue.Related s e'.queue

theorem Work.Related.start {work : Work R W α} {work' : Work R W' α} (h : work.Related s work') {w : W}
    {w' : W'} (hw : s.between w w') : (Executor.start work w).Related s (Executor.start work' w') := by
  obtain ⟨htask,hqueue,-⟩ := Task.related_start h [] ⟨w,[],[]⟩ ⟨w',[],[]⟩ ⟨hw,rfl,.nil⟩
  exact ⟨htask,hqueue⟩

theorem Queue.Related.isEmpty_turns {q : Queue W} {q' : Queue W'} (h : q.Related s q') :
    q.turns.isEmpty = q'.turns.isEmpty := by
  rw [Bool.eq_iff_iff,List.isEmpty_iff_length_eq_zero,List.isEmpty_iff_length_eq_zero,h.turns.length_eq]

theorem Executor.Related.isIdle_eq {e : Executor R W α} {e' : Executor R W' α} (h : e.Related s e') :
    e.isIdle = e'.isIdle := by
  rw [isIdle,isIdle,h.queue.jobs,h.queue.isEmpty_turns]

section Rounds

variable [View W R] [View W' R] (hlook : ∀ w w', s.between w w' → (View.look w : R) = View.look w')

include hlook

theorem Executor.Related.advance {e : Executor R W α} {e' : Executor R W' α} (h : e.Related s e') :
    e.advance.Related s e'.advance := by
  obtain ⟨task,⟨w,jobs,turns⟩⟩ := e
  obtain ⟨task',⟨w',jobs',turns'⟩⟩ := e'
  obtain ⟨htask,⟨hw,rfl,hturns⟩⟩ := h
  have hvisit : ∀ (path : Path) {q : Queue W} {q' : Queue W'}, q.Related s q' →
      Executor.Related s ⟨(task.visit [] path q).1,(task.visit [] path q).2⟩
        ⟨(task'.visit [] path q').1,(task'.visit [] path q').2⟩ := by
    intro path q q' hq
    obtain ⟨ht,hnext,-⟩ := Task.related_visit hlook htask [] path q q' hq
    exact ⟨ht,hnext⟩
  rcases jobs with _ | ⟨path,jobs⟩
  · cases hturns with
    | nil => exact ⟨htask,⟨hw,rfl,.nil⟩⟩
    | cons hturn hturns =>
      cases hturn with
      | resume path => exact hvisit path ⟨hw,rfl,hturns⟩
      | stray h => exact ⟨htask,⟨(h w w' hw).2.1,rfl,hturns⟩⟩
  · exact hvisit path ⟨hw,rfl,hturns⟩

theorem Executor.Related.iterate {e : Executor R W α} {e' : Executor R W' α} (h : e.Related s e') (n : Nat) :
    (Executor.advance^[n] e).Related s (Executor.advance^[n] e') := by
  induction n with
  | zero => exact h
  | succ n ih =>
    rw [Function.iterate_succ_apply',Function.iterate_succ_apply']
    exact ih.advance hlook

theorem Work.Related.ends {work : Work R W α} {work' : Work R W' α} (h : work.Related s work') {w : W}
    {w' v' : W'} (hw : s.between w w') {x : Outcome α} (hends : work'.Ends w' x v') :
    ∃ v, work.Ends w x v ∧ s.between v v' := by
  obtain ⟨_,⟨n,rfl⟩,hidle,hx,rfl⟩ := hends
  have h' := (h.start hw).iterate hlook n
  exact ⟨_,⟨_,⟨n,rfl⟩,h'.isIdle_eq.trans hidle,h'.task.outcome?_eq.trans hx,rfl⟩,h'.queue.world⟩

end Rounds

end Effectful
