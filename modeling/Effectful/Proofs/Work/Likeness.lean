import Effectful.Proofs.Work.Frame
import Effectful.Proofs.Work.Rounds
import Mathlib.Data.List.Forall2
import Mathlib.Data.Option.Defs
import Mathlib.Order.Hom.Basic
/-!
# Work that is alike

Two runs of the same work need not come to the same answers: where answers name places in the world, they name
other places in the other run. What such answers have in common is told at a stage, which says what has been
matched between the two worlds so far. Later stages match more, and never take anything back.

Work is alike at a stage if it is built alike, its actions come to alike results whenever they are performed from
then on, and its continuations go on with work that is alike from alike answers. Then it runs alike: with the
same jobs and turns, to alike outcomes.
-/
namespace Effectful

universe u v

variable {I W W' α β γ : Type} [Preorder I]

/-- Which answers are alike at a stage. Answers that are alike stay so. -/
abbrev Likeness (I : Type) [Preorder I] (α : Type) := I →o α → α → Prop

/-- The outcomes are answers of which `P` holds, or the same failure. -/
inductive Outcome.Akin (P : α → β → Prop) : Outcome α → Outcome β → Prop
  | ok {a : α} {b : β} (h : P a b) : Akin P (.ok a) (.ok b)
  | error (e : Failure) : Akin P (.error e) (.error e)

theorem Outcome.Akin.eq {x y : Outcome α} (h : Outcome.Akin Eq x y) : x = y := by
  cases h with
  | ok h => rw [h]
  | error e => rfl

theorem Outcome.akin_self (x : Outcome α) : Outcome.Akin Eq x x := by
  cases x with
  | ok a => exact .ok rfl
  | error e => exact .error e

namespace Likeness

variable {i j : I}

theorem mono (S : Likeness I α) (hij : i ≤ j) {a b : α} (h : S i a b) : S j a b := S.monotone hij a b h

variable (I α) in
/-- Plain answers are alike when they are equal. -/
def plain : Likeness I α := OrderHom.const I Eq

def outcome (S : Likeness I α) : Likeness I (Outcome α) where
  toFun i := Outcome.Akin (S i)
  monotone' i j hij x x' h := by
    cases h with
    | ok h => exact .ok (S.mono hij h)
    | error e => exact .error e

end Likeness

/-- Which worlds are matched at a stage, and what becomes of worlds and stage as actions are performed. -/
structure Matching (I : Type) [Preorder I] (W W' : Type) where
  between : I → W → W' → Prop
  change : I → W → W' → I → W → W' → Prop
  refl : ∀ i w w', change i w w' i w w'
  trans : ∀ {i j k w v u w' v' u'}, change i w w' j v v' → change j v v' k u u' → change i w w' k u u'

namespace Matching

variable {S S' : Type} {X X' : Type u} {Y Y' : Type v}

/-- From the stage `i` on, the two steps lead from states that are matched to states that are matched at some
later stage, where `P` holds of the results. -/
def Acts (m : Matching I S S') (i : I) (P : I → X → X' → Prop) (g : S → X × S) (g' : S' → X' × S') : Prop :=
  ∀ j, i ≤ j → ∀ q q', m.between j q q' →
    ∃ k, j ≤ k ∧ P k (g q).1 (g' q').1 ∧ m.between k (g q).2 (g' q').2 ∧
      m.change j q q' k (g q).2 (g' q').2

variable {m : Matching I S S'} {i j : I} {P : I → X → X' → Prop} {Q : I → Y → Y' → Prop}
  {g : S → X × S} {g' : S' → X' × S'}

theorem Acts.mono (h : m.Acts i P g g') (hij : i ≤ j) : m.Acts j P g g' :=
  fun k hjk => h k (hij.trans hjk)

theorem Acts.answer {x : X} {x' : X'} (h : ∀ j, i ≤ j → P j x x') :
    m.Acts i P (fun q => (x,q)) fun q => (x',q) :=
  fun j hij q q' hq => ⟨j,le_rfl,h j hij,hq,m.refl j q q'⟩

theorem Acts.bind {f : S → Y × S} {f' : S' → Y' × S'} {k : Y → S → X × S} {l : Y' → S' → X' × S'}
    (hf : m.Acts i Q f f') (hk : ∀ j, i ≤ j → ∀ y y', Q j y y' → m.Acts j P (k y) (l y')) :
    m.Acts i P (fun q => k (f q).1 (f q).2) fun q => l (f' q).1 (f' q).2 := by
  intro j hij q q' hq
  obtain ⟨n,hjn,hQ,hnext,hchange⟩ := hf j hij q q' hq
  obtain ⟨o,hno,hP,hlast,hchange'⟩ := hk n (hij.trans hjn) _ _ hQ n le_rfl _ _ hnext
  exact ⟨o,hjn.trans hno,hP,hlast,m.trans hchange hchange'⟩

theorem Acts.congr {f : S → X × S} {f' : S' → X' × S'} (h : m.Acts i P g g') (hf : ∀ q, f q = g q)
    (hf' : ∀ q, f' q = g' q) : m.Acts i P f f' := by
  rwa [funext hf,funext hf']

end Matching

section Work

variable (m : Matching I W W')

structure Reply.Akin (i : I) (S : Likeness I α) (reply : Reply W α) (reply' : Reply W' α) : Prop where
  now : List.Forall₂ (S i) reply.now reply'.now
  later : List.Forall₂ (m.Acts i S) reply.later reply'.later

inductive Work.Akin : {α : Type} → I → Likeness I α → Work Unit W α → Work Unit W' α → Prop
  | answer {α : Type} {i : I} {S : Likeness I α} {a a' : α} (h : S i a a') : Akin i S (.answer a) (.answer a')
  | reject {α : Type} {i : I} {S : Likeness I α} (e : Failure) : Akin i S (.reject e) (.reject e)
  | delay {α : Type} {i : I} {S : Likeness I α} {t : Action W α} {t' : Action W' α}
      (h : m.Acts i S.outcome t t') : Akin i S (.delay t) (.delay t')
  | fork {α : Type} {i : I} {S : Likeness I α} {work : Work Unit W α} {work' : Work Unit W' α}
      (h : Akin i S work work') : Akin i S (.fork work) (.fork work')
  | callback {α : Type} {i : I} {S : Likeness I α} {register : Action W (Reply W α)}
      {register' : Action W' (Reply W' α)}
      (h : m.Acts i (fun j => Outcome.Akin (Reply.Akin m j S)) register register') :
      Akin i S (.callback register) (.callback register')
  | andThen {α β : Type} {i : I} {S : Likeness I α} (T : Likeness I β) {work : Work Unit W β}
      {work' : Work Unit W' β} {f : β → Unit → Work Unit W α} {f' : β → Unit → Work Unit W' α}
      (h : Akin i T work work')
      (hf : ∀ j, i ≤ j → ∀ b b', T j b b' → Akin j S (f b ()) (f' b' ())) :
      Akin i S (.andThen work f) (.andThen work' f')
  | both {α β γ : Type} {i : I} {S : Likeness I α} (T : Likeness I β) (U : Likeness I γ)
      {left : Work Unit W β} {left' : Work Unit W' β} {right : Work Unit W γ} {right' : Work Unit W' γ}
      {f f' : β → γ → Unit → Outcome α} (hl : Akin i T left left') (hr : Akin i U right right')
      (hf : ∀ j, i ≤ j → ∀ b b' c c', T j b b' → U j c c' → S.outcome j (f b c ()) (f' b' c' ())) :
      Akin i S (.both left right f) (.both left' right' f')

inductive Task.Akin : {α : Type} → I → Likeness I α → Task Unit W α → Task Unit W' α → Prop
  | settled {α : Type} {i : I} {S : Likeness I α} {x x' : Outcome α} (h : S.outcome i x x') :
      Akin i S (.settled x) (.settled x')
  | asleep {α : Type} {i : I} {S : Likeness I α} {work : Work Unit W α} {work' : Work Unit W' α}
      (h : work.Akin m i S work') : Akin i S (.asleep work) (.asleep work')
  | listening {α : Type} {i : I} {S : Likeness I α} {answer : W → α × W} {answer' : W' → α × W'}
      (h : m.Acts i S answer answer') : Akin i S (.listening answer) (.listening answer')
  | silent {α : Type} {i : I} {S : Likeness I α} : Akin i S .silent .silent
  | chain {α β : Type} {i : I} {S : Likeness I α} (T : Likeness I β) {child : Task Unit W β}
      {child' : Task Unit W' β} {f : β → Unit → Work Unit W α} {f' : β → Unit → Work Unit W' α}
      (h : Akin i T child child')
      (hf : ∀ j, i ≤ j → ∀ b b', T j b b' → (f b ()).Akin m j S (f' b' ())) (failure : Option Failure) :
      Akin i S (.chain child f failure) (.chain child' f' failure)
  | relay {α : Type} {i : I} {S : Likeness I α} {child : Task Unit W α} {child' : Task Unit W' α}
      (h : Akin i S child child') (steps : Nat) : Akin i S (.relay child steps) (.relay child' steps)
  | pair {α β γ : Type} {i : I} {S : Likeness I α} (T : Likeness I β) (U : Likeness I γ)
      {left : Task Unit W β} {left' : Task Unit W' β} {right : Task Unit W γ} {right' : Task Unit W' γ}
      {f f' : β → γ → Unit → Outcome α} (hl : Akin i T left left') (hr : Akin i U right right')
      (hf : ∀ j, i ≤ j → ∀ b b' c c', T j b b' → U j c c' → S.outcome j (f b c ()) (f' b' c' ()))
      (failure : Option Failure) (steps : Nat) :
      Akin i S (.pair left right f failure steps) (.pair left' right' f' failure steps)

inductive Turn.Akin (i : I) : Turn W → Turn W' → Prop
  | resume (path : Path) : Akin i (.resume path) (.resume path)
  | stray {effect : W → W} {effect' : W' → W'}
      (h : m.Acts i (fun _ => Eq) (fun w => ((),effect w)) fun w => ((),effect' w)) :
      Akin i (.stray effect) (.stray effect')

structure Queue.Akin (i : I) (q : Queue W) (q' : Queue W') : Prop where
  world : m.between i q.world q'.world
  jobs : q.jobs = q'.jobs
  turns : List.Forall₂ (Turn.Akin m i) q.turns q'.turns

def Matching.queue : Matching I (Queue W) (Queue W') where
  between := Queue.Akin m
  change i q q' j v v' := m.change i q.world q'.world j v.world v'.world
  refl i q q' := m.refl i q.world q'.world
  trans h h' := m.trans h h'

end Work

variable {m : Matching I W W'} {i j : I} {S : Likeness I α}

theorem Work.Akin.mono {work : Work Unit W α} {work' : Work Unit W' α} (h : work.Akin m i S work') (hij : i ≤ j) :
    work.Akin m j S work' := by
  induction h generalizing j with
  | @answer _ _ S _ _ h => exact .answer (S.mono hij h)
  | reject e => exact .reject e
  | delay h => exact .delay (h.mono hij)
  | fork _ ih => exact .fork (ih hij)
  | callback h => exact .callback (h.mono hij)
  | andThen T _ hf ih => exact .andThen T (ih hij) fun k hjk => hf k (hij.trans hjk)
  | both T U _ _ hf ihl ihr => exact .both T U (ihl hij) (ihr hij) fun k hjk => hf k (hij.trans hjk)

theorem Task.Akin.mono {t : Task Unit W α} {t' : Task Unit W' α} (h : t.Akin m i S t') (hij : i ≤ j) :
    t.Akin m j S t' := by
  induction h generalizing j with
  | @settled _ _ S _ _ h => exact .settled (S.outcome.mono hij h)
  | asleep h => exact .asleep (h.mono hij)
  | listening h => exact .listening (h.mono hij)
  | silent => exact .silent
  | chain T _ hf failure ih => exact .chain T (ih hij) (fun k hjk => hf k (hij.trans hjk)) failure
  | relay _ steps ih => exact .relay (ih hij) steps
  | pair T U _ _ hf failure steps ihl ihr =>
    exact .pair T U (ihl hij) (ihr hij) (fun k hjk => hf k (hij.trans hjk)) failure steps

theorem Turn.Akin.mono {turn : Turn W} {turn' : Turn W'} (h : turn.Akin m i turn') (hij : i ≤ j) :
    turn.Akin m j turn' := by
  cases h with
  | resume path => exact .resume path
  | stray h => exact .stray (h.mono hij)

namespace Matching

variable {X X' : Type u} {P : I → X → X' → Prop} {x : X} {x' : X'}

theorem Acts.postJob (h : ∀ j, i ≤ j → P j x x') (path : Path) :
    m.queue.Acts i P (fun q => (x,q.postJob path)) fun q => (x',q.postJob path) := by
  intro j hij q q' hq
  refine ⟨j,le_rfl,h j hij,⟨hq.world,?_,hq.turns⟩,m.refl ..⟩
  simp [Queue.postJob,hq.jobs]

theorem Acts.postTurns (h : ∀ j, i ≤ j → P j x x') {turns : List (Turn W)} {turns' : List (Turn W')}
    (hturns : List.Forall₂ (Turn.Akin m i) turns turns') :
    m.queue.Acts i P (fun q => (x,{ q with turns := q.turns ++ turns }))
      fun q => (x',{ q with turns := q.turns ++ turns' }) := by
  intro j hij q q' hq
  refine ⟨j,le_rfl,h j hij,⟨hq.world,hq.jobs,List.rel_append hq.turns ?_⟩,m.refl ..⟩
  exact hturns.imp fun _ _ h => h.mono hij

theorem Acts.perform {P : I → Outcome α → Outcome β → Prop} {t : Action W α} {t' : Action W' β}
    (h : m.Acts i P t t') : m.queue.Acts i P (fun q => q.perform t) fun q => q.perform t' := by
  intro j hij q q' hq
  obtain ⟨k,hjk,hP,hbetween,hchange⟩ := h j hij _ _ hq.world
  exact ⟨k,hjk,hP,⟨hbetween,hq.jobs,hq.turns.imp fun _ _ h => h.mono hjk⟩,hchange⟩

end Matching

namespace Task

theorem Akin.outcome? {t : Task Unit W α} {t' : Task Unit W' α} (h : t.Akin m i S t') :
    Option.Rel (S.outcome i) t.outcome? t'.outcome? := by
  cases h with
  | settled h => exact .some h
  | chain T _ _ failure =>
    cases failure with
    | none => exact .none
    | some e => exact .some (.error e)
  | pair T U _ _ _ failure steps =>
    cases failure with
    | none => cases steps <;> exact .none
    | some e =>
      cases steps with
      | zero => exact .some (.error e)
      | succ steps => exact .none
  | asleep | listening | silent | relay => exact .none

theorem Akin.isSome_eq {t : Task Unit W α} {t' : Task Unit W' α} (h : t.Akin m i S t') :
    t.outcome?.isSome = t'.outcome?.isSome := by
  have hx := h.outcome?
  generalize t.outcome? = x at hx ⊢
  generalize t'.outcome? = x' at hx ⊢
  cases hx <;> rfl

theorem Akin.outcome?_eq_none {t : Task Unit W α} {t' : Task Unit W' α} (h : t.Akin m i S t')
    (hx : t.outcome? = none) : t'.outcome? = none := by
  have hrel := h.outcome?
  rw [hx] at hrel
  generalize t'.outcome? = x' at hrel ⊢
  cases hrel
  rfl

theorem Akin.exists_outcome {t : Task Unit W α} {t' : Task Unit W' α} (h : t.Akin m i S t') {x : Outcome α}
    (hx : t.outcome? = some x) : ∃ x', t'.outcome? = some x' ∧ S.outcome i x x' := by
  have hrel := h.outcome?
  rw [hx] at hrel
  generalize t'.outcome? = x' at hrel ⊢
  cases hrel with
  | some h => exact ⟨_,rfl,h⟩

private theorem akin_kept {t : Task Unit W α} {t' : Task Unit W' α} (h : t.Akin m i S t') :
    m.queue.Acts i (fun j => Task.Akin m j S) (fun q => (t,q)) fun q => (t',q) :=
  .answer fun _ => h.mono

private theorem akin_posted {t : Task Unit W α} {t' : Task Unit W' α} (h : t.Akin m i S t') (path : Path) :
    m.queue.Acts i (fun j => Task.Akin m j S) (fun q => (t,q.postJob path)) fun q => (t',q.postJob path) :=
  .postJob (fun _ => h.mono) path

private theorem akin_settled (S : Likeness I α) (x x' : Outcome α) (h : S.outcome i x x') :
    m.queue.Acts i (fun j => Task.Akin m j S) (fun q => (settled x,q)) fun q => (settled x',q) :=
  akin_kept (.settled h)

private theorem akin_above {T : Likeness I β} {child : Task Unit W β} {child' : Task Unit W' β}
    {f : β → Unit → Work Unit W α} {f' : β → Unit → Work Unit W' α} (h : child.Akin m i T child')
    (hf : ∀ j, i ≤ j → ∀ b b', T j b b' → (f b ()).Akin m j S (f' b' ())) (path : Path) :
    m.queue.Acts i (fun j => Task.Akin m j S) (above child f path) (above child' f' path) := by
  unfold above
  rw [h.isSome_eq]
  split
  · exact akin_posted (.chain T h hf none) path
  · exact akin_kept (.chain T h hf none)

private theorem akin_passOn {child : Task Unit W α} {child' : Task Unit W' α} (h : child.Akin m i S child')
    (steps : Nat) (path : Path) :
    m.queue.Acts i (fun j => Task.Akin m j S) (passOn child steps path) (passOn child' steps path) := by
  have hrelay : m.queue.Acts i (fun j => Task.Akin m j S)
      (fun q => (relay child steps,if child.outcome?.isSome then q.postJob path else q))
      fun q => (relay child' steps,if child'.outcome?.isSome then q.postJob path else q) := by
    rw [h.isSome_eq]
    split
    · exact akin_posted (.relay h steps) path
    · exact akin_kept (.relay h steps)
  cases h with
  | relay h more => exact akin_kept (.relay h _)
  | settled | asleep | listening | silent | chain | pair => exact hrelay

private theorem akin_beside {T : Likeness I β} {U : Likeness I γ} {left : Task Unit W β} {left' : Task Unit W' β}
    {right : Task Unit W γ} {right' : Task Unit W' γ} {f f' : β → γ → Unit → Outcome α}
    (hl : left.Akin m i T left') (hr : right.Akin m i U right')
    (hf : ∀ j, i ≤ j → ∀ b b' c c', T j b b' → U j c c' → S.outcome j (f b c ()) (f' b' c' ()))
    (path : Path) :
    m.queue.Acts i (fun j => Task.Akin m j S) (beside left right f path) (beside left' right' f' path) := by
  have hpair := Akin.pair T U hl hr hf
  have hx := hl.outcome?
  have hy := hr.outcome?
  unfold beside
  generalize left.outcome? = x at hx ⊢
  generalize left'.outcome? = x' at hx ⊢
  generalize right.outcome? = y at hy ⊢
  generalize right'.outcome? = y' at hy ⊢
  rcases hx with ⟨_ | e⟩ | _
  all_goals rcases hy with ⟨_ | e'⟩ | _
  all_goals first
    | exact akin_posted (hpair _ 2) path
    | exact akin_kept (hpair none 2)

private theorem akin_strays {effects : List (W → α × W)} {effects' : List (W' → α × W')}
    (h : List.Forall₂ (m.Acts i S) effects effects') :
    List.Forall₂ (Turn.Akin m i) (effects.map fun effect => .stray fun w => (effect w).2)
      (effects'.map fun effect => .stray fun w => (effect w).2) := by
  induction h with
  | nil => exact .nil
  | cons heffect _ ih =>
    refine .cons (.stray fun j hij w w' hw => ?_) ih
    obtain ⟨k,hjk,-,hrest⟩ := heffect j hij w w' hw
    exact ⟨k,hjk,rfl,hrest⟩

private theorem akin_replied {x : Outcome (Reply W α)} {x' : Outcome (Reply W' α)}
    (h : Outcome.Akin (Reply.Akin m i S) x x') (path : Path) :
    m.queue.Acts i (fun j => Task.Akin m j S) (replied path x) (replied path x') := by
  cases h with
  | error e => exact akin_settled S _ _ (.error e)
  | @ok reply reply' h =>
    obtain ⟨now,later⟩ := reply
    obtain ⟨now',later'⟩ := reply'
    obtain ⟨hnow,hlater⟩ := h
    cases hnow with
    | cons ha hnow => exact .postTurns (fun _ hij => .settled (.ok (S.mono hij ha))) (akin_strays hlater)
    | nil =>
      cases hlater with
      | nil => exact .answer fun _ _ => .silent
      | cons hanswer hlater =>
        refine (Matching.Acts.postTurns (P := fun j => Task.Akin m j S)
          (fun _ hij => .listening (hanswer.mono hij))
          (.cons (.resume path) (akin_strays hlater))).congr (fun q => ?_) fun q => ?_
        · simp [replied,Queue.postTurn,Queue.postStrays]
        · simp [replied,Queue.postTurn,Queue.postStrays]

theorem akin_start {work : Work Unit W α} {work' : Work Unit W' α} (h : work.Akin m i S work') (path : Path) :
    m.queue.Acts i (fun j => Task.Akin m j S) (start work path) (start work' path) := by
  induction h generalizing path with
  | answer h => exact akin_settled _ _ _ (.ok h)
  | reject e => exact akin_settled _ _ _ (.error e)
  | delay h => exact (Matching.Acts.perform h).bind fun _ _ => akin_settled _
  | fork h => exact .postTurns (fun _ hij => .asleep (h.mono hij)) (.cons (.resume path) .nil)
  | callback h =>
    exact ((Matching.Acts.perform h).bind fun _ _ _ _ hx => akin_replied hx path).congr
      (start_callback _ path) (start_callback _ path)
  | andThen T h hf ih =>
    exact (ih path).bind fun j hij _ _ hchild => akin_above hchild (fun k hjk => hf k (hij.trans hjk)) path
  | both T U hl hr hf ihl ihr =>
    exact (ihl _).bind fun j hij _ _ hleft => ((ihr _).mono hij).bind fun k hjk _ _ hright =>
      akin_beside (hleft.mono hjk) hright (fun l hkl => hf l ((hij.trans hjk).trans hkl)) path

private theorem akin_goOn {work : Work Unit W α} {work' : Work Unit W' α} (h : work.Akin m i S work')
    (path : Path) : m.queue.Acts i (fun j => Task.Akin m j S) (goOn work path) (goOn work' path) := by
  have hgo : m.queue.Acts i (fun j => Task.Akin m j S)
      (fun q => if (start work path q).1.outcome?.isSome then
        (relay (start work path q).1 1,(start work path q).2.postJob path)
        else (relay (start work path q).1 0,(start work path q).2))
      fun q => if (start work' path q).1.outcome?.isSome then
        (relay (start work' path q).1 1,(start work' path q).2.postJob path)
        else (relay (start work' path q).1 0,(start work' path q).2) := by
    refine (akin_start h path).bind
      (k := fun (t : Task Unit W α) q => if t.outcome?.isSome then (relay t 1,q.postJob path) else (relay t 0,q))
      (l := fun (t : Task Unit W' α) q => if t.outcome?.isSome then (relay t 1,q.postJob path) else (relay t 0,q))
      fun j _ t t' ht => ?_
    rw [ht.isSome_eq]
    split
    · exact akin_posted (.relay ht 1) path
    · exact akin_kept (.relay ht 0)
  cases h with
  | reject e => exact akin_settled _ _ _ (.error e)
  | answer | delay | fork | callback | andThen | both => exact hgo

private theorem akin_joined {T : Likeness I β} {U : Likeness I γ} {left : Task Unit W β} {left' : Task Unit W' β}
    {right : Task Unit W γ} {right' : Task Unit W' γ} {f f' : β → γ → Unit → Outcome α}
    (hl : left.Akin m i T left') (hr : right.Akin m i U right')
    (hf : ∀ j, i ≤ j → ∀ b b' c c', T j b b' → U j c c' → S.outcome j (f b c ()) (f' b' c' ()))
    (failure : Option Failure) {steps : Nat} (hsteps : steps < 2) (here : Path) :
    m.queue.Acts i (fun j => Task.Akin m j S) (visit here (pair left right f failure steps) [])
      (visit here (pair left' right' f' failure steps) []) := by
  have hpair := Akin.pair T U hl hr hf
  cases failure with
  | some e =>
    exact (akin_kept (hpair (some e) 0)).congr
      (visit_pair_failed left right f e hsteps here) (visit_pair_failed left' right' f' e hsteps here)
  | none =>
    refine Matching.Acts.congr ?_ (visit_pair_joined left right f hsteps here)
      (visit_pair_joined left' right' f' hsteps here)
    have hx := hl.outcome?
    have hy := hr.outcome?
    generalize left.outcome? = x at hx ⊢
    generalize left'.outcome? = x' at hx ⊢
    generalize right.outcome? = y at hy ⊢
    generalize right'.outcome? = y' at hy ⊢
    rcases hx with ⟨ha | e⟩ | _
    case some.ok =>
      rcases hy with ⟨hb | e⟩ | _
      case some.ok => exact akin_settled _ _ _ (hf i le_rfl _ _ _ _ ha hb)
      all_goals exact akin_kept (hpair none steps)
    all_goals exact akin_kept (hpair none steps)

theorem akin_visit {t : Task Unit W α} {t' : Task Unit W' α} (h : t.Akin m i S t') (here rest : Path) :
    m.queue.Acts i (fun j => Task.Akin m j S) (visit here t rest) (visit here t' rest) := by
  induction h generalizing here rest with
  | settled h => exact akin_settled _ _ _ h
  | silent => exact .answer fun _ _ => .silent
  | asleep h => exact akin_start h here
  | @listening _ i S answer answer' h =>
    have hperform : m.Acts i S.outcome (fun w => (Outcome.ok (answer w).1,(answer w).2))
        fun w => (Outcome.ok (answer' w).1,(answer' w).2) := by
      intro j hij w w' hw
      obtain ⟨k,hjk,ha,hrest⟩ := h j hij w w' hw
      exact ⟨k,hjk,.ok ha,hrest⟩
    exact (Matching.Acts.perform hperform).bind fun _ _ => akin_settled S
  | @chain _ _ i S T child child' f f' h hf failure ih =>
    cases failure with
    | none =>
      cases hc : child.outcome? with
      | none =>
        have hc' := h.outcome?_eq_none hc
        exact ((ih here rest).bind fun j hij _ _ hchild => akin_above hchild
          (fun k hjk => hf k (hij.trans hjk)) here).congr (visit_chain hc f here rest)
          (visit_chain hc' f' here rest)
      | some x =>
        obtain ⟨x',hc',hx⟩ := h.exists_outcome hc
        rcases hx with ha | e
        · exact (akin_goOn (hf i le_rfl _ _ ha) here).congr (fun q => by simp only [visit,hc])
            fun q => by simp only [visit,hc']
        · cases rest with
          | nil =>
            exact (akin_kept (.chain T h hf (some e))).congr
              (fun q => by simp only [visit,hc]) fun q => by simp only [visit,hc']
          | cons side rest =>
            exact ((ih here (side :: rest)).bind (k := fun t q => (chain t f none,q))
              (l := fun t q => (chain t f' none,q)) fun j hij _ _ hchild =>
              akin_kept (.chain T hchild (fun k hjk => hf k (hij.trans hjk)) none)).congr
              (fun q => by simp only [visit,hc]) fun q => by simp only [visit,hc']
    | some e =>
      exact (ih here rest).bind (k := fun t q => (chain t f (some e),q))
        (l := fun t q => (chain t f' (some e),q)) fun j hij _ _ hchild =>
        akin_kept (.chain T hchild (fun k hjk => hf k (hij.trans hjk)) (some e))
  | @relay _ i S child child' h steps ih =>
    cases hc : child.outcome? with
    | none =>
      have hc' := h.outcome?_eq_none hc
      exact ((ih here rest).bind fun j _ _ _ hchild => akin_passOn hchild steps here).congr
        (visit_relay hc steps here rest) (visit_relay hc' steps here rest)
    | some x =>
      obtain ⟨x',hc',-⟩ := h.exists_outcome hc
      cases rest with
      | nil =>
        cases steps with
        | zero => exact (akin_kept h).congr (fun q => by simp only [visit,hc]) fun q => by simp only [visit,hc']
        | succ steps =>
          exact (akin_posted (.relay h steps) here).congr
            (fun q => by simp only [visit,hc]) fun q => by simp only [visit,hc']
      | cons side rest =>
        exact ((ih here (side :: rest)).bind (k := fun t q => (relay t steps,q))
          (l := fun t q => (relay t steps,q)) fun _ _ _ _ hchild => akin_kept (.relay hchild steps)).congr
          (fun q => by simp only [visit,hc]) fun q => by simp only [visit,hc']
  | @pair _ _ _ i S T U left left' right right' f f' hl hr hf failure steps ihl ihr =>
    cases rest with
    | nil =>
      rcases Nat.lt_or_ge steps 2 with hlast | hmore
      · exact akin_joined hl hr hf failure hlast here
      · obtain ⟨more,rfl⟩ := Nat.exists_eq_add_of_le' hmore
        exact akin_posted (.pair T U hl hr hf failure (more + 1)) here
    | cons side rest =>
      cases side with
      | left =>
        refine (ihl _ _).bind (k := fun t q => if failure.isSome then (pair t right f failure steps,q)
          else beside t right f here q) (l := fun t q => if failure.isSome then
          (pair t right' f' failure steps,q) else beside t right' f' here q) fun j hij _ _ hleft => ?_
        have hright := hr.mono hij
        have hjoin := fun k hjk => hf k (hij.trans hjk)
        split
        · exact akin_kept (.pair T U hleft hright hjoin failure steps)
        · exact akin_beside hleft hright hjoin here
      | right =>
        refine (ihr _ _).bind (k := fun t q => if failure.isSome then (pair left t f failure steps,q)
          else beside left t f here q) (l := fun t q => if failure.isSome then
          (pair left' t f' failure steps,q) else beside left' t f' here q) fun j hij _ _ hright => ?_
        have hleft := hl.mono hij
        have hjoin := fun k hjk => hf k (hij.trans hjk)
        split
        · exact akin_kept (.pair T U hleft hright hjoin failure steps)
        · exact akin_beside hleft hright hjoin here

end Task

structure Executor.Akin (m : Matching I W W') (i : I) (S : Likeness I α) (e : Executor Unit W α)
    (e' : Executor Unit W' α) : Prop where
  task : e.task.Akin m i S e'.task
  queue : e.queue.Akin m i e'.queue

theorem Work.Akin.start {work : Work Unit W α} {work' : Work Unit W' α} (h : work.Akin m i S work') {w : W}
    {w' : W'} (hw : m.between i w w') : ∃ j, i ≤ j ∧ (Executor.start work w).Akin m j S (Executor.start work' w') ∧
      m.change i w w' j (Executor.start work w).queue.world (Executor.start work' w').queue.world := by
  obtain ⟨j,hij,htask,hqueue,hchange⟩ := Task.akin_start h [] i le_rfl ⟨w,[],[]⟩ ⟨w',[],[]⟩ ⟨hw,rfl,.nil⟩
  exact ⟨j,hij,⟨htask,hqueue⟩,hchange⟩

namespace Executor

variable {e : Executor Unit W α} {e' : Executor Unit W' α}

theorem Akin.isIdle_eq (h : e.Akin m i S e') : e.isIdle = e'.isIdle := by
  obtain ⟨task,⟨w,jobs,turns⟩⟩ := e
  obtain ⟨task',⟨w',jobs',turns'⟩⟩ := e'
  obtain ⟨-,⟨-,rfl,hturns⟩⟩ := h
  cases hturns <;> rfl

theorem Akin.outcome?_eq (h : e.Akin m i (Likeness.plain I α) e') : e.task.outcome? = e'.task.outcome? := by
  have hx := h.task.outcome?
  generalize e.task.outcome? = x at hx ⊢
  generalize e'.task.outcome? = x' at hx ⊢
  cases hx with
  | none => rfl
  | some h => rw [Outcome.Akin.eq h]

variable [View W Unit] [View W' Unit]

theorem Akin.advance (h : e.Akin m i S e') : ∃ j, i ≤ j ∧ e.advance.Akin m j S e'.advance ∧
    m.change i e.queue.world e'.queue.world j e.advance.queue.world e'.advance.queue.world := by
  obtain ⟨task,⟨w,jobs,turns⟩⟩ := e
  obtain ⟨task',⟨w',jobs',turns'⟩⟩ := e'
  obtain ⟨htask,⟨hw,rfl,hturns⟩⟩ := h
  have hvisit : ∀ (path : Path) {q : Queue W} {q' : Queue W'}, q.Akin m i q' →
      ∃ j, i ≤ j ∧ Executor.Akin m j S ⟨(task.visit [] path q).1,(task.visit [] path q).2⟩
          ⟨(task'.visit [] path q').1,(task'.visit [] path q').2⟩ ∧
        m.change i q.world q'.world j (task.visit [] path q).2.world (task'.visit [] path q').2.world := by
    intro path q q' hq
    obtain ⟨j,hij,ht,hnext,hchange⟩ := Task.akin_visit htask [] path i le_rfl q q' hq
    exact ⟨j,hij,⟨ht,hnext⟩,hchange⟩
  rcases jobs with _ | ⟨path,jobs⟩
  · cases hturns with
    | nil => exact ⟨i,le_rfl,⟨htask,⟨hw,rfl,.nil⟩⟩,m.refl ..⟩
    | cons hturn hturns =>
      cases hturn with
      | resume path => exact hvisit path ⟨hw,rfl,hturns⟩
      | stray h =>
        obtain ⟨j,hij,-,hnext,hchange⟩ := h i le_rfl w w' hw
        exact ⟨j,hij,⟨htask.mono hij,⟨hnext,rfl,hturns.imp fun _ _ h => h.mono hij⟩⟩,hchange⟩
  · exact hvisit path ⟨hw,rfl,hturns⟩

theorem Akin.iterate (h : e.Akin m i S e') (n : Nat) :
    ∃ j, i ≤ j ∧ (Executor.advance^[n] e).Akin m j S (Executor.advance^[n] e') ∧
      m.change i e.queue.world e'.queue.world j (Executor.advance^[n] e).queue.world
        (Executor.advance^[n] e').queue.world := by
  induction n with
  | zero => exact ⟨i,le_rfl,h,m.refl ..⟩
  | succ n ih =>
    obtain ⟨j,hij,hn,hchange⟩ := ih
    obtain ⟨k,hjk,hnext,hchange'⟩ := hn.advance
    rw [Function.iterate_succ_apply',Function.iterate_succ_apply']
    exact ⟨k,hij.trans hjk,hnext,m.trans hchange hchange'⟩

end Executor

namespace Work.Akin

variable [View W Unit] [View W' Unit] {work : Work Unit W α} {work' : Work Unit W' α} {w : W} {w' : W'}

theorem iterate (h : work.Akin m i S work') (hw : m.between i w w') (n : Nat) :
    ∃ j, i ≤ j ∧
      (Executor.advance^[n] (.start work w)).Akin m j S (Executor.advance^[n] (.start work' w')) ∧
      m.change i w w' j (Executor.advance^[n] (.start work w)).queue.world
        (Executor.advance^[n] (.start work' w')).queue.world := by
  obtain ⟨j,hij,hstart,hchange⟩ := h.start hw
  obtain ⟨k,hjk,hn,hchange'⟩ := hstart.iterate n
  exact ⟨k,hij.trans hjk,hn,m.trans hchange hchange'⟩

/-- Where one of two works that are alike ends with a plain outcome, so does the other. -/
theorem ends (h : work.Akin m i (Likeness.plain I α) work') (hw : m.between i w w') {x : Outcome α} {v : W}
    (hends : work.Ends w x v) :
    ∃ j v', i ≤ j ∧ work'.Ends w' x v' ∧ m.between j v v' ∧ m.change i w w' j v v' := by
  obtain ⟨_,⟨n,rfl⟩,hidle,hx,rfl⟩ := hends
  obtain ⟨j,hij,hn,hchange⟩ := h.iterate hw n
  refine ⟨j,_,hij,⟨_,⟨n,rfl⟩,?_,?_,rfl⟩,hn.queue.world,hchange⟩
  · exact hn.isIdle_eq.symm.trans hidle
  · exact hn.outcome?_eq.symm.trans hx

end Work.Akin

end Effectful
