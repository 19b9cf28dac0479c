import Effectful.Proofs.Program.Meaning
import Effectful.Proofs.Work.Frame
import Effectful.Proofs.Work.Rounds
/-!
# Footprints

Two sides that run on one world share no part of it if each has a part of its own, which the other does not
touch, and both only append to a log that neither reads. Work stays within its side's footprint if all of its
actions do; then it does the same in every world in which its side's part is the same.
-/
namespace Effectful

universe u v

variable {W A B E α β γ : Type} {X : Type u} {Y : Type v}

/-- The parts of a world that two sides share: the part of the one, the part of the other, and a log. -/
structure Footprint (W A B E : Type) where
  own : W → A
  other : W → B
  log : W → List E

namespace Footprint

def swap (s : Footprint W A B E) : Footprint W B A E := ⟨s.other,s.own,s.log⟩

/-- From two worlds two others are reached: the other side's part stays, and the same entries are logged. -/
structure Moved (s : Footprint W A B E) (w w' v v' : W) : Prop where
  other : s.other v = s.other w
  other' : s.other v' = s.other w'
  log : ∃ es, s.log v = s.log w ++ es ∧ s.log v' = s.log w' ++ es

variable {s : Footprint W A B E} {w w' v v' u u' : W}

theorem Moved.refl : s.Moved w w' w w' := ⟨rfl,rfl,[],by simp,by simp⟩

theorem Moved.trans (h : s.Moved w w' v v') (h' : s.Moved v v' u u') : s.Moved w w' u u' := by
  obtain ⟨es,hv,hv'⟩ := h.log
  obtain ⟨es',hu,hu'⟩ := h'.log
  refine ⟨h'.other.trans h.other,h'.other'.trans h.other',es ++ es',?_,?_⟩
  · rw [hu,hv,List.append_assoc]
  · rw [hu',hv',List.append_assoc]

/-- What an action answers, leaves of its side's part and logs depends on its side's part alone. -/
def Local (s : Footprint W A B E) (t : W → X × W) : Prop :=
  ∀ w w', s.own w = s.own w' →
    (t w).1 = (t w').1 ∧ s.own (t w).2 = s.own (t w').2 ∧ s.Moved w w' (t w).2 (t w').2

end Footprint

def Work.Within (s : Footprint W A B E) {α : Type} : Work Unit W α → Prop
  | .answer _ | .reject _ => True
  | .delay t => s.Local t
  | .fork work => Within s work
  | .callback register => s.Local register ∧
      ∀ w reply, (register w).1 = .ok reply → ∀ answer ∈ reply.later, s.Local answer
  | .andThen work f => Within s work ∧ ∀ b r, Within s (f b r)
  | .both left right _ => Within s left ∧ Within s right

def Task.Within (s : Footprint W A B E) {α : Type} : Task Unit W α → Prop
  | .settled _ | .silent => True
  | .asleep work => work.Within s
  | .listening answer => s.Local answer
  | .chain child f _ => Within s child ∧ ∀ b r, (f b r).Within s
  | .relay child _ => Within s child
  | .pair left right _ _ _ => Within s left ∧ Within s right

def Turn.Within (s : Footprint W A B E) : Turn W → Prop
  | .resume _ => True
  | .stray effect => s.Local fun w => ((),effect w)

namespace Footprint

/-- Two queues with the same requests, on worlds in which the side's part is the same. -/
structure Alike (s : Footprint W A B E) (q q' : Queue W) : Prop where
  own : s.own q.world = s.own q'.world
  jobs : q.jobs = q'.jobs
  turns : q.turns = q'.turns
  within : ∀ turn ∈ q.turns, turn.Within s

/-- From queues that are alike, a step comes to the same result, of which `P` holds, and to queues that are
alike. -/
def Confines (s : Footprint W A B E) (P : X → Prop) (g : Queue W → X × Queue W) : Prop :=
  ∀ q q', s.Alike q q' → (g q).1 = (g q').1 ∧ P (g q).1 ∧ s.Alike (g q).2 (g q').2 ∧
    s.Moved q.world q'.world (g q).2.world (g q').2.world

variable {s : Footprint W A B E} {P : X → Prop} {Q : Y → Prop}

theorem Confines.answer {x : X} (h : P x) : s.Confines P fun q => (x,q) :=
  fun _ _ hq => ⟨rfl,h,hq,.refl⟩

theorem Confines.congr {f g : Queue W → X × Queue W} (hg : s.Confines P g) (h : ∀ q, f q = g q) :
    s.Confines P f := by
  rwa [funext h]

theorem Confines.bind {g : Queue W → Y × Queue W} {k : Y → Queue W → X × Queue W}
    (hg : s.Confines Q g) (hk : ∀ y, Q y → s.Confines P (k y)) :
    s.Confines P fun q => k (g q).1 (g q).2 := by
  intro q q' hq
  obtain ⟨hy,hQ,hnext,hmoved⟩ := hg q q' hq
  obtain ⟨hx,hP,hlast,hmoved'⟩ := hk _ hQ _ _ hnext
  dsimp only
  rw [← hy]
  exact ⟨hx,hP,hlast,hmoved.trans hmoved'⟩

theorem Confines.postJob {x : X} (h : P x) (path : Path) :
    s.Confines P fun q => (x,q.postJob path) := by
  intro q q' hq
  refine ⟨rfl,h,⟨hq.own,?_,hq.turns,hq.within⟩,.refl⟩
  simp [Queue.postJob,hq.jobs]

theorem Confines.postTurns {x : X} (h : P x) (turns : List (Turn W)) (hturns : ∀ t ∈ turns, t.Within s) :
    s.Confines P fun q => (x,{ q with turns := q.turns ++ turns }) := by
  intro q q' hq
  refine ⟨rfl,h,⟨hq.own,hq.jobs,?_,?_⟩,.refl⟩
  · simp [hq.turns]
  · intro turn hturn
    rcases List.mem_append.mp hturn with hturn | hturn
    · exact hq.within turn hturn
    · exact hturns turn hturn

theorem Confines.perform {t : Action W α} (h : s.Local t) :
    s.Confines (fun x => ∃ w, (t w).1 = x) fun q => q.perform t := by
  intro q q' hq
  obtain ⟨hx,hown,hmoved⟩ := h _ _ hq.own
  exact ⟨hx,⟨_,rfl⟩,⟨hown,hq.jobs,hq.turns,hq.within⟩,hmoved⟩

end Footprint

namespace Task

variable {s : Footprint W A B E}

private theorem confines_above {child : Task Unit W β} {f : β → Unit → Work Unit W α} (path : Path)
    (hchild : child.Within s) (hf : ∀ b r, (f b r).Within s) :
    s.Confines (Within s) (above child f path) := by
  unfold above
  split
  · exact .postJob ⟨hchild,hf⟩ path
  · exact .answer ⟨hchild,hf⟩

private theorem confines_passOn {child : Task Unit W α} (steps : Nat) (path : Path)
    (hchild : child.Within s) : s.Confines (Within s) (passOn child steps path) := by
  unfold passOn
  split
  · exact .answer hchild
  · split
    · exact Footprint.Confines.postJob (x := relay child steps) hchild path
    · exact .answer hchild

private theorem confines_beside {left : Task Unit W β} {right : Task Unit W γ}
    {f : β → γ → Unit → Outcome α} (path : Path) (hl : left.Within s) (hr : right.Within s) :
    s.Confines (Within s) (beside left right f path) := by
  unfold beside
  split
  · exact .postJob ⟨hl,hr⟩ path
  · exact .postJob ⟨hl,hr⟩ path
  · exact .postJob ⟨hl,hr⟩ path
  · exact .answer ⟨hl,hr⟩

private theorem within_strays {effects : List (W → α × W)} (h : ∀ t ∈ effects, s.Local t) :
    ∀ turn ∈ effects.map fun effect => Turn.stray fun w => (effect w).2, turn.Within s := by
  intro turn hturn
  obtain ⟨effect,hmem,rfl⟩ := List.mem_map.mp hturn
  intro w w' hown
  exact ⟨rfl,(h effect hmem w w' hown).2⟩

private theorem confines_replied {register : Action W (Reply W α)} {x : Outcome (Reply W α)}
    (hx : ∃ w, (register w).1 = x)
    (h : ∀ w reply, (register w).1 = .ok reply → ∀ answer ∈ reply.later, s.Local answer) (path : Path) :
    s.Confines (Within s) (replied path x) := by
  obtain ⟨w,hw⟩ := hx
  rcases x with ⟨_ | ⟨a,now⟩,_ | ⟨answer,later⟩⟩ | e
  · exact .answer trivial
  · have hlater := List.forall_mem_cons.mp (h w _ hw)
    refine (Footprint.Confines.postTurns (P := Within s) (x := listening answer) hlater.1
      (.resume path :: later.map fun effect => .stray fun w => (effect w).2) ?_).congr fun q => ?_
    · exact List.forall_mem_cons.mpr ⟨trivial,within_strays hlater.2⟩
    · simp [replied,Queue.postTurn,Queue.postStrays]
  · exact .postTurns trivial _ (within_strays (h w _ hw))
  · exact .postTurns trivial _ (within_strays (h w _ hw))
  · exact .answer trivial

theorem confines_start {work : Work Unit W α} (h : work.Within s) (path : Path) :
    s.Confines (Within s) (start work path) := by
  induction work generalizing path with
  | answer a => exact .answer trivial
  | reject e => exact .answer trivial
  | delay t => exact (Footprint.Confines.perform h).bind fun _ _ => .answer trivial
  | fork work ih =>
    refine Footprint.Confines.postTurns (x := asleep work) h [.resume path] fun turn hturn => ?_
    rw [List.mem_singleton] at hturn
    subst hturn
    trivial
  | callback register =>
    exact ((Footprint.Confines.perform h.1).bind fun x hx =>
      confines_replied hx h.2 path).congr (start_callback register path)
  | andThen work f ih => exact (ih h.1 path).bind fun _ hchild => confines_above path hchild h.2
  | both left right f ihl ihr =>
    exact (ihl h.1 _).bind fun _ hl => (ihr h.2 _).bind fun _ hr => confines_beside path hl hr

private theorem confines_goOn {work : Work Unit W α} (h : work.Within s) (path : Path) :
    s.Confines (Within s) (goOn work path) := by
  have hgo : s.Confines (Within s) fun q => if (start work path q).1.outcome?.isSome then
      (relay (start work path q).1 1,(start work path q).2.postJob path)
      else (relay (start work path q).1 0,(start work path q).2) := by
    refine Footprint.Confines.bind (k := fun (next : Task Unit W α) q =>
      if next.outcome?.isSome then (relay next 1,q.postJob path) else (relay next 0,q))
      (confines_start h path) fun next hnext => ?_
    split
    · exact Footprint.Confines.postJob (x := relay next 1) hnext path
    · exact .answer hnext
  cases work with
  | reject e => exact .answer trivial
  | _ => exact hgo

private theorem confines_joined [View W Unit] {left : Task Unit W β} {right : Task Unit W γ}
    {f : β → γ → Unit → Outcome α} {failure : Option Failure} {steps : Nat} (here : Path)
    (h : (pair left right f failure steps).Within s) (hsteps : steps < 2) :
    s.Confines (Within s) (visit here (pair left right f failure steps) []) := by
  cases failure with
  | some e =>
    exact (Footprint.Confines.answer (x := pair left right f (some e) 0) h).congr fun q =>
      visit_pair_failed left right f e hsteps here q
  | none =>
    refine Footprint.Confines.congr ?_ fun q => visit_pair_joined left right f hsteps here q
    split
    case h_1 a b hl hr => exact Footprint.Confines.answer (x := settled (f a b ())) trivial
    case h_2 => exact .answer h

theorem confines_visit [View W Unit] {task : Task Unit W α} (h : task.Within s) (here rest : Path) :
    s.Confines (Within s) (visit here task rest) := by
  induction task generalizing here rest with
  | settled | silent => exact .answer trivial
  | asleep work => exact confines_start h here
  | listening answer =>
    have hlocal : s.Local fun w => (Outcome.ok (answer w).1,(answer w).2) := by
      intro w w' hown
      obtain ⟨ha,hmoved⟩ := h w w' hown
      exact ⟨congrArg Outcome.ok ha,hmoved⟩
    exact (Footprint.Confines.perform hlocal).bind fun x _ => .answer (x := settled x) trivial
  | chain child f failure ih =>
    cases failure with
    | none =>
      cases hc : child.outcome? with
      | none =>
        exact ((ih h.1 here rest).bind fun _ hchild => confines_above here hchild h.2).congr fun q =>
          by simp only [visit,hc]
      | some x =>
        cases x with
        | ok a => exact (confines_goOn (h.2 a ()) here).congr fun q => by simp only [visit,hc]
        | error e =>
          cases rest with
          | nil =>
            exact (Footprint.Confines.answer (x := chain child f (some e)) h).congr fun q =>
              by simp only [visit,hc]
          | cons side rest =>
            exact ((ih h.1 here (side :: rest)).bind fun child hchild =>
              .answer (x := chain child f none) ⟨hchild,h.2⟩).congr fun q => by simp only [visit,hc]
    | some e =>
      exact (ih h.1 here rest).bind fun child hchild => .answer (x := chain child f (some e)) ⟨hchild,h.2⟩
  | relay child steps ih =>
    cases hc : child.outcome? with
    | none =>
      exact ((ih h here rest).bind fun _ hchild => confines_passOn steps here hchild).congr fun q =>
        by simp only [visit,hc]
    | some x =>
      cases rest with
      | nil =>
        cases steps with
        | zero => exact (Footprint.Confines.answer (x := child) h).congr fun q => by simp only [visit,hc]
        | succ steps =>
          exact (Footprint.Confines.postJob (x := relay child steps) h here).congr fun q =>
            by simp only [visit,hc]
      | cons side rest =>
        exact ((ih h here (side :: rest)).bind fun child hchild =>
          .answer (x := relay child steps) hchild).congr fun q => by simp only [visit,hc]
  | pair left right f failure steps ihl ihr =>
    cases rest with
    | nil =>
      rcases steps with _ | _ | steps
      · exact confines_joined here h (by omega)
      · exact confines_joined here h (by omega)
      · exact Footprint.Confines.postJob (x := pair left right f failure (steps + 1)) h here
    | cons side rest =>
      cases side with
      | left =>
        refine Footprint.Confines.bind (k := fun left q =>
          if failure.isSome then (pair left right f failure steps,q) else beside left right f here q)
          (ihl h.1 _ _) fun _ hl => ?_
        split
        · exact .answer ⟨hl,h.2⟩
        · exact confines_beside here hl h.2
      | right =>
        refine Footprint.Confines.bind (k := fun right q =>
          if failure.isSome then (pair left right f failure steps,q) else beside left right f here q)
          (ihr h.2 _ _) fun _ hr => ?_
        split
        · exact .answer ⟨h.1,hr⟩
        · exact confines_beside here h.1 hr

end Task

structure Executor.Alike (s : Footprint W A B E) (e e' : Executor Unit W α) : Prop where
  task : e.task = e'.task
  within : e.task.Within s
  queue : s.Alike e.queue e'.queue

theorem Work.Within.start_alike {s : Footprint W A B E} {work : Work Unit W α} (h : work.Within s) {w w' : W}
    (hown : s.own w = s.own w') :
    (Executor.start work w).Alike s (Executor.start work w') ∧
      s.Moved w w' (Executor.start work w).queue.world (Executor.start work w').queue.world := by
  have hqueue : s.Alike (Queue.mk w [] []) (Queue.mk w' [] []) := ⟨hown,rfl,rfl,nofun⟩
  obtain ⟨ht,hw,hq,hmoved⟩ := Task.confines_start h [] _ _ hqueue
  exact ⟨⟨ht,hw,hq⟩,hmoved⟩

section Rounds

variable [View W Unit] {s : Footprint W A B E}

theorem Executor.Alike.advance {e e' : Executor Unit W α} (h : e.Alike s e') :
    e.advance.Alike s e'.advance ∧
      s.Moved e.queue.world e'.queue.world e.advance.queue.world e'.advance.queue.world := by
  obtain ⟨task,⟨w,jobs,turns⟩⟩ := e
  obtain ⟨task',⟨w',jobs',turns'⟩⟩ := e'
  obtain ⟨rfl,hwithin,⟨hown,rfl,rfl,hturns⟩⟩ := h
  rcases jobs with _ | ⟨path,jobs⟩
  · rcases turns with _ | ⟨path | effect,turns⟩
    · exact ⟨⟨rfl,hwithin,⟨hown,rfl,rfl,hturns⟩⟩,.refl⟩
    · have hqueue : s.Alike (Queue.mk w [] turns) (Queue.mk w' [] turns) :=
        ⟨hown,rfl,rfl,(List.forall_mem_cons.mp hturns).2⟩
      obtain ⟨ht,hw,hq,hmoved⟩ := Task.confines_visit hwithin [] path _ _ hqueue
      exact ⟨⟨ht,hw,hq⟩,hmoved⟩
    · obtain ⟨heffect,hrest⟩ := List.forall_mem_cons.mp hturns
      obtain ⟨-,hown',hmoved⟩ := heffect w w' hown
      exact ⟨⟨rfl,hwithin,⟨hown',rfl,rfl,hrest⟩⟩,hmoved⟩
  · have hqueue : s.Alike (Queue.mk w jobs turns) (Queue.mk w' jobs turns) := ⟨hown,rfl,rfl,hturns⟩
    obtain ⟨ht,hw,hq,hmoved⟩ := Task.confines_visit hwithin [] path _ _ hqueue
    exact ⟨⟨ht,hw,hq⟩,hmoved⟩

theorem Executor.Alike.iterate {e e' : Executor Unit W α} (h : e.Alike s e') (n : Nat) :
    (Executor.advance^[n] e).Alike s (Executor.advance^[n] e') ∧
      s.Moved e.queue.world e'.queue.world (Executor.advance^[n] e).queue.world
        (Executor.advance^[n] e').queue.world := by
  induction n with
  | zero => exact ⟨h,.refl⟩
  | succ n ih =>
    rw [Function.iterate_succ_apply',Function.iterate_succ_apply']
    exact ⟨ih.1.advance.1,ih.2.trans ih.1.advance.2⟩

namespace Work

theorem Within.ends {work : Work Unit W α} (h : work.Within s) {w w' v : W} {x : Outcome α}
    (hends : work.Ends w x v) (hown : s.own w = s.own w') :
    ∃ v', work.Ends w' x v' ∧ s.own v = s.own v' ∧ s.Moved w w' v v' := by
  obtain ⟨e,⟨n,rfl⟩,hidle,hx,rfl⟩ := hends
  obtain ⟨hstart,hmoved⟩ := h.start_alike hown
  obtain ⟨halike,hmoved'⟩ := hstart.iterate n
  refine ⟨_,⟨_,⟨n,rfl⟩,?_,by rw [← halike.task,hx],rfl⟩,halike.queue.own,hmoved.trans hmoved'⟩
  rw [Executor.isIdle_iff] at hidle ⊢
  rwa [← halike.queue.jobs,← halike.queue.turns]

end Work

end Rounds

namespace Work

/-- What holds of answers, failures and the pieces of work of a program, and is kept by forks and by chains, holds of
the work that the program is interpreted as, whether its chains go on on the executor or on the caller's turn. -/
theorem holds_interpret {R : Type} {F : Type → Type u} (driver : String) {t : Translator F (Work R W)}
    {c : Context R (Work R W)} (hc : c = context ∨ c = eagerContext) (P : {α : Type} → Work R W α → Prop)
    (hanswer : ∀ {α : Type} (a : α), P (answer a : Work R W α))
    (hreject : ∀ {α : Type} (e : Failure), P (reject e : Work R W α))
    (hfork : ∀ {α : Type} {work : Work R W α}, P work → P (fork work))
    (hchain : ∀ {α β : Type} {work : Work R W β} {f : β → R → Work R W α}, P work → (∀ b r, P (f b r)) →
      P (andThen work f))
    {p : Program R F α} (hp : p.Uses fun op => ∀ work, t.apply op = .ok work → P work) (r : R) :
    P (ofOutcome (p.interpret driver t c r)) := by
  have hbuilt : ∀ {α : Type} {x : Outcome (Work R W α)}, (∀ {work}, x = .ok work → P work) → P (ofOutcome x) := by
    intro α x h
    cases x with
    | ok work => exact h rfl
    | error e => exact hreject e
  refine hbuilt fun h => ?_
  obtain rfl | rfl := hc
  · exact Program.Uses.interpret_holds driver context P hanswer
      (fun hm hf => hfork (hchain hm fun b r => hbuilt (hf b r))) hp r h
  · exact Program.Uses.interpret_holds driver eagerContext P hanswer
      (fun hm hf => hchain hm fun b r => hbuilt (hf b r)) hp r h

theorem within_interpret {s : Footprint W A B E} {F : Type → Type u} (driver : String)
    {t : Translator F (Work Unit W)} {c : Context Unit (Work Unit W)} (hc : c = context ∨ c = eagerContext)
    {p : Program Unit F α} (hp : p.Uses fun op => ∀ work, t.apply op = .ok work → work.Within s) (r : Unit) :
    (ofOutcome (p.interpret driver t c r)).Within s :=
  holds_interpret driver hc (Within s) (fun _ => trivial) (fun _ => trivial) id And.intro hp r

end Work

end Effectful
