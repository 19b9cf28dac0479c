import Effectful.Proofs.Cell.Use
import Effectful.Proofs.Work.Paired
/-!
# What a side does with a cell

The work of one side of a pair, with its accesses to a cell noted, reads the cell only when it has no modify under
way, and goes on from a read with the write that belongs to it. So whenever the side is visited, the notes go on
telling how the cell came by its content, unless the side fails.
-/
namespace Effectful

variable {R W V α β : Type} [HasStore W V] (c : Cell)

/-- The notes tell how the cell came by its content from the content `v`. -/
def Recorded (v : V) (w : W × List (Access V)) (begun : Side → Option (Begun V)) : Prop :=
  ∃ z, c.content w.1 = some z ∧ History v w.2 z begun

/-- The work neither notes anything nor changes the content of the cell. -/
def Work.Apart (work : Work R (W × List (Access V)) α) : Prop :=
  ∃ work' : Work R W α, work.Related (c.keeping V (Access V)) work'

def Task.Apart (t : Task R (W × List (Access V)) α) : Prop :=
  ∃ t' : Task R W α, t.Related (c.keeping V (Access V)) t'

def Turn.Apart (turn : Turn (W × List (Access V))) : Prop :=
  ∃ turn' : Turn W, turn.Related (c.keeping V (Access V)) turn'

variable (side : Side)

/-- What the work of a side may be when the given modify has begun, or none. -/
inductive Work.Protocol : {α : Type} → Work R (W × List (Access V)) α → Option (Begun V) → Prop
  | reject {α : Type} (e : Failure) (m : Option (Begun V)) :
      Protocol (.reject e : Work R (W × List (Access V)) α) m
  | apart {α : Type} {work : Work R (W × List (Access V)) α} (h : work.Apart c) : Protocol work none
  | effect {α β : Type} {work : Work R (W × List (Access V)) β} {k : β → R → Work R (W × List (Access V)) α}
      (h : work.Apart c) (hk : ∀ b r, Protocol (k b r) none) : Protocol (.fork (.andThen work k)) none
  | read {α : Type} (last : Bool) (f : V → Outcome V) {k : V → R → Work R (W × List (Access V)) α}
      (hk : ∀ x r, Protocol (k x r) (some ⟨last,f,x⟩)) :
      Protocol (.fork (.andThen (.delay (c.read.noting (.read side last f))) k)) none
  | write {α : Type} {m : Begun V} {y : V} {k : V → R → Work R (W × List (Access V)) α}
      (hlast : m.last = false) (hy : m.f m.x = .ok y) (hk : ∀ y r, Protocol (k y r) none) :
      Protocol (.fork (.andThen (.delay ((c.write y).noting (.write side))) k)) (some m)
  | writeLast {m : Begun V} {y : V} (hy : m.f m.x = .ok y) :
      Protocol (.delay ((c.write y).noting (.write side))) (some m)

inductive Task.Protocol : {α : Type} → Task R (W × List (Access V)) α → Option (Begun V) → Prop
  | apart {α : Type} {t : Task R (W × List (Access V)) α} (h : t.Apart c) : Protocol t none
  | asleep {α : Type} {work : Work R (W × List (Access V)) α} {m : Option (Begun V)}
      (h : (Work.fork work).Protocol c side m) : Protocol (.asleep work) m
  | chain {α β : Type} {child : Task R (W × List (Access V)) β}
      {k : β → R → Work R (W × List (Access V)) α} (h : child.Apart c)
      (hk : ∀ b r, (k b r).Protocol c side none) : Protocol (.chain child k none) none
  | answered {α β : Type} {b : β} {k : β → R → Work R (W × List (Access V)) α} {m : Option (Begun V)}
      (hk : ∀ r, (k b r).Protocol c side m) : Protocol (.chain (.settled (.ok b)) k none) m
  | relay {α : Type} {t : Task R (W × List (Access V)) α} {m : Option (Begun V)} (h : Protocol t m)
      (steps : Nat) : Protocol (.relay t steps) m

variable {c side}

theorem Work.Spares.apart {work : Work R W α} (h : work.Spares V c) : Work.Apart (V := V) c work.aside :=
  ⟨work,h.related⟩

theorem Program.protocol_noted (p : Program R (c.Use R W V) α) (r : R) :
    ((p.noted side).work r).Protocol c side none := by
  refine work_expand (h := fun last op => op.noted side last) (fun work _ => work.Protocol c side none)
    (fun a => .apart ⟨_,.answer a⟩) (fun e => .reject e none) (fun op r => ?_) (fun op _ _ hk r => ?_) p r
  · cases op with
    | modify f =>
      simp only [Cell.Use.noted,Routine.act,Routine.work_bind_effect]
      refine .read true f fun x r => ?_
      cases hy : f x with
      | ok y =>
        simp only [Outcome.map_ok,ofOutcome,Routine.work_effect]
        exact .writeLast hy
      | error e =>
        simp only [Outcome.map_error,ofOutcome,Routine.work_raise]
        exact .reject e _
    | other work h =>
      simp only [Cell.Use.noted,Routine.work_effect]
      exact .apart h.apart
  · cases op with
    | modify f =>
      simp only [Cell.Use.noted,Routine.act,Routine.work_bind_bind,Routine.work_bind_effect]
      refine .read false f fun x r => ?_
      cases hy : f x with
      | ok y =>
        simp only [Outcome.map_ok,ofOutcome,Routine.work_bind_effect]
        exact .write rfl hy hk
      | error e =>
        simp only [Outcome.map_error,ofOutcome,Routine.work_bind_raise]
        exact .reject e _
    | other work h =>
      simp only [Cell.Use.noted,Routine.work_bind_effect]
      exact .effect h.apart hk

namespace Recorded

variable {v : V} {w w' : W × List (Access V)} {begun : Side → Option (Begun V)}

theorem kept (h : Recorded c v w begun) (hchange : (c.keeping V (Access V)).change w w') :
    Recorded c v w' begun := by
  obtain ⟨z,hz,hhistory⟩ := h
  refine ⟨z,hchange.2 z hz,?_⟩
  rw [hchange.1]
  exact hhistory

theorem read (h : Recorded c v w begun) (hown : begun side = none)
    (hfree : ∀ m, begun side.opposite = some m → m.last = false) (last : Bool) (f : V → Outcome V) :
    ∃ x u, c.read.noting (.read side last f) w = (.ok x,u) ∧
      Recorded c v u (Function.update begun side (some ⟨last,f,x⟩)) := by
  obtain ⟨z,hz,hhistory⟩ := h
  refine ⟨z,(w.1,w.2 ++ [.read side last f z]),?_,z,hz,hhistory.read side last f hown hfree⟩
  simp only [Action.noting,Cell.read_eq hz]

theorem write [LawfulStore W V] (h : Recorded c v w begun) {m : Begun V} (hown : begun side = some m)
    (hfree : ∀ m, begun side.opposite = some m → m.last = false) {y : V} (hy : m.f m.x = .ok y) :
    ∃ u, (c.write y).noting (.write side) w = (.ok y,u) ∧
      Recorded c v u (Function.update begun side none) := by
  obtain ⟨z,hz,hhistory⟩ := h
  exact ⟨((c.write y w.1).2,w.2 ++ [.write side y]),rfl,y,Cell.content_write hz y,
    hhistory.write side hown hy hfree⟩

end Recorded

theorem Task.Protocol.of_answered {t : Task R (W × List (Access V)) α} {m : Option (Begun V)}
    (h : t.Protocol c side m) {a : α} (ha : t.outcome? = some (.ok a)) : m = none ∧ t.Apart c := by
  cases h with
  | apart h => exact ⟨rfl,h⟩
  | asleep | chain | answered | relay => cases ha

theorem Task.Protocol.relayed {t : Task R (W × List (Access V)) α} {m : Option (Begun V)}
    (h : t.Protocol c side m) (steps : Nat) : (t.relayed steps).Protocol c side m := by
  cases t with
  | relay child more =>
    cases h with
    | apart h =>
      obtain ⟨_,h⟩ := h
      cases h with
      | relay h => exact .apart ⟨_,.relay h _⟩
    | relay h => exact .relay h _
  | _ => exact .relay h steps

private theorem apart_turns {turns : List (Turn (W × List (Access V)))} {turns' : List (Turn W)}
    (h : List.Forall₂ (Turn.Related (c.keeping V (Access V))) turns turns') :
    ∀ turn ∈ turns, turn.Apart c := by
  induction h with
  | nil => exact nofun
  | cons h _ ih => exact List.forall_mem_cons.mpr ⟨⟨_,h⟩,ih⟩

theorem Work.Apart.start {work : Work R (W × List (Access V)) α} (h : work.Apart c) (w : W × List (Access V)) :
    (Task.start work [] ⟨w,[],[]⟩).1.Apart c ∧
      (c.keeping V (Access V)).change w (Task.start work [] ⟨w,[],[]⟩).2.world ∧
      ∀ turn ∈ (Task.start work [] ⟨w,[],[]⟩).2.turns, turn.Apart c := by
  obtain ⟨work',h⟩ := h
  obtain ⟨ht,hq,hchange⟩ := Task.related_start h [] ⟨w,[],[]⟩ ⟨w.1,[],[]⟩ ⟨rfl,rfl,.nil⟩
  exact ⟨⟨_,ht⟩,hchange,apart_turns hq.turns⟩

attribute [local instance] View.first in
theorem Task.Apart.visit [View W R] {t : Task R (W × List (Access V)) α} (h : t.Apart c) (rest : Path)
    (w : W × List (Access V)) :
    (Task.visit [] t rest ⟨w,[],[]⟩).1.Apart c ∧
      (c.keeping V (Access V)).change w (Task.visit [] t rest ⟨w,[],[]⟩).2.world ∧
      ∀ turn ∈ (Task.visit [] t rest ⟨w,[],[]⟩).2.turns, turn.Apart c := by
  obtain ⟨t',h⟩ := h
  obtain ⟨ht,hq,hchange⟩ :=
    Task.related_visit Cell.look_keeping h [] rest ⟨w,[],[]⟩ ⟨w.1,[],[]⟩ ⟨rfl,rfl,.nil⟩
  exact ⟨⟨_,ht⟩,hchange,apart_turns hq.turns⟩

variable (c side) in
/-- The side has failed, or what it has done since the modifies `begun` is recorded, and it has not forgotten the job
of a modify that is the last thing it does. -/
def Continues (v : V) (begun : Side → Option (Begun V))
    (place : Task R (W × List (Access V)) α × Queue (W × List (Access V))) : Prop :=
  place.1.Failed ∨ ∃ begun', begun' side.opposite = begun side.opposite ∧
    Recorded c v place.2.world begun' ∧ place.1.Protocol c side (begun' side) ∧
    (∀ turn ∈ place.2.turns, turn.Apart c) ∧
    ∀ m, begun' side = some m → m.last = true → place.2.jobs ≠ []

namespace Continues

variable {v : V} {w : W × List (Access V)} {begun : Side → Option (Begun V)}
  {t : Task R (W × List (Access V)) α} {q q' : Queue (W × List (Access V))}

theorem relayed (h : Continues c side v begun (t,q)) (steps : Nat) (hq : q' = q ∨ q' = q.postJob []) :
    Continues c side v begun (t.relayed steps,q') := by
  rcases h with h | ⟨begun',hother,hr,ht,hturns,hjobs⟩
  · exact .inl (h.relayed steps)
  · refine .inr ⟨begun',hother,?_,ht.relayed steps,?_,?_⟩
    · obtain rfl | rfl := hq <;> exact hr
    · obtain rfl | rfl := hq <;> exact hturns
    · intro m hm hlast
      have hq' := hjobs m hm hlast
      obtain rfl | rfl := hq
      · exact hq'
      · simp [Queue.postJob]

theorem same (hr : Recorded c v w begun) (hown : begun side = none)
    (hchange : (c.keeping V (Access V)).change w q.world) (ht : t.Protocol c side none)
    (hturns : ∀ turn ∈ q.turns, turn.Apart c) : Continues c side v begun (t,q) := by
  refine .inr ⟨begun,rfl,hr.kept hchange,?_,hturns,fun m hm => ?_⟩
  · rw [hown]
    exact ht
  · rw [hown] at hm
    cases hm

private theorem asleep {work : Work R (W × List (Access V)) α}
    (h : (Work.fork work).Protocol c side (begun side)) (hr : Recorded c v w begun)
    (hlast : ∀ m, begun side = some m → m.last = false) :
    Continues c side v begun (Task.start (.fork work) [] ⟨w,[],[]⟩) := by
  refine .inr ⟨begun,rfl,hr,.asleep h,?_,fun m hm htrue => ?_⟩
  · intro turn hturn
    obtain rfl := List.mem_singleton.mp hturn
    exact ⟨_,.resume []⟩
  · rw [hlast m hm] at htrue
    cases htrue

/-- Started, the work of a side does at most a write that belongs to a read. -/
theorem start [LawfulStore W V] {work : Work R (W × List (Access V)) α}
    (h : work.Protocol c side (begun side)) (hr : Recorded c v w begun)
    (hfree : ∀ m, begun side.opposite = some m → m.last = false) :
    Continues c side v begun (Task.start work [] ⟨w,[],[]⟩) := by
  generalize hm : begun side = m at h
  cases h with
  | reject e => exact .inl (.known rfl)
  | apart h =>
    obtain ⟨ht,hchange,hturns⟩ := h.start w
    exact same hr hm hchange (.apart ht) hturns
  | effect h hk => exact asleep (hm ▸ .effect h hk) hr (by simp [hm])
  | read last f hk => exact asleep (hm ▸ .read last f hk) hr (by simp [hm])
  | write hlast hy hk => exact asleep (hm ▸ .write hlast hy hk) hr (by simp [hm,hlast])
  | @writeLast m y hy =>
    obtain ⟨u,hwrite,hru⟩ := hr.write hm hfree hy
    simp only [Task.start,Queue.perform,hwrite]
    refine .inr ⟨_,?_,hru,?_,List.forall_mem_nil _,?_⟩
    · simp [side.opposite_ne.symm]
    · rw [Function.update_self]
      exact .apart ⟨_,.settled (.ok y)⟩
    · simp

private theorem above {child : Task R (W × List (Access V)) β} {k : β → R → Work R (W × List (Access V)) α}
    (hr : Recorded c v w begun) (hown : begun side = none) (hchange : (c.keeping V (Access V)).change w q.world)
    (hchild : child.Apart c) (hk : ∀ b r, (k b r).Protocol c side none)
    (hturns : ∀ turn ∈ q.turns, turn.Apart c) :
    Continues c side v begun (Task.above child k [] q) := by
  have hchain : ∀ q' : Queue (W × List (Access V)), q' = q ∨ q' = q.postJob [] →
      Continues c side v begun (.chain child k none,q') := by
    rintro q' (rfl | rfl)
    · exact same hr hown hchange (.chain hchild hk) hturns
    · exact same hr hown hchange (.chain hchild hk) hturns
  unfold Task.above
  split
  · exact hchain _ (.inr rfl)
  · exact hchain _ (.inl rfl)

private theorem performed {t : Action (W × List (Access V)) β} {b : β} {u : W × List (Access V)}
    {k : β → R → Work R (W × List (Access V)) α} {m : Option (Begun V)} (ht : t w = (.ok b,u))
    (hr : Recorded c v u (Function.update begun side m)) (hk : ∀ r, (k b r).Protocol c side m) :
    Continues c side v begun (Task.start (.andThen (.delay t) k) [] ⟨w,[],[]⟩) := by
  simp only [Task.start,Queue.perform,ht]
  refine .inr ⟨_,Function.update_of_ne side.opposite_ne.symm .., hr,?_,List.forall_mem_nil _,fun _ _ _ => ?_⟩
  · rw [Function.update_self]
    exact .answered hk
  · exact List.cons_ne_nil [] []

private theorem awake [LawfulStore W V] {work : Work R (W × List (Access V)) α}
    (h : (Work.fork work).Protocol c side (begun side)) (hr : Recorded c v w begun)
    (hfree : ∀ m, begun side.opposite = some m → m.last = false) :
    Continues c side v begun (Task.start work [] ⟨w,[],[]⟩) := by
  generalize hm : begun side = m at h
  cases h with
  | apart h =>
    obtain ⟨_,h⟩ := h
    cases h with
    | fork h => exact start (hm ▸ .apart ⟨_,h⟩) hr hfree
  | effect h hk =>
    obtain ⟨ht,hchange,hturns⟩ := h.start w
    exact above hr hm hchange ht hk hturns
  | read last f hk =>
    obtain ⟨x,u,hread,hru⟩ := hr.read hm hfree last f
    exact performed hread hru (hk x)
  | write _ hy hk =>
    obtain ⟨u,hwrite,hru⟩ := hr.write hm hfree hy
    exact performed hwrite hru (hk _)

theorem goOn [LawfulStore W V] {work : Work R (W × List (Access V)) α}
    (h : work.Protocol c side (begun side)) (hr : Recorded c v w begun)
    (hfree : ∀ m, begun side.opposite = some m → m.last = false) :
    Continues c side v begun (Task.goOn work [] ⟨w,[],[]⟩) := by
  by_cases hwork : ∃ e, work = .reject e
  · obtain ⟨e,rfl⟩ := hwork
    exact .inl (.known rfl)
  · have hstart := start h hr hfree
    rw [Task.goOn_eq fun e he => hwork ⟨e,he⟩]
    split
    · have hrelay := hstart.relayed 1 (.inr rfl)
      rwa [Task.relayed_start] at hrelay
    · have hrelay := hstart.relayed 0 (.inl rfl)
      rwa [Task.relayed_start] at hrelay

attribute [local instance] View.first in
/-- Whatever part of a side is visited, the side keeps to its protocol. -/
theorem visit [LawfulStore W V] [View W R] {t : Task R (W × List (Access V)) α}
    (h : t.Protocol c side (begun side)) (hr : Recorded c v w begun)
    (hfree : ∀ m, begun side.opposite = some m → m.last = false) (rest : Path) :
    Continues c side v begun (Task.visit [] t rest ⟨w,[],[]⟩) := by
  generalize hm : begun side = m at h
  -- Only relays stand above the rest of a side, so only they have a hypothesis of induction.
  induction h with
  | apart h =>
    obtain ⟨ht,hchange,hturns⟩ := h.visit rest w
    exact same hr hm hchange (.apart ht) hturns
  | asleep h => exact awake (hm ▸ h) hr hfree
  | @chain _ child k h hk =>
    obtain ⟨ht,hchange,hturns⟩ := h.visit rest w
    rcases hc : child.outcome? with _ | ⟨a | e⟩
    · rw [Task.visit_chain hc]
      exact above hr hm hchange ht hk hturns
    · simp only [Task.visit,hc]
      exact goOn (hm ▸ hk a _) hr hfree
    · cases rest with
      | nil =>
        simp only [Task.visit,hc]
        exact .inl (.known rfl)
      | cons first rest =>
        simp only [Task.visit,hc]
        exact same hr hm hchange (.chain ht hk) hturns
  | @answered _ b k m hk => exact goOn (hm ▸ hk (View.look w)) hr hfree
  | @relay t m h steps ih =>
    rcases ht : t.outcome? with _ | ⟨a | e⟩
    · rw [Task.visit_relay ht,Task.passOn_eq]
      refine (ih hm).relayed steps ?_
      split
      · exact .inr rfl
      · exact .inl rfl
    · obtain ⟨rfl,_,h⟩ := h.of_answered ht
      obtain ⟨hvisit,hchange,hturns⟩ := Task.Apart.visit ⟨_,.relay h steps⟩ rest w
      exact same hr hm hchange (.apart hvisit) hturns
    · exact .inl ((Task.Failed.known ht).relay steps |>.visit ..)

end Continues

end Effectful
