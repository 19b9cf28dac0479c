import Effectful.Proofs.Computation.Runners
import Effectful.Proofs.Console.Terminals
import Effectful.Proofs.Program.Exposure
import Effectful.Proofs.Program.Nesting
import Effectful.Proofs.Work.Clock
import Effectful.Proofs.Work.Correspondence
/-!
# The turns of a computation

As work for the executor, a computation takes one turn for each of its actions: an action that a continuation waits for
is forked to the next turn, and the continuation goes on with what comes next on that turn. Only an action that is the
bare end of the computation is done where it is met. Finished parts, maps and the nesting of binds take no turn.
-/
namespace Effectful

universe u

open Filter

namespace Program

variable {R W : Type} {F : Type → Type u} [View W R] (driver : String) (t : Translator F (Action W))

/-- The run comes to an operation that is the end of the program, with no continuation that waits for its answer. -/
def endsBare {α : Type} : Program R F α → W → Bool
  | done _, _ | malformed _, _ | raise _, _ => false
  | effect _, _ => true
  | bind sub k, w =>
    match eval driver t sub w with
    | (.ok b,u) => endsBare (k b (View.look u)) u
    | (.error _,_) => false

variable {driver t} {α β γ : Type} {w u : W}

theorem endsBare_bind_of_ok {sub : Program R F β} {k : β → R → Program R F α} {b : β}
    (h : eval driver t sub w = (.ok b,u)) :
    endsBare driver t (.bind sub k) w = endsBare driver t (k b (View.look u)) u := by
  simp only [endsBare,h]

theorem endsBare_bind_of_error {sub : Program R F β} {k : β → R → Program R F α} {e : Failure}
    (h : eval driver t sub w = (.error e,u)) : endsBare driver t (.bind sub k) w = false := by
  simp only [endsBare,h]

theorem endsBare_bind_bind (y : Program R F γ) (g : γ → R → Program R F β) (k : β → R → Program R F α) (w : W) :
    endsBare driver t (.bind (.bind y g) k) w = endsBare driver t (.bind y fun c r => .bind (g c r) k) w := by
  simp only [endsBare,eval,Action.andThen]
  rcases eval driver t y w with ⟨c | e,u⟩ <;> rfl

end Program

/-- When so many notes are made, after the given turn: each on a turn of its own, but the last one of a bare end on
the turn of the one before it. -/
def timetable {E : Type} (turn : Nat) (bare : Bool) (notes : List E) : List (Nat × E) :=
  notes.mapIdx fun i note => (if bare ∧ i + 1 = notes.length then turn + i else turn + i + 1,note)

theorem timetable_cons {E : Type} (turn : Nat) {bare : Bool} (note : E) {notes : List E} (h : bare → notes ≠ []) :
    timetable turn bare (note :: notes) = (turn + 1,note) :: timetable (turn + 1) bare notes := by
  have hfirst : ¬(bare ∧ 0 + 1 = (note :: notes).length) := fun ⟨hbare,hlength⟩ =>
    h hbare (List.length_eq_zero_iff.mp (Nat.succ_injective hlength).symm)
  rw [timetable,List.mapIdx_cons,if_neg hfirst,timetable]
  congr 2
  funext i next
  have hlast : i + 1 + 1 = (note :: notes).length ↔ i + 1 = notes.length := Nat.add_right_cancel_iff
  simp only [hlast]
  congr 1
  split <;> omega

theorem timetable_of_length {E : Type} (turn : Nat) {bare : Bool} {notes : List E} (h : notes.length = bare.toNat) :
    timetable turn bare notes = notes.map (turn,·) := by
  cases bare with
  | false =>
    obtain rfl := List.length_eq_zero_iff.mp h
    rfl
  | true =>
    obtain ⟨note,rfl⟩ := List.length_eq_one_iff.mp h
    rfl

theorem exists_mem_timetable_zero {E : Type} {bare : Bool} {notes : List E} :
    (∃ note, (0,note) ∈ timetable 0 bare notes) ↔ bare = true ∧ notes.length = 1 := by
  constructor
  · rintro ⟨note,hmem⟩
    obtain ⟨i,hi,heq⟩ := List.mem_mapIdx.mp hmem
    have hturn := congrArg Prod.fst heq
    dsimp only at hturn
    split at hturn
    case isTrue h => exact ⟨h.1,by omega⟩
    case isFalse => omega
  · rintro ⟨rfl,hlength⟩
    obtain ⟨note,rfl⟩ := List.length_eq_one_iff.mp hlength
    exact ⟨note,.head _⟩

example : timetable 0 true ["a","b","c"] = [(1,"a"),(2,"b"),(2,"c")] := rfl

/-- A world that is kept with notes corresponds to the world that is kept. -/
def Correspondence.first (W E : Type) : Correspondence (W × List E) W :=
  ⟨fun w v => w.1 = v,fun _ _ => True,fun _ => trivial,fun _ _ => trivial⟩

namespace Computation

variable {R W E α β γ : Type} (label : {β : Type} → Action W β → E)

def noted (t : Action W α) : Action (W × List E) α := fun w => ((t w.1).1,(t w.1).2,w.2 ++ [label t])

/-- The work that a computation stands for, each action of it on the turn that starts it, with a note. -/
def notedWork (p : Computation R W α) (r : R) : Work R (W × List E) α :=
  Work.ofOutcome (p.runIn ⟨fun t => .ok (.delay (noted label t))⟩ Work.context r)

theorem related_notedWork (p : Computation R W α) (r : R) :
    (notedWork label p r).Related (Correspondence.first W E)
      (Work.ofOutcome (p.runIn (Work.delaying R W) Work.context r)) := by
  have hnoted : ∀ {β : Type} (op : Action W β), (Correspondence.first W E).Acts Eq (noted label op) op := by
    rintro β op ⟨w,notes⟩ _ rfl
    exact ⟨rfl,rfl,trivial⟩
  unfold notedWork Program.runIn
  induction p using Program.induct_next generalizing r with
  | done a =>
    rw [Program.interpret_done,Program.interpret_done]
    exact .answer a
  | effect op =>
    rw [Program.interpret_effect,Program.interpret_effect]
    exact .delay (hnoted op)
  | malformed tag =>
    rw [Program.interpret_malformed,Program.interpret_malformed]
    exact .reject _
  | raise e =>
    rw [Program.interpret_raise,Program.interpret_raise]
    exact .reject e
  | bind_done a k ih =>
    rw [Program.interpret_bind_done,Program.interpret_bind_done]
    exact ih r r
  | bind_effect op k ih =>
    rw [Program.interpret_bind_effect,Program.interpret_bind_effect]
    exact .fork (.andThen (.delay (hnoted op)) fun b r' => ih b r' r')
  | bind_bind y g k ih =>
    rw [Program.interpret_bind_bind,Program.interpret_bind_bind]
    exact ih r
  | bind_malformed tag k =>
    rw [Program.interpret_bind_malformed,Program.interpret_bind_malformed]
    exact .reject _
  | bind_raise e k =>
    rw [Program.interpret_bind_raise,Program.interpret_bind_raise]
    exact .reject e

variable [View W R]

def notes (p : Computation R W α) (w : W) : List E :=
  (p.operations "runFree" Translator.id w).map fun op => label op.2

section Actions

variable {op : Action W β} {k : β → R → Computation R W α} {w u : W}

theorem trace_act {x : Outcome β} (hop : op w = (x,u)) :
    Program.trace "runFree" Translator.id (.effect op : Computation R W β) w = ([⟨β,op⟩],x,u) := by
  rw [Program.trace_effect rfl,hop]

theorem notes_bind_effect_of_ok {b : β} (hop : op w = (.ok b,u)) :
    notes label (.bind (.effect op) k) w = label op :: notes label (k b (View.look u)) u := by
  obtain ⟨hops,-⟩ := Prod.mk.inj (Program.trace_bind_of_ok (k := k) (trace_act hop))
  exact congrArg (List.map _) hops

theorem notes_bind_effect_of_error {e : Failure} (hop : op w = (.error e,u)) :
    notes label (.bind (.effect op) k) w = [label op] := by
  obtain ⟨hops,-⟩ := Prod.mk.inj (Program.trace_bind_of_error (k := k) (trace_act hop))
  exact congrArg (List.map _) hops

theorem notes_bind_bind (y : Computation R W γ) (g : γ → R → Computation R W β) (k : β → R → Computation R W α)
    (w : W) :
    notes label (.bind (.bind y g) k) w = notes label (.bind y fun c r => .bind (g c r) k) w := by
  have htrace : Program.trace "runFree" Translator.id (.bind (.bind y g) k) w =
      Program.trace "runFree" Translator.id (.bind y fun c r => .bind (g c r) k) w := Program.trace_bind_bind y g k w
  exact congrArg (List.map _) (congrArg Prod.fst htrace)

theorem notes_ne_nil {p : Computation R W α} {w : W} (h : p.endsBare "runFree" Translator.id w = true) :
    notes label p w ≠ [] := by
  unfold notes
  rw [ne_eq,List.map_eq_nil_iff]
  induction p generalizing w with
  | done | malformed | raise => cases h
  | effect op => exact List.cons_ne_nil _ _
  | bind sub k _ ihk =>
    rcases hsub : Program.eval "runFree" Translator.id sub w with ⟨b | e,u⟩
    · rw [Program.endsBare_bind_of_ok hsub] at h
      simp only [Program.operations,hsub]
      exact List.append_ne_nil_of_right_ne_nil _ (ihk b (View.look u) h)
    · rw [Program.endsBare_bind_of_error hsub] at h
      cases h

theorem endsBare_one_iff (p : Computation R W α) (w : W) :
    p.endsBare "runFree" Translator.id w = true ∧ (notes label p w).length = 1 ↔
      ∃ op, p.step (View.look w) = .ok (.effect op) := by
  induction p using Program.induct_next with
  | done a =>
    rw [Program.step_done]
    exact ⟨nofun,nofun⟩
  | effect op =>
    rw [Program.step_effect]
    exact ⟨fun _ => ⟨op,rfl⟩,fun _ => ⟨rfl,rfl⟩⟩
  | malformed tag =>
    rw [Program.step_malformed]
    exact ⟨nofun,nofun⟩
  | raise e =>
    rw [Program.step_raise]
    exact ⟨nofun,nofun⟩
  | bind_done a k ih =>
    rw [Program.step_bind_done]
    exact ih (View.look w)
  | bind_effect op k _ =>
    rw [Program.step_bind_effect]
    refine ⟨fun ⟨hbare,hlength⟩ => ?_,nofun⟩
    rcases hop : op w with ⟨b | e,u⟩
    · rw [notes_bind_effect_of_ok label hop,List.length_cons,Nat.add_eq_right,List.length_eq_zero_iff] at hlength
      rw [Program.endsBare_bind_of_ok (k := k) (congrArg Prod.snd (trace_act hop))] at hbare
      exact absurd hlength (notes_ne_nil label hbare)
    · rw [Program.endsBare_bind_of_error (k := k) (congrArg Prod.snd (trace_act hop))] at hbare
      cases hbare
  | bind_bind y g k ih =>
    rw [Program.step_bind_bind,notes_bind_bind,Program.endsBare_bind_bind]
    exact ih
  | bind_malformed tag k =>
    rw [Program.step_bind_malformed]
    exact ⟨nofun,nofun⟩
  | bind_raise e k =>
    rw [Program.step_bind_raise]
    exact ⟨nofun,nofun⟩

end Actions

attribute [local instance] View.first

/-- From a place below a stack, on the given turn and with so many entries, the executor comes to the outcome of the
computation. Its actions are entered as the timetable says, and each but the one of a bare end has taken a turn. -/
def Arrives (p : Computation R W α) (w : W) (s : Task.Stack R (W × List E) α γ) (turn : Nat) (entries : List (Nat × E))
    (before : List E) (place : Task R (W × List E) α × Queue (W × List E)) : Prop :=
  ∃ t : Task R (W × List E) α, t.outcome? = some (Program.eval "runFree" Translator.id p w).1 ∧
    (Clock.stamped turn entries (s.executor place)).Reaches
      ⟨s.executor (t,{ world := ((Program.eval "runFree" Translator.id p w).2,before ++ notes label p w) }),
        turn + (notes label p w).length - (p.endsBare "runFree" Translator.id w).toNat,
        entries ++ timetable turn (p.endsBare "runFree" Translator.id w) (notes label p w)⟩

/-- Started on any turn below any stack, the work of a computation arrives. -/
def KeepsTime (p : Computation R W α) (w : W) : Prop :=
  ∀ (γ : Type) (s : Task.Stack R (W × List E) α γ) (turn : Nat) (entries : List (Nat × E)) (before : List E),
    entries.length = before.length →
      Arrives label p w s turn entries before (Task.start (notedWork label p (View.look w)) [] { world := (w,before) })

variable {label}

theorem keepsTime_of_start {p : Computation R W α} {w : W}
    (hstart : ∀ before, Task.start (notedWork label p (View.look w)) [] { world := (w,before) } =
      (.settled (Program.eval "runFree" Translator.id p w).1,
        { world := ((Program.eval "runFree" Translator.id p w).2,before ++ notes label p w) }))
    (hlength : (notes label p w).length = (p.endsBare "runFree" Translator.id w).toNat) : KeepsTime label p w := by
  intro γ s turn entries before hentered
  refine ⟨.settled (Program.eval "runFree" Translator.id p w).1,rfl,?_⟩
  rw [hstart,Clock.stamped_executor _ hentered rfl,timetable_of_length turn hlength,hlength,Nat.add_sub_cancel]
  exact .refl _

theorem keepsTime_reject {p : Computation R W α} {w : W} {e : Failure}
    (hwork : notedWork label p (View.look w) = .reject e)
    (htrace : Program.trace "runFree" Translator.id p w = ([],.error e,w))
    (hbare : p.endsBare "runFree" Translator.id w = false) : KeepsTime label p w := by
  obtain ⟨hops,heval⟩ := Prod.mk.inj htrace
  have hnotes : notes label p w = [] := by rw [notes,hops,List.map_nil]
  refine keepsTime_of_start (fun before => ?_) (by rw [hnotes,hbare]; rfl)
  rw [hwork,heval,hnotes,List.append_nil]
  rfl

theorem KeepsTime.goOn {p : Computation R W α} {w : W} (h : KeepsTime label p w) (s : Task.Stack R (W × List E) α γ)
    (turn : Nat) (entries : List (Nat × E)) (before : List E) (hentered : entries.length = before.length) :
    Arrives label p w s turn entries before
      (Task.goOn (notedWork label p (View.look w)) [] { world := (w,before) }) := by
  unfold Arrives
  obtain hgo | ⟨steps,hgo⟩ := s.executor_goOn_cases (notedWork label p (View.look w)) { world := (w,before) }
  · rw [hgo]
    exact h γ s turn entries before hentered
  · obtain ⟨t,ht,hr⟩ := h γ (.relay steps s) turn entries before hentered
    rw [hgo]
    exact ⟨t,ht,hr.trans (Clock.relay_reaches ht (by simp [timetable,hentered]) steps)⟩

variable (label) in
/-- An action that a continuation waits for is performed on the next turn. -/
theorem tick_fork {op : Action W β} {w u : W} {x : Outcome β} (hop : op w = (x,u)) (f : β → R → Work R (W × List E) α)
    (s : Task.Stack R (W × List E) α γ) (turn : Nat) {entries : List (Nat × E)} {before : List E}
    (hentered : entries.length = before.length) :
    Clock.tick ⟨s.executor (Task.start (.fork (.andThen (.delay (noted label op)) f)) [] { world := (w,before) }),
        turn,entries⟩ =
      ⟨(Task.Stack.chain f s).executor (.settled x,{ world := (u,before ++ [label op]) }),turn + 1,
        entries ++ [(turn + 1,label op)]⟩ := by
  simp only [Task.start]
  rw [s.executor_eq rfl,Clock.tick_of_turn rfl (List.cons_ne_nil _ _),s.advance_plug rfl]
  refine (congrArg (Clock.stamped (turn + 1) entries) (s.executor_above ..)).trans ?_
  change Clock.stamped _ _ ((Task.Stack.chain f s).executor (.settled (op w).1,
    { world := ((op w).2,before ++ [label op]) })) = _
  rw [hop]
  exact Clock.stamped_executor [label op] hentered rfl

theorem keepsTime_bind_effect {op : Action W β} {k : β → R → Computation R W α}
    (hk : ∀ b r w, KeepsTime label (k b r) w) (w : W) : KeepsTime label (.bind (.effect op) k) w := by
  intro γ s turn entries before hentered
  let f (b : β) (r : R) := notedWork label (k b r) r
  have hwork : notedWork label (.bind (.effect op) k) (View.look w) = .fork (.andThen (.delay (noted label op)) f) := by
    unfold notedWork Program.runIn
    rw [Program.interpret_bind_effect]
    rfl
  have hentered' : (entries ++ [(turn + 1,label op)]).length = (before ++ [label op]).length := by simp [hentered]
  unfold Arrives
  rw [hwork,Clock.stamped_executor_nil hentered rfl]
  rcases hop : op w with ⟨b | e,u⟩
  · -- The answer comes on the next turn, and on that turn the continuation goes on.
    have hbare := Program.endsBare_bind_of_ok (k := k) (congrArg Prod.snd (trace_act hop))
    obtain ⟨-,heval⟩ := Prod.mk.inj (Program.trace_bind_of_ok (k := k) (trace_act hop))
    obtain ⟨t,ht,hr⟩ := (hk b (View.look u) u).goOn s (turn + 1) _ _ hentered'
    rw [← List.append_cons,← List.append_cons,Nat.add_right_comm] at hr
    refine ⟨t,by rw [heval]; exact ht,.head ?_⟩
    rw [tick_fork label hop f s turn hentered]
    refine .head ?_
    rw [Clock.tick_chain_ok rfl,heval,hbare,notes_bind_effect_of_ok label hop,
      timetable_cons turn _ (notes_ne_nil label),List.length_cons,← Nat.add_assoc]
    exact hr
  · have hbare := Program.endsBare_bind_of_error (k := k) (congrArg Prod.snd (trace_act hop))
    obtain ⟨-,heval⟩ := Prod.mk.inj (Program.trace_bind_of_error (k := k) (trace_act hop))
    refine ⟨.chain (.settled (.error e)) f (some e),by rw [heval]; rfl,.head ?_⟩
    rw [tick_fork label hop f s turn hentered]
    refine .head ?_
    rw [Clock.tick_chain_error rfl _ hentered',heval,hbare,notes_bind_effect_of_error label hop]
    exact .refl _

/-- Whatever is before it in a program, an action has its turn. -/
theorem keepsTime (p : Computation R W α) (w : W) : KeepsTime label p w := by
  induction p using Program.induct_next generalizing w with
  | done a =>
    refine keepsTime_of_start (fun before => ?_) rfl
    simp only [notedWork,Program.runIn,Program.interpret_done]
    exact congrArg (fun notes => (_,({ world := (w,notes) } : Queue (W × List E)))) (List.append_nil before).symm
  | effect op =>
    refine keepsTime_of_start (fun before => ?_) rfl
    simp only [notedWork,Program.runIn,Program.interpret_effect]
    rfl
  | malformed tag =>
    refine keepsTime_reject ?_ rfl rfl
    simp only [notedWork,Program.runIn,Program.interpret_malformed]
    rfl
  | raise e =>
    refine keepsTime_reject ?_ rfl rfl
    simp only [notedWork,Program.runIn,Program.interpret_raise]
    rfl
  | bind_done a k ih =>
    have hwork : notedWork label (.bind (.done a) k) (View.look w) =
        notedWork label (k a (View.look w)) (View.look w) := by
      simp only [notedWork,Program.runIn,Program.interpret_bind_done]
    unfold KeepsTime Arrives
    rw [hwork]
    exact ih (View.look w) w
  | bind_effect op k ih => exact keepsTime_bind_effect ih w
  | bind_bind y g k ih =>
    have hwork : notedWork label (.bind (.bind y g) k) (View.look w) =
        notedWork label (.bind y fun c r => .bind (g c r) k) (View.look w) := by
      simp only [notedWork,Program.runIn,Program.interpret_bind_bind]
    unfold KeepsTime Arrives
    rw [hwork,notes_bind_bind,Program.eval_bind_bind,Program.endsBare_bind_bind]
    exact ih w
  | bind_malformed tag k =>
    refine keepsTime_reject ?_ rfl rfl
    simp only [notedWork,Program.runIn,Program.interpret_bind_malformed]
    rfl
  | bind_raise e k =>
    refine keepsTime_reject ?_ rfl rfl
    simp only [notedWork,Program.runIn,Program.interpret_bind_raise]
    rfl

/-- In every round, the clock is at the place where the computation is. -/
theorem clock_related (label : {β : Type} → Action W β → E) (p : Computation R W α) (w : W) (n : Nat) :
    let clock := Clock.tick^[n] (Clock.start (notedWork label p (View.look w)) w)
    let started := Executor.start (Work.ofOutcome (p.runIn (Work.delaying R W) Work.context (View.look w))) w
    clock.executor.Related (Correspondence.first W E) (Executor.advance^[n] started) ∧
      clock.turn = started.turnsBegun n := by
  intro clock started
  have hlook : ∀ w w', (Correspondence.first W E).between w w' → (View.look w : R) = View.look w' :=
    fun _ _ hw => congrArg View.look hw
  have hstart : (Executor.start (notedWork label p (View.look w)) (w,[])).Related (Correspondence.first W E) started :=
    (related_notedWork label p (View.look w)).start rfl
  constructor
  · rw [Clock.executor_iterate]
    exact hstart.iterate hlook n
  · rw [Clock.turn_iterate]
    exact (Nat.zero_add _).trans (hstart.turnsBegun_eq hlook n)

theorem clock_ends (label : {β : Type} → Action W β → E) (p : Computation R W α) (w : W) :
    ∀ᶠ n in atTop, ∃ t : Task R (W × List E) α, t.outcome? = some (Program.eval "runFree" Translator.id p w).1 ∧
      Clock.tick^[n] (Clock.start (notedWork label p (View.look w)) w) =
        ⟨⟨t,{ world := ((Program.eval "runFree" Translator.id p w).2,notes label p w) }⟩,
          (notes label p w).length - (p.endsBare "runFree" Translator.id w).toNat,
          timetable 0 (p.endsBare "runFree" Translator.id w) (notes label p w)⟩ := by
  have hp : KeepsTime label p w := keepsTime p w
  obtain ⟨t,ht,hr⟩ := hp α .bare 0 [] [] rfl
  rw [Nat.zero_add] at hr
  filter_upwards [hr.eventually_iterate rfl (by simp [timetable,Task.Stack.executor,Task.Stack.notify])] with n hn
  exact ⟨t,ht,hn⟩

theorem notes_mapped (label : {β : Type} → Action W β → E) (p : Computation R W α) (f : α → R → Outcome β) (w : W) :
    notes label (.bind p fun a r => .ofOutcome ((f a r).map .done)) w = notes label p w ∧
      (Program.bind p fun a r => .ofOutcome ((f a r).map .done)).endsBare "runFree" Translator.id w = false := by
  rcases hp : Program.eval "runFree" Translator.id p w with ⟨a | e,u⟩
  · rw [Program.endsBare_bind_of_ok hp]
    simp only [notes,Program.operations,hp]
    cases f a (View.look u) with
    | ok b => exact ⟨congrArg (List.map _) (List.append_nil _),rfl⟩
    | error e => exact ⟨congrArg (List.map _) (List.append_nil _),rfl⟩
  · rw [Program.endsBare_bind_of_error hp]
    simp only [notes,Program.operations,hp,List.append_nil,and_self]

/-- Each action of a computation keeps its turn. The executor makes the same rounds under the clock as without it. When
it is done, the computation has come to what it comes to by direct reading, and its actions have been performed on the
turns of the timetable: one that a continuation waits for on the turn of its position, one that is a bare end a turn
before that. So nothing but a program that steps to one bare action does anything on the turn of the caller. The nesting
of binds and finished parts, anywhere in the program, are not seen at all. A map takes no turn of its own either; it is
a continuation, so that what is below it has no bare end. To start a program of the console does nothing on the
terminal, whatever its state. -/
theorem actions_keep_time (label : {β : Type} → Action W β → E) (p : Computation R W α) (w : W) :
    let started {β : Type} (p : Computation R W β) :=
      Executor.start (Work.ofOutcome (p.runIn (Work.delaying R W) Work.context (View.look w))) w
    let clock {β : Type} (p : Computation R W β) (n : Nat) :=
      Clock.tick^[n] (Clock.start (notedWork label p (View.look w)) w)
    let performed := notes label p w
    let bare := p.endsBare "runFree" Translator.id w
    (∀ n, (clock p n).executor.Related (Correspondence.first W E) (Executor.advance^[n] (started p)) ∧
        (clock p n).turn = (started p).turnsBegun n) ∧
      (∀ᶠ n in atTop, (Executor.advance^[n] (started p)).isIdle = true ∧
        (Executor.advance^[n] (started p)).task.outcome? = some (Program.eval "runFree" Translator.id p w).1 ∧
        (Executor.advance^[n] (started p)).queue.world = (Program.eval "runFree" Translator.id p w).2 ∧
        (clock p n).entries = timetable 0 bare performed ∧ (clock p n).turn = performed.length - bare.toNat) ∧
      ((∃ note, (0,note) ∈ timetable 0 bare performed) ↔ ∃ op, p.step (View.look w) = .ok (.effect op)) ∧
      (∀ q, p.Renested (View.look w) q → started q = started p ∧ clock q = clock p) ∧
      (∀ {β : Type} (f : α → R → Outcome β), ∀ᶠ n in atTop,
        let mapped := clock (.bind p fun a r => .ofOutcome ((f a r).map .done)) n
        mapped.entries = timetable 0 false performed ∧ mapped.turn = performed.length) ∧
      ∀ (V : Type) [View V R] [Terminal V] (q : ConsoleProgram R α) (r : R),
        ∃ (t : Task R V α) (turns : List (Turn V)), ∀ v : V,
          Executor.start (Work.ofOutcome (Console.toWork q r)) v = ⟨t,{ world := v, turns }⟩ := by
  intro started clock performed bare
  refine ⟨fun n => clock_related label p w n,?_,exists_mem_timetable_zero.trans (endsBare_one_iff label p w),
    fun q hq => ?_,fun f => ?_,fun V _ _ q r => Console.start_toWork q r⟩
  · filter_upwards [clock_ends label p w] with n hn
    obtain ⟨t,ht,hclock⟩ := hn
    obtain ⟨hrelated,-⟩ := clock_related label p w n
    rw [hclock] at hrelated
    exact ⟨hrelated.isIdle_eq.symm,hrelated.task.outcome?_eq.symm.trans ht,hrelated.queue.world.symm,
      congrArg Clock.entries hclock,congrArg Clock.turn hclock⟩
  · have hwork : ∀ {V : Type} (t : Translator (Action W) (Work R V)),
        q.runIn t Work.context (View.look w) = p.runIn t Work.context (View.look w) := fun t =>
      ((Program.runIn_renested t Work.context).2.2 hq).symm
    simp only [started,clock,notedWork,hwork,and_self]
  · obtain ⟨hnotes,hbare⟩ := notes_mapped label p f w
    filter_upwards [clock_ends label (.bind p fun a r => .ofOutcome ((f a r).map .done)) w] with n hn
    obtain ⟨t,-,hclock⟩ := hn
    rw [hnotes,hbare] at hclock
    exact ⟨congrArg Clock.entries hclock,congrArg Clock.turn hclock⟩

/-- Three actions, nested to the left: the last one is a bare end, and is that no longer below a map. -/
theorem actions_keep_time_log :
    let say (s : String) : Action (List String) Unit := fun log => (.ok (),log ++ [s])
    let p : Computation Unit (List String) Unit :=
      .bind (.bind (.effect (say "a")) fun _ _ => .effect (say "b")) fun _ _ => .effect (say "c")
    let mapped : Computation Unit (List String) Nat := p.map fun _ => 3
    let clock {α : Type} (p : Computation Unit (List String) α) (n : Nat) :=
      Clock.tick^[n] (Clock.start (notedWork (fun t => (t []).2) p ()) [])
    ∀ᶠ n in atTop, (clock p n).entries = [(1,["a"]),(2,["b"]),(2,["c"])] ∧
      (clock mapped n).entries = [(1,["a"]),(2,["b"]),(3,["c"])] := by
  intro say p mapped clock
  obtain ⟨-,hends,-,-,hmapped,-⟩ := actions_keep_time (fun t => (t []).2) p []
  filter_upwards [hends,hmapped fun _ _ => .ok 3] with n hn hn'
  exact ⟨hn.2.2.2.1,hn'.1⟩

end Computation

end Effectful
