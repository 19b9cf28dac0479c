import Effectful.Proofs.Cell.Memory
import Effectful.Proofs.Routine.Expansion
import Effectful.Proofs.Routine.Succession
/-!
# Sequential programs on the machine

The routine that a sequential program stands for comes to what the machine comes to, and leaves the same store. Each
instruction does so on its own; the machine then follows the program from left to right, as the executor does,
however the program nests its binds.
-/
namespace Effectful

open Filter

universe u

variable {R U V W W' α : Type} {F : Type → Type u}

/-- A program whose operations are replaced by routines does what it does itself, on worlds that look alike, if each
operation does what stands in its place. -/
theorem Program.eval_expand [View W R] [View W' R] {g : {α : Type} → Bool → F α → Routine R W α}
    {t : Translator (Work R W) (Action W)} {t' : Translator F (Action W')} (driver : String) (φ : W → W')
    (hlook : ∀ w, (View.look (φ w) : R) = View.look w)
    (hop : ∀ {α : Type} (last : Bool) (op : F α) (w : W),
      t'.perform op (φ w) = (((g last op).eval driver t w).1,φ ((g last op).eval driver t w).2))
    (p : Program R F α) (last : Bool) (w : W) :
    p.eval driver t' (φ w) = (((p.expand g last).eval driver t w).1,φ ((p.expand g last).eval driver t w).2) := by
  induction p generalizing last w with
  | done | malformed | raise => rfl
  | effect op => exact hop last op w
  | bind sub k ihs ihk =>
    simp only [eval,expand,Action.andThen,ihs false]
    rcases (sub.expand g false).eval driver t w with ⟨b | e,v⟩
    · simp only [hlook]
      exact ihk b (View.look v) last v
    · rfl

theorem Reply.settle_onRest {S : Type} (reply : Reply U α) (w : Stored U S) :
    reply.onRest.settle w = Stored.onRest reply.settle w := by
  have hstrays : ∀ (later : List (U → α × U)) (w : Stored U S),
      Reply.performStrays (later.map fun answer w => ((answer w.rest).1,⟨(answer w.rest).2,w.store⟩)) w =
        ⟨Reply.performStrays later w.rest,w.store⟩ := by
    intro later w
    induction later generalizing w with
    | nil => rfl
    | cons answer later ih => exact ih _
  obtain ⟨now,later⟩ := reply
  cases now with
  | cons a now => simp only [onRest,settle,hstrays]; rfl
  | nil =>
    cases later with
    | nil => rfl
    | cons first later => simp only [onRest,settle,List.map_cons,hstrays]; rfl

theorem Reply.Plain.onRest {S : Type} {reply : Reply U α} (h : reply.Plain) :
    (reply.onRest : Reply (Stored U S) α).Plain := by
  have hmap : ∀ (later : List (U → α × U)), (∀ answer ∈ later, ∀ u, (answer u).2 = u) →
      ∀ answer ∈ later.map fun answer (w : Stored U S) => ((answer w.rest).1,Stored.mk (answer w.rest).2 w.store),
        ∀ w, (answer w).2 = w := by
    intro later hlater answer hanswer w
    obtain ⟨first,hfirst,rfl⟩ := List.mem_map.mp hanswer
    exact congrArg (Stored.mk · w.store) (hlater first hfirst w.rest)
  obtain ⟨now,later⟩ := reply
  cases now with
  | cons a now => exact hmap later h
  | nil =>
    cases later with
    | nil => exact List.forall_mem_nil _
    | cons first later => exact hmap later h

theorem Cell.read_ofArray (c : Cell) (w : Stored U (Array V)) :
    Cell.read c w = match (Memory.ofArray w.store).content c with
      | some x => (.ok x,w)
      | none => (.error (.error "no such cell"),w) := rfl

namespace Instruction

variable [View U R]

/-- Alone, an instruction does on the executor what it does on the machine. -/
theorem step_eq (op : Instruction R U V α) (w : Stored U (Array V)) :
    op.step (w.map Memory.ofArray) = ((op.routine.eval "runFree" Work.finishing w).1,
      (op.routine.eval "runFree" Work.finishing w).2.map Memory.ofArray) := by
  have hdelay : ∀ {β : Type} (t : Action (Stored U (Array V)) β),
      Program.eval "runFree" Work.finishing (Routine.act t : Routine R _ β) = t := fun t => Work.finish_delay t
  have hwrite : ∀ (c : Cell) (x : V), (Cell.write c x w).2.map Memory.ofArray =
      ⟨w.rest,(Memory.ofArray w.store).write c x⟩ := fun c x => congrArg (Stored.mk w.rest) (Memory.ofArray_set w.store c x)
  cases op with
  | io t =>
    rw [routine,hdelay]
    rfl
  | await register plain =>
    have hfinish := congrFun (Work.finish_callback (R := R) fun w : Stored U (Array V) =>
      ((register w.rest).1.map Reply.onRest,⟨(register w.rest).2,w.store⟩)) w
    change _ = (((Work.callback _ : Work R _ _).finish w).1,((Work.callback _ : Work R _ _).finish w).2.map Memory.ofArray)
    rw [hfinish]
    simp only [step,Stored.onRest,Action.onPart,Action.andThen,Stored.map]
    rcases register w.rest with ⟨reply | e,u⟩
    · simp only [Outcome.map_ok,Reply.settle_onRest]
      rfl
    · rfl
  | ref x =>
    rw [routine,Cell.ref,hdelay]
    change _ = (Outcome.ok (Memory.ofArray w.store).fresh,Stored.mk w.rest (Memory.ofArray (w.store.push x)))
    rw [Memory.ofArray_push]
    rfl
  | get c =>
    rw [routine,Cell.get,hdelay,Cell.read_ofArray]
    simp only [step,Stored.map]
    cases (Memory.ofArray w.store).content c <;> rfl
  | set c x =>
    rw [routine,Cell.set,hdelay,hwrite]
    rfl
  | modify c f =>
    have hmodify : Program.eval "runFree" Work.finishing (Cell.modify c f : Routine R (Stored U (Array V)) V) =
        (Cell.read c).andThen fun x w => Program.eval "runFree" Work.finishing
          (.ofOutcome ((f x (View.look w)).map fun y => (Routine.act (Cell.write c y) : Routine R _ V))) w := by
      rw [← hdelay (Cell.read c)]
      rfl
    rw [routine,hmodify]
    simp only [step,Action.andThen,Stored.map,Cell.read_ofArray]
    cases (Memory.ofArray w.store).content c with
    | none => rfl
    | some x =>
      dsimp only
      cases f x (View.look w) with
      | ok y =>
        simp only [Outcome.map_ok,Program.ofOutcome,hdelay]
        exact congrArg (Prod.mk (Outcome.ok y)) (hwrite c y).symm
      | error e => rfl

theorem concludes (op : Instruction R U V α) : op.routine.Uses Work.Concludes := by
  have hdelay : ∀ {β : Type} (t : Action (Stored U (Array V)) β), (Work.delay t : Work R _ β).Concludes :=
    fun t => Work.Tidy.concludes trivial
  cases op with
  | io t => exact hdelay _
  | await register plain =>
    refine Work.Tidy.concludes fun w reply hreply => ?_
    rcases hreg : (register w.rest).1 with reply' | e
    · dsimp only at hreply
      rw [hreg] at hreply
      cases hreply
      exact (plain w.rest reply' hreg).onRest
    · dsimp only at hreply
      rw [hreg] at hreply
      cases hreply
  | ref x => exact hdelay _
  | get c => exact hdelay _
  | set c x => exact hdelay _
  | modify c f =>
    refine ⟨hdelay _,fun x r => ?_⟩
    dsimp only
    cases f x r with
    | ok y => exact hdelay _
    | error e => trivial

end Instruction

namespace Program

theorem uses_expand {P : {α : Type} → Work R W α → Prop} {g : {α : Type} → Bool → F α → Routine R W α}
    (hg : ∀ {α : Type} (last : Bool) (op : F α), (g last op).Uses P) (p : Program R F α) (last : Bool) :
    (p.expand g last).Uses P := by
  induction p generalizing last with
  | done | malformed | raise => trivial
  | effect op => exact hg last op
  | bind sub k ihs ihk => exact ⟨ihs false,fun b r => ihk b r last⟩

/-- The routine that a program of instructions stands for. -/
def onExecutor (p : Program R (Instruction R U V) α) : Routine R (Stored U (Array V)) α :=
  p.expand (fun _ op => op.routine) true

variable [View U R]

theorem finish_onExecutor (p : Program R (Instruction R U V) α) (w : Stored U (Array V)) :
    (((p.onExecutor.work (View.look w)).finish w).1,((p.onExecutor.work (View.look w)).finish w).2.map Memory.ofArray) =
      p.eval "runFree" Instruction.machine (w.map Memory.ofArray) := by
  have huses : p.onExecutor.Uses Work.Concludes := uses_expand (fun _ op => op.concludes) p true
  have hwork : (p.onExecutor.work (View.look w)).finish w = p.onExecutor.eval "runFree" Work.finishing w :=
    Work.finish_interpret (.inl rfl) "runFree" huses w
  rw [hwork]
  exact (eval_expand "runFree" (Stored.map Memory.ofArray) (fun _ => rfl) (fun _ op => op.step_eq) p true w).symm

end Program

/-- A cell holds a new value. All other cells and the rest of the world stay. -/
def Stored.Updates (s s' : Stored U (Memory V)) (c : Cell) (x : V) : Prop :=
  s'.rest = s.rest ∧ s'.store.content = Function.update s.store.content c (some x)

namespace Instruction

variable [View U R]

theorem step_ref (s : Stored U (Memory V)) (x : V) : ∃ c s', (ref x : Instruction R U V Cell).step s = (.ok c,s') ∧
    s.store.content c = none ∧ s.Updates s' c x :=
  ⟨s.store.fresh,_,rfl,s.store.content_fresh,rfl,rfl⟩

variable {s : Stored U (Memory V)} {c : Cell} {x : V} (h : s.store.content c = some x)

include h

theorem step_get : (get c : Instruction R U V V).step s = (.ok x,s) := by
  simp only [step,h]

theorem updates_write (y : V) : s.Updates ⟨s.rest,s.store.write c y⟩ c y := by
  refine ⟨rfl,?_⟩
  simp only [Memory.write,h,Option.map_some]

theorem step_set (y : V) : ∃ s', (set c y : Instruction R U V V).step s = (.ok y,s') ∧ s.Updates s' c y :=
  ⟨_,rfl,updates_write h y⟩

theorem step_modify {f : V → R → Outcome V} {y : V} (hf : f x (View.look s) = .ok y) :
    ∃ s', (modify c f : Instruction R U V V).step s = (.ok y,s') ∧ s.Updates s' c y := by
  refine ⟨⟨s.rest,s.store.write c y⟩,?_,updates_write h y⟩
  simp only [step,h,hf]

theorem step_modify_error {f : V → R → Outcome V} {e : Failure} (hf : f x (View.look s) = .error e) :
    (modify c f : Instruction R U V V).step s = (.error e,s) := by
  simp only [step,h,hf]

end Instruction

namespace Program

variable [View U R]

/-- Started on the executor, a sequential program ends if and only if the machine does when it follows the program
from left to right, with the same outcome, the same effects on the rest of the world and the same store. On the machine, a
new cell is none of the live ones; a live cell answers the value that it holds, and holds what it is set or modified
to, which is the answer; all else stays. A modification that fails changes nothing and ends the program. Programs that
need not end are given by their cut-offs. -/
theorem onExecutor_refines_machine (p : Nat → Program R (Instruction R U V) α) (w : Stored U (Array V)) :
    let run n fuel := ((p n).onExecutor.work (View.look w)).run fuel w
    let direct n := (p n).eval "runFree" Instruction.machine (w.map Memory.ofArray)
    (∀ n, ∀ᶠ fuel in atTop, ((run n fuel).1,(run n fuel).2.map Memory.ofArray) = direct n) ∧
      (∀ x s, EndsWith direct x s ↔ x ≠ .error .outOfFuel ∧
        ∀ᶠ n in atTop, ∀ᶠ fuel in atTop, ((run n fuel).1,(run n fuel).2.map Memory.ofArray) = (x,s)) ∧
      (∀ n, ∃ e, Instruction.machine.Performs ((p n).operations "runFree" Instruction.machine (w.map Memory.ofArray))
        (w.map Memory.ofArray) e (direct n).2 ∧ ∀ f, e = some f → (direct n).1 = .error f) ∧
      ∀ s : Stored U (Memory V),
        (∀ x, ∃ c s', (Instruction.ref x : Instruction R U V Cell).step s = (.ok c,s') ∧
          s.store.content c = none ∧ s.Updates s' c x) ∧
        ∀ (c : Cell) (x : V), s.store.content c = some x →
          (Instruction.get c : Instruction R U V V).step s = (.ok x,s) ∧
          (∀ y, ∃ s', (Instruction.set c y : Instruction R U V V).step s = (.ok y,s') ∧ s.Updates s' c y) ∧
          ∀ f : V → R → Outcome V,
            (∀ y, f x (View.look s) = .ok y →
              ∃ s', (Instruction.modify c f : Instruction R U V V).step s = (.ok y,s') ∧ s.Updates s' c y) ∧
            ∀ e, f x (View.look s) = .error e → ∀ k : V → R → Program R (Instruction R U V) α,
              (bind (effect (.modify c f)) k).eval "runFree" Instruction.machine s = (.error e,s) := by
  intro run direct
  have hrun : ∀ n, ∀ᶠ fuel in atTop, ((run n fuel).1,(run n fuel).2.map Memory.ofArray) = direct n := by
    intro n
    have hfinish := ((p n).onExecutor.work (View.look w)).eventually_run_eq_finish w
    filter_upwards [hfinish] with fuel hfuel
    simp only [run,direct,hfuel]
    exact finish_onExecutor (p n) w
  refine ⟨hrun,fun x s => ?_,fun n => performs_operations ..,fun s => ⟨Instruction.step_ref s,fun c x h => ?_⟩⟩
  · refine and_congr_right fun _ => eventually_congr (Eventually.of_forall fun n => ?_)
    exact (eventually_eq_iff (hrun n)).symm
  · refine ⟨Instruction.step_get h,Instruction.step_set h,fun f => ⟨fun y hf => Instruction.step_modify h hf,fun e hf k => ?_⟩⟩
    have hstep : Instruction.machine.perform (.modify c f) s = (.error e,s) := Instruction.step_modify_error h hf
    simp only [eval,Action.andThen,hstep]

/-- A new cell beside another, modified twice. In between, a callback is called on a later turn, and once more after
that. The second function fails. -/
theorem onExecutor_refines_machine_twice :
    let say : Action (List String) Unit := fun log => (.ok (),log ++ ["once"])
    let reply : Reply (List String) Nat := ⟨[],[fun log => (log.length,log ++ ["called"]),fun log => (0,log)]⟩
    let call : Instruction Unit (List String) Nat Nat := .await (fun log => (.ok reply,log ++ ["registered"]))
      fun _ _ h => Outcome.ok.inj h ▸ show reply.Plain from List.forall_mem_singleton.mpr fun _ => rfl
    let p : Program Unit (Instruction Unit (List String) Nat) Nat := .bind (.effect (.ref 5)) fun c _ =>
      .bind (.bind (.effect (.modify c fun x _ => .ok (x + 1))) fun _ _ => .effect (.io say)) fun _ _ =>
        .bind (.effect call) fun n _ =>
          .effect (.modify c fun x _ => if x = 6 ∧ n = 2 then .error (.error "twice") else .ok 0)
    let final : Stored (List String) (Memory Nat) :=
      ⟨["once","registered","called"],((Memory.ofArray #[7]).allocate 5).write ⟨1⟩ 6⟩
    final.store.content ⟨0⟩ = some 7 ∧ final.store.content ⟨1⟩ = some 6 ∧
      EndsWith (fun _ => p.eval "runFree" Instruction.machine ⟨[],Memory.ofArray #[7]⟩) (.error (.error "twice")) final ∧
      ∀ᶠ _ : Nat in atTop, ∀ᶠ fuel in atTop,
        (((p.onExecutor.work ()).run fuel ⟨[],#[7]⟩).1,((p.onExecutor.work ()).run fuel ⟨[],#[7]⟩).2.map Memory.ofArray) =
          (.error (.error "twice"),final) := by
  intro say reply call p final
  have hends : EndsWith (fun _ => p.eval "runFree" Instruction.machine ⟨[],Memory.ofArray #[7]⟩)
      (.error (.error "twice")) final := ⟨by simp [Failure.error],Eventually.of_forall fun _ => rfl⟩
  obtain ⟨-,hiff,-⟩ := onExecutor_refines_machine (fun _ => p) ⟨[],#[7]⟩
  exact ⟨rfl,rfl,hends,((hiff _ _).mp hends).2⟩

end Program

end Effectful
