import Effectful.Proofs.Ending
import Effectful.Proofs.Program.Operations
import Effectful.Proofs.Work.Footprint
import Effectful.Proofs.Work.Tidy
import Effectful.Routine.Basic
/-!
# One piece of work after another

A program of work is started in two ways: chained on the caller's turn, or on the executor, which takes a turn for
every part. Both run its pieces of work one after another, each to its end and in the world that those before have
left, as long as they answer. So they come to the same, and only what the caller does meanwhile may tell them apart.
-/
namespace Effectful

open Filter

variable {R W A B E α β : Type}

namespace Work

section Finishing

variable [View W R]

/-- Performs each piece of work by running it until nothing is left. -/
noncomputable def finishing : Translator (Work R W) (Action W) := ⟨fun work => .ok work.finish⟩

open Program in
/-- The work that a program is interpreted as comes to what the program performs, read from left to right. -/
theorem finish_interpret {c : Context R (Work R W)} (hc : c = context ∨ c = eagerContext) (driver : String)
    {p : Routine R W α} (hp : p.Uses Concludes) (w : W) :
    (ofOutcome (p.interpret driver Translator.id c (View.look w))).finish w = p.eval driver finishing w := by
  have hlift : ∀ {α : Type} (a : α), (c.lift a).finish = .answer a := by
    intro α a
    obtain rfl | rfl := hc
    · exact finish_answer a
    · exact finish_answer a
  have hsequence : ∀ {α β : Type} (first : Work R W β) (f : β → R → Outcome (Work R W α)),
      (c.sequence first f).finish = (andThen first fun b r => ofOutcome (f b r)).finish := by
    intro α β first f
    obtain rfl | rfl := hc
    · exact finish_fork _
    · rfl
  -- The interpreter re-associates binds, and the direct reading does not, so the induction is on reductions.
  induction p using induct_next generalizing w with
  | done a =>
    rw [interpret_done]
    exact congrFun (hlift a) w
  | effect work =>
    rw [interpret_effect]
    rfl
  | malformed tag =>
    rw [interpret_malformed]
    exact congrFun (finish_reject _) w
  | raise e =>
    rw [interpret_raise]
    exact congrFun (finish_reject e) w
  | bind_done b k ih =>
    rw [interpret_bind_done]
    exact ih (View.look w) (hp.2 b _) w
  | bind_effect work k ih =>
    have hrest : ∀ b u, (ofOutcome (interpret driver Translator.id c (k b (View.look u)) (View.look u))).finish u =
        (k b (View.look u)).eval driver finishing u := fun b u => ih b (View.look u) (hp.2 b _) u
    rw [interpret_bind_effect]
    change (c.sequence work _).finish w = _
    rw [hsequence,finish_andThen hp.1]
    change _ = Action.andThen work.finish _ w
    simp only [hrest]
  | bind_bind y g k ih =>
    rw [interpret_bind_bind,ih ⟨hp.1.1,fun b r => ⟨hp.1.2 b r,hp.2⟩⟩,eval_bind_bind]
  | bind_malformed tag k =>
    rw [interpret_bind_malformed]
    exact congrFun (finish_reject _) w
  | bind_raise e k =>
    rw [interpret_bind_raise]
    exact congrFun (finish_reject e) w

end Finishing

variable [View W Unit] {s : Footprint W A B E}

/-- What the caller does to the log after the start of work that keeps within a footprint, stands between what the
work has logged then and what it logs later. Nothing else is changed by it. -/
theorem Within.reaches_meanwhile {work : Work Unit W α} (h : work.Within s) {entry : W → W} {entries : List E}
    (hentry : ∀ u, s.own (entry u) = s.own u ∧ s.log (entry u) = s.log u ++ entries) {w : W} {e : Executor Unit W α}
    (hr : (Executor.start work w).Reaches e) (hidle : e.isIdle = true) :
    ∃ (before after : List E) (e' : Executor Unit W α), s.log e.queue.world = before ++ after ∧
      s.log e'.queue.world = before ++ entries ++ after ∧ s.own e'.queue.world = s.own e.queue.world ∧
      ((Executor.start work w).mapWorld entry).Reaches e' ∧ e'.isIdle = true ∧ e'.task = e.task := by
  obtain ⟨n,rfl⟩ := hr
  have hstart := (h.start_alike (rfl : s.own w = s.own w)).1
  have halike : (Executor.start work w).Alike s ((Executor.start work w).mapWorld entry) :=
    ⟨rfl,hstart.within,(hentry _).1.symm,rfl,rfl,hstart.queue.within⟩
  obtain ⟨hlast,hmoved⟩ := halike.iterate n
  obtain ⟨after,hlog,hlog'⟩ := hmoved.log
  have hworld : ((Executor.start work w).mapWorld entry).queue.world = entry (Executor.start work w).queue.world := rfl
  rw [hworld,(hentry _).2] at hlog'
  refine ⟨_,after,_,hlog,hlog',hlast.queue.own.symm,⟨n,rfl⟩,?_,hlast.task.symm⟩
  rw [Executor.isIdle_iff] at hidle ⊢
  rwa [← hlast.queue.jobs,← hlast.queue.turns]

theorem Within.rests_meanwhile {work : Work Unit W α} (h : work.Within s) {entry : W → W} {entries : List E}
    (hentry : ∀ u, s.own (entry u) = s.own u ∧ s.log (entry u) = s.log u ++ entries) (w : W) :
    ∃ before after v, s.log (work.finish w).2 = before ++ after ∧ s.log v = before ++ entries ++ after ∧
      s.own v = s.own (work.finish w).2 ∧ ((Executor.start work w).mapWorld entry).Rests (work.finish w).1 v := by
  obtain ⟨e,hr,hidle,hx,hv⟩ := work.rests_finish w
  obtain ⟨before,after,e',hlog,hlog',hown,hr',hidle',htask⟩ := h.reaches_meanwhile hentry hr hidle
  rw [hv] at hlog hown
  exact ⟨before,after,_,hlog,hlog',hown,e',hr',hidle',by rw [← hx,Executor.outcome,Executor.outcome,htask],rfl⟩

end Work

namespace Routine

open Program in
theorem suspended_fails_iff {p : Routine R W α} (hp : p.WellFormed) (r : R) (e : Failure) :
    Work.ofSuspended p r = .error e ↔ Work.ofProgram p r = .error e := by
  unfold Work.ofSuspended Work.ofProgram runIn
  induction p using induct_next generalizing r with
  | done a => simp
  | effect work => simp
  | malformed tag => exact hp.elim
  | raise e => simp
  | bind_done b k ih =>
    rw [interpret_bind_done,interpret_bind_done]
    exact ih r (hp.2 b r) r
  | bind_effect work k =>
    rw [interpret_bind_effect,interpret_bind_effect]
    exact ⟨nofun,nofun⟩
  | bind_bind y g k ih =>
    rw [interpret_bind_bind,interpret_bind_bind]
    exact ih ⟨hp.1.1,fun b r => ⟨hp.1.2 b r,hp.2⟩⟩ r
  | bind_malformed tag k => exact hp.1.elim
  | bind_raise e k => simp

variable [View W Unit]

/-- A program of work comes to the same when it is chained on the caller's turn and when it is chained on the
executor: to what it performs when each piece of work is run to its end before the next, and none after one that
fails. A piece of work that answers has to leave nothing behind that changes the world, as all work does where calls
that do not count do nothing else (`Work.Tidy.concludes`). Programs that need not end are given by their cut-offs.
What the caller logs after starting stands somewhere between the entries of the work, which keep their order. -/
theorem runs_agree (p : Nat → Routine Unit W α) (hp : ∀ n, (p n).WellFormed) (hwork : ∀ n, (p n).Uses Work.Concludes)
    (w : W) :
    let suspended n := Work.ofOutcome (Work.ofSuspended (p n) ())
    let chained n := Work.ofOutcome (Work.ofProgram (p n) ())
    let direct n := (p n).eval "runFree" Work.finishing w
    (∀ n e, Work.ofSuspended (p n) () = .error e ↔ Work.ofProgram (p n) () = .error e) ∧
      (∀ n, (∀ᶠ fuel in atTop, (suspended n).run fuel w = direct n) ∧
        ∀ᶠ fuel in atTop, (chained n).run fuel w = direct n) ∧
      (∀ x v, (x ≠ .error .outOfFuel ∧ ∀ᶠ n in atTop, ∀ᶠ fuel in atTop, (suspended n).run fuel w = (x,v)) ↔
        x ≠ .error .outOfFuel ∧ ∀ᶠ n in atTop, ∀ᶠ fuel in atTop, (chained n).run fuel w = (x,v)) ∧
      (∀ n, ∃ e, Work.finishing.Performs ((p n).operations "runFree" Work.finishing w) w e (direct n).2 ∧
        ∀ f, e = some f → (direct n).1 = .error f) ∧
      ∀ {A B E : Type} (s : Footprint W A B E) (entry : W → W) (entries : List E),
        (∀ n, (p n).Uses (Work.Within s)) →
        (∀ u, s.own (entry u) = s.own u ∧ s.log (entry u) = s.log u ++ entries) →
        ∀ n, ∀ work ∈ [suspended n,chained n], ∃ before after v, s.log (direct n).2 = before ++ after ∧
          s.log v = before ++ entries ++ after ∧ s.own v = s.own (direct n).2 ∧
          ((Executor.start work w).mapWorld entry).Rests (direct n).1 v := by
  intro suspended chained direct
  have hsuspended : ∀ n, (suspended n).finish w = direct n := fun n =>
    (Work.finish_interpret (.inr rfl) "async run" (hwork n) w).trans
      (congrFun (Program.eval_driver "async run" Work.finishing (hp n) "runFree") w)
  have hchained : ∀ n, (chained n).finish w = direct n := fun n =>
    Work.finish_interpret (.inl rfl) "runFree" (hwork n) w
  have hruns : ∀ n, (∀ᶠ fuel in atTop, (suspended n).run fuel w = direct n) ∧
      ∀ᶠ fuel in atTop, (chained n).run fuel w = direct n := by
    intro n
    constructor
    · rw [← hsuspended]
      exact (suspended n).eventually_run_eq_finish w
    · rw [← hchained]
      exact (chained n).eventually_run_eq_finish w
  refine ⟨fun n e => suspended_fails_iff (hp n) () e,hruns,fun x v => ?_,fun n => Program.performs_operations ..,?_⟩
  · refine and_congr_right fun _ => eventually_congr (Eventually.of_forall fun n => ?_)
    rw [eventually_eq_iff (hruns n).1,eventually_eq_iff (hruns n).2]
  · intro A B E s entry entries hwithin hentry n work hmem
    have hleaves : (p n).Uses fun op => ∀ work, Translator.id.apply op = .ok work → work.Within s := by
      refine (hwithin n).mono fun op hop work h => ?_
      cases h
      exact hop
    have hbuilt : work.Within s ∧ work.finish w = direct n := by
      rcases List.mem_pair.mp hmem with rfl | rfl
      · exact ⟨Work.within_interpret "async run" (.inr rfl) hleaves (),hsuspended n⟩
      · exact ⟨Work.within_interpret "runFree" (.inl rfl) hleaves (),hchained n⟩
    obtain ⟨before,after,v,hlog,hlog',hown,hrests⟩ := hbuilt.1.rests_meanwhile hentry w
    rw [hbuilt.2] at hlog hown hrests
    exact ⟨before,after,v,hlog,hlog',hown,hrests⟩

/-- A pair, with a callback that is called twice, and then work that fails on a turn of its own. -/
theorem runs_agree_pair :
    let say (s : String) : Action (List String) Unit := fun log => (.ok (),log ++ [s])
    let stop (s : String) : Action (List String) Unit := fun log => (.error (.error "stopped"),log ++ [s])
    let twice : Work Unit (List String) Unit := .callback fun log =>
      (.ok ⟨[],[fun log => ((),log ++ ["b"]),fun log => ((),log)]⟩,log ++ ["a"])
    let p : Routine Unit (List String) Unit :=
      .bind (.bind (.effect (.both (.later (say "c")) twice fun _ _ _ => .ok ())) fun _ _ =>
        .effect (.later (stop "d"))) fun _ _ => .effect (.delay (say "e"))
    p.WellFormed ∧ p.Uses Work.Concludes ∧
      (Work.ofOutcome (Work.ofSuspended p ())).Ends [] (.error (.error "stopped")) ["a","c","b","d"] ∧
      ∀ᶠ fuel in atTop,
        (Work.ofOutcome (Work.ofProgram p ())).run fuel [] = (.error (.error "stopped"),["a","c","b","d"]) := by
  intro say stop twice p
  have hp : p.WellFormed := ⟨⟨trivial,fun _ _ => trivial⟩,fun _ _ => trivial⟩
  have htwice : twice.Tidy := by
    intro log reply h
    cases h
    intro answer hanswer log
    rw [List.mem_singleton.mp hanswer]
  have hpair : (Work.both (.later (say "c")) twice fun _ _ _ => .ok () : Work Unit (List String) Unit).Tidy :=
    ⟨trivial,htwice⟩
  have hwork : p.Uses Work.Concludes :=
    ⟨⟨hpair.concludes,fun _ _ => Work.Tidy.concludes trivial⟩,fun _ _ => Work.Tidy.concludes trivial⟩
  have hends : (Work.ofOutcome (Work.ofSuspended p ())).Ends [] (.error (.error "stopped")) ["a","c","b","d"] := by
    simp only [Work.ofSuspended,p,Program.interpret_bind_bind,Program.interpret_bind_effect,Program.interpret_effect]
    exact ⟨_,⟨20,rfl⟩,rfl,rfl,rfl⟩
  obtain ⟨-,hruns,-⟩ := runs_agree (fun _ => p) (fun _ => hp) (fun _ => hwork) []
  have hdirect := (eventually_eq_iff (hruns 0).1).mp hends.eventually_run
  refine ⟨hp,hwork,hends,?_⟩
  rw [← hdirect]
  exact (hruns 0).2

/-- The first piece of work answers at once and logs on a later turn: before the others where they are chained on the
executor, after them where they are chained on the caller's turn. And where the caller logs after starting, a piece of
work that looks at the log tells on which turn it ran. -/
theorem late_call_parts_runs :
    let say (s : String) : Action (List String) Unit := fun log => (.ok (),log ++ [s])
    let late : Work Unit (List String) Unit := .callback fun log =>
      (.ok ⟨[()],[fun log => ((),log ++ ["late"])]⟩,log)
    let p : Routine Unit (List String) Unit :=
      .bind (.bind (.effect late) fun _ _ => .effect (.delay (say "x"))) fun _ _ => .effect (.delay (say "y"))
    let watch : Routine Unit (List String) Nat :=
      .bind (.effect (.delay fun log => (.ok log.length,log))) fun seen _ => .done seen
    let entry (log : List String) : List String := log ++ ["caller"]
    p.WellFormed ∧ (Work.ofOutcome (Work.ofSuspended p ())).Ends [] (.ok ()) ["x","y","late"] ∧
      (Work.ofOutcome (Work.ofProgram p ())).Ends [] (.ok ()) ["late","x","y"] ∧ watch.WellFormed ∧
      ((Executor.start (Work.ofOutcome (Work.ofSuspended watch ())) []).mapWorld entry).Rests (.ok 0) ["caller"] ∧
      ((Executor.start (Work.ofOutcome (Work.ofProgram watch ())) []).mapWorld entry).Rests (.ok 1) ["caller"] := by
  intro say late p watch entry
  refine ⟨⟨⟨trivial,fun _ _ => trivial⟩,fun _ _ => trivial⟩,?_,?_,⟨trivial,fun _ _ => trivial⟩,?_,?_⟩
  · simp only [Work.ofSuspended,p,Program.interpret_bind_bind,Program.interpret_bind_effect,Program.interpret_effect]
    exact ⟨_,⟨20,rfl⟩,rfl,rfl,rfl⟩
  · simp only [Work.ofProgram,Program.runIn,p,Program.interpret_bind_bind,Program.interpret_bind_effect,
      Program.interpret_effect]
    exact ⟨_,⟨20,rfl⟩,rfl,rfl,rfl⟩
  · simp only [Work.ofSuspended,watch,Program.interpret_bind_effect,Program.interpret_done]
    exact ⟨_,⟨20,rfl⟩,rfl,rfl,rfl⟩
  · simp only [Work.ofProgram,Program.runIn,watch,Program.interpret_bind_effect,Program.interpret_done]
    exact ⟨_,⟨20,rfl⟩,rfl,rfl,rfl⟩

end Routine

end Effectful
