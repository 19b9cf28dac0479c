import Effectful.Proofs.Ending
import Effectful.Proofs.Program.Fusion
import Effectful.Proofs.Work.Stack
/-!
# The runners of computations agree

A computation is run by the loop, as nested actions, with its vocabulary replaced first, or as work for the
executor. These reduce it at different moments: some before anything is run, some while it runs. All of them
perform its operations in the same order, up to the first that fails.
-/
namespace Effectful

open Filter

/-- Reads each action as work on the turn that starts it. -/
def Work.delaying (R W : Type) : Translator (Action W) (Work R W) := ⟨fun t => .ok (.delay t)⟩

namespace Computation

variable {W α : Type}

private theorem oneThread_delaying {β : Type} (t : Action W β) {work : Work Unit W β}
    (h : (Work.delaying Unit W).apply t = .ok work) : work.OneThread := by
  cases h
  trivial

variable [View W Unit]

theorem eventually_run_delaying (p : Computation Unit W α) (w : W) :
    ∀ᶠ fuel in atTop, (Work.ofOutcome (p.runIn (Work.delaying Unit W) Work.context ())).run fuel w =
      Program.eval "runFree" Translator.id p w := by
  have hone : (Work.ofOutcome (p.runIn (Work.delaying Unit W) Work.context ())).OneThread := by
    cases hwork : p.runIn (Work.delaying Unit W) Work.context () with
    | ok work => exact Work.oneThread_interpret "runFree" _ oneThread_delaying p () hwork
    | error e => trivial
  filter_upwards [Work.run_eq_eval hone w] with fuel hfuel
  rw [hfuel,Work.eval_ofOutcome]
  exact (Work.reading Unit W).interpret_eq_eval (fun _ => rfl) "runFree" (Work.delaying Unit W)
    Translator.id (fun _ _ => rfl) p w

/-- The runners agree. A computation whose loops are given by their cut-offs ends by the loop, as nested actions,
translated first or as work if it ends by one of them, with the same outcome in the same world. The world is the
one that its operations leave when they are performed from left to right, none of them after one that fails. -/
theorem runners_agree (p : Nat → Computation Unit W α) (hp : ∀ n, (p n).WellFormed) (w : W) :
    let loop n := (p n).execute w
    let nested n :=
      runBuilt (Target.performing Unit W).run ((p n).runIn Translator.id (Target.immediate Unit W) ()) () w
    let translated n := Computation.execute (.ofOutcome ((p n).translate Translator.id ())) w
    let work n fuel := (Work.ofOutcome ((p n).runIn (Work.delaying Unit W) Work.context ())).run fuel w
    (∀ x v, EndsWith loop x v ↔ EndsWith nested x v) ∧
      (∀ x v, EndsWith loop x v ↔ EndsWith translated x v) ∧
      (∀ x v, EndsWith loop x v ↔
        x ≠ .error .outOfFuel ∧ ∀ᶠ n in atTop, ∀ᶠ fuel in atTop, work n fuel = (x,v)) ∧
      ∀ n, ∃ e, Translator.id.Performs ((p n).operations "runTrampoline" Translator.id w) w e (loop n).2 ∧
        ∀ f, e = some f → (loop n).1 = .error f := by
  intro loop nested translated work
  have hloop : ∀ n, loop n = Program.eval "runFree" Translator.id (p n) w := fun n =>
    (Program.execute_eq_eval ..).trans (congrFun (Program.eval_driver _ _ (hp n) _) w)
  have hnested : loop = nested := funext fun n => (hloop n).trans
    ((Program.execute_eq_eval ..).symm.trans (Program.execute_eq_run "runFree" Translator.id (p n) w))
  have htranslated : loop = translated := funext fun n =>
    (Program.execute_translate "runTrampoline" Translator.id Translator.id (hp n) w).symm
  have hwork : ∀ n, ∀ᶠ fuel in atTop, work n fuel = loop n := by
    intro n
    rw [hloop]
    exact eventually_run_delaying (p n) w
  refine ⟨fun x v => by rw [hnested],fun x v => by rw [htranslated],fun x v => ?_,fun n => ?_⟩
  · refine and_congr_right fun _ => eventually_congr (Eventually.of_forall fun n => ?_)
    exact (eventually_eq_iff (hwork n)).symm
  · have hloop' : loop n = Program.eval "runTrampoline" Translator.id (p n) w := Program.execute_eq_eval ..
    rw [hloop']
    exact Program.performs_operations "runTrampoline" Translator.id (p n) w

/-- The second of three effects fails: the first two are performed, the third is not. -/
theorem runners_agree_log :
    let say (s : String) : Action (List String) Unit := fun log => (.ok (),log ++ [s])
    let stop (s : String) : Action (List String) Unit := fun log => (.error (.error "stopped"),log ++ [s])
    let p : Computation Unit (List String) Unit :=
      .bind (.bind (.effect (say "a")) fun _ _ => .effect (stop "b")) fun _ _ => .effect (say "c")
    p.WellFormed ∧
      EndsWith (fun _ => p.execute []) (.error (.error "stopped")) ["a","b"] ∧
      EndsWith (fun _ => runBuilt (Target.performing Unit (List String)).run
        (p.runIn Translator.id (Target.immediate Unit (List String)) ()) () [])
        (.error (.error "stopped")) ["a","b"] ∧
      ∀ᶠ _ : Nat in atTop, ∀ᶠ fuel in atTop,
        (Work.ofOutcome (p.runIn (Work.delaying Unit (List String)) Work.context ())).run fuel [] =
          (.error (.error "stopped"),["a","b"]) := by
  intro say stop p
  have hp : p.WellFormed := ⟨⟨trivial,fun _ _ => trivial⟩,fun _ _ => trivial⟩
  obtain ⟨hnested,-,hwork,-⟩ := runners_agree (fun _ => p) (fun _ => hp) []
  have hloop : EndsWith (fun _ => p.execute []) (.error (.error "stopped")) ["a","b"] := by
    refine ⟨by simp [Failure.error],Eventually.of_forall fun _ => ?_⟩
    exact Program.execute_eq_eval ..
  exact ⟨hp,hloop,(hnested _ _).mp hloop,((hwork _ _).mp hloop).2⟩

end Computation

end Effectful
