import Effectful.Proofs.Console.Buffers
/-!
# One line without end

A replay answers every read by the same line, as a simulation does whose input is that line over and over. As long as
the input lasts, the two cannot be told apart, and what the program prints makes no difference to a replay at all.
-/
namespace Effectful.Console

open Filter Program

variable {R W α : Type}

/-- The same program, which prints empty lines. -/
def muted {α : Type} : ConsoleProgram R α → ConsoleProgram R α
  | .done a => .done a
  | .effect (.read result) => .effect (.read result)
  | .effect (.print _ result) => .effect (.print "" result)
  | .effect (.other op) => .effect (.other op)
  | .bind sub k => .bind (muted sub) fun b r => muted (k b r)
  | .malformed tag => .malformed tag
  | .raise e => .raise e

section Operations

variable {line : String} {input : List String} {w : W}

@[simp] theorem perform_read_onOneLine (result : Option String → Unit → Outcome α) :
    (onOneLine line).translator.perform (.read result) w = (result (some line) (),w) := by
  change Action.ofOutcome (result (some line) ()) w = _
  cases result (some line) () <;> rfl

@[simp] theorem perform_print_onOneLine (text : String) (result : Unit → Outcome α) :
    (onOneLine line).translator.perform (.print text result) w = (result (),w) := by
  change Action.ofOutcome (result ()) w = _
  cases result () <;> rfl

theorem answersAlike_onOneLine {ops : List (Σ β : Type, Console Unit β)} (output : Array String)
    (h : ∀ k < reads ops, input[k]? = some line) :
    (onOneLine line).translator.AnswersAlike onTerminal.translator ops w (⟨input,output⟩ : Buffers) := by
  induction ops generalizing input output with
  | nil => trivial
  | cons op ops ih =>
    obtain ⟨β,op⟩ := op
    cases op with
    | read result =>
      have hhead : input.head? = some line := by
        simpa only [List.head?_eq_getElem?] using h 0 (by simp [reads])
      have htail : ∀ k < reads ops, input.tail[k]? = some line := by
        intro k hk
        simpa only [List.getElem?_tail] using h (k + 1) (by simpa [reads] using hk)
      simp only [Translator.AnswersAlike,perform_read_onOneLine,perform_read,hhead]
      exact ⟨trivial,ih _ htail⟩
    | print text result =>
      simp only [Translator.AnswersAlike,perform_print_onOneLine,perform_print]
      exact ⟨trivial,ih _ h⟩
    | other op => exact ⟨rfl,ih _ h⟩

end Operations

variable [View W Unit] {line : String} {w : W} {k : Nat}

theorem eval_onOneLine_world (p : ConsoleProgram Unit α) (w : W) :
    (p.eval "runFree" (onOneLine line).translator w).2 = w := by
  obtain ⟨e,hperforms,-⟩ := p.performs_operations "runFree" (onOneLine line).translator w
  exact performs_onOneLine hperforms

/-- A program that replays a line with no more reads than there are copies of it does the same on these copies. -/
theorem simulate_replicate (p : ConsoleProgram Unit α) {x : Outcome α} {v : W}
    (hreplay : runBuilt (Target.replaying Unit W).run (toReplay p ()) line w = (x,v))
    (hreads : reads (p.operations "runFree" (onOneLine line).translator w) ≤ k) :
    simulate p (List.replicate k line) w =
      (x.map fun a => (a,⟨List.replicate (k - reads (p.operations "runFree" (onOneLine line).translator w)) line,
        (#[] : Array String) ++ printed (p.operations "runFree" (onOneLine line).translator w)⟩),v) := by
  have hlines : ∀ i < reads (p.operations "runFree" (onOneLine line).translator w),
      (List.replicate k line)[i]? = some line := by
    intro i hi
    rw [List.getElem?_replicate_of_lt (hi.trans_le hreads)]
  obtain ⟨hops,hends⟩ := run_of_answersAlike (refusesAlike_cases (onOneLine line) onTerminal) p
    (answersAlike_onOneLine #[] hlines)
  rw [toReplay_eq_eval] at hreplay
  have hworld : w = v := (eval_onOneLine_world p w).symm.trans (congrArg Prod.snd hreplay)
  rw [simulate_eq_runBuilt,transition_eq_eval,hends,hreplay,eval_world,hops,after_buffers,List.drop_replicate,hworld]

theorem replay_of_copies (p : ConsoleProgram Unit α)
    (hreads : reads (p.operations "runFree" onTerminal.translator ({ input := List.replicate k line } : Buffers)) ≤ k) :
    runBuilt (Target.replaying Unit W).run (toReplay p ()) line w =
      ((simulate p (List.replicate k line) w).1.map Prod.fst,(simulate p (List.replicate k line) w).2) := by
  have hlines : ∀ i < reads (p.operations "runFree" onTerminal.translator
      ({ input := List.replicate k line } : Buffers)), (List.replicate k line)[i]? = some line := by
    intro i hi
    rw [List.getElem?_replicate_of_lt (hi.trans_le hreads)]
  obtain ⟨-,hends⟩ := run_of_answersAlike (refusesAlike_cases onTerminal (onOneLine line)) p
    (answersAlike_onOneLine (w := w) #[] hlines).symm
  rw [simulate_eq_runBuilt,transition_eq_eval,toReplay_eq_eval]
  refine Prod.ext (hends.trans ?_) (eval_onOneLine_world p w)
  cases (p.eval "runFree" onTerminal.translator ({ input := List.replicate k line } : Buffers)).1 <;> rfl

theorem replay_muted (p : ConsoleProgram Unit α) (line : String) (w : W) :
    runBuilt (Target.replaying Unit W).run (toReplay (muted p) ()) line w =
      runBuilt (Target.replaying Unit W).run (toReplay p ()) line w := by
  rw [toReplay_eq_eval,toReplay_eq_eval]
  induction p generalizing w with
  | done | malformed | raise => rfl
  | effect op => cases op <;> rfl
  | bind sub k ihs ihk =>
    have hsub : (muted sub).eval "runFree" (onOneLine line).translator =
        sub.eval "runFree" (onOneLine line).translator := funext ihs
    have hrest : ∀ b r, (muted (k b r)).eval "runFree" (onOneLine line).translator =
        (k b r).eval "runFree" (onOneLine line).translator := fun b r => funext (ihk b r)
    simp only [muted,eval,hsub,hrest]

/-- A replay is a simulation whose input is the line over and over. Let programs that need not end be given by their
cut-offs. A program whose replay ends after a number of reads ends alike on so many copies of the line or more, and
leaves the copies that it has not read. If it ends on some copies, and no read met an empty queue, it ends alike when
it replays the line. What it prints makes no difference to a replay. -/
theorem replay_is_endless (p : Nat → ConsoleProgram Unit α) (line : String) (w : W) :
    let replay (p : ConsoleProgram Unit α) := runBuilt (Target.replaying Unit W).run (toReplay p ()) line w
    let supplied k n := simulate (p n) (List.replicate k line) w
    (∀ {x v r}, EndsWith (fun n => replay (p n)) x v →
      (∀ᶠ n in atTop, reads ((p n).operations "runFree" (onOneLine line).translator w) = r) → ∀ k ≥ r,
        EndsWith (fun n => ((supplied k n).1.map fun y => (y.1,y.2.input),(supplied k n).2))
          (x.map fun a => (a,List.replicate (k - r) line)) v) ∧
      (∀ {x v k}, EndsWith (fun n => ((supplied k n).1.map Prod.fst,(supplied k n).2)) x v →
        (∀ᶠ n in atTop, ¬ Starves ((p n).operations "runFree" onTerminal.translator
          ({ input := List.replicate k line } : Buffers)) { input := List.replicate k line }) →
        EndsWith (fun n => replay (p n)) x v) ∧
      ∀ {q q' : ConsoleProgram Unit α}, muted q = muted q' → replay q = replay q' := by
  intro replay supplied
  refine ⟨fun {x v r} hends hreads k hk => ⟨?_,?_⟩,fun {x v k} hends hfed => ⟨hends.1,?_⟩,fun {q q'} hq => ?_⟩
  · intro hx
    cases x with
    | ok a => cases hx
    | error e =>
      cases hx
      exact hends.1 rfl
  · filter_upwards [hends.2,hreads] with n hn hr
    simp only [supplied]
    rw [simulate_replicate (p n) hn (hr.trans_le hk),hr]
    cases x <;> rfl
  · filter_upwards [hends.2,hfed] with n hn hstarves
    have hreads := not_lt.mp (starves_iff.not.mp hstarves)
    rw [List.length_replicate] at hreads
    exact (replay_of_copies (p n) hreads).trans hn
  · have hmuted := replay_muted q line w
    rw [hq,replay_muted] at hmuted
    exact hmuted.symm

/-- A loop that prints what it reads until it reads `"y"`, after a question of its own. -/
theorem replay_is_endless_ask :
    let ask (text : String) (fuel : Nat) : ConsoleProgram Unit (Option String) :=
      .bind readLine fun name _ => .bind (printLine text) fun _ _ => .bind (Program.doWhile fuel readLine fun line _ =>
        (printLine (line.getD "")).map fun _ => line ≠ some "y") fun _ _ => .done name
    let replay (p : ConsoleProgram Unit (Option String)) :=
      runBuilt (Target.replaying Unit Unit).run (toReplay p ()) "y" ()
    EndsWith (fun n => replay (ask "sure?" n)) (.ok (some "y")) () ∧
      EndsWith (fun n => ((simulate (ask "sure?" n) (List.replicate 5 "y") ()).1.map fun y => (y.1,y.2.input),
        (simulate (ask "sure?" n) (List.replicate 5 "y") ()).2)) (.ok (some "y",List.replicate (5 - 2) "y")) () ∧
      ∀ n, replay (ask "really?" n) = replay (ask "sure?" n) := by
  intro ask replay
  have hreads : ∀ᶠ n in atTop,
      reads ((ask "sure?" n).operations "runFree" (onOneLine "y").translator ()) = 2 := by
    filter_upwards [eventually_ge_atTop 1] with n hn
    obtain ⟨m,rfl⟩ := Nat.exists_eq_add_of_le' hn
    rfl
  have hfed : ∀ᶠ n in atTop, ¬ Starves ((ask "sure?" n).operations "runFree" onTerminal.translator
      ({ input := List.replicate 2 "y" } : Buffers)) { input := List.replicate 2 "y" } := by
    filter_upwards [eventually_ge_atTop 1] with n hn
    obtain ⟨m,rfl⟩ := Nat.exists_eq_add_of_le' hn
    rw [starves_iff]
    exact (by decide : ¬ 2 < 2)
  have hsimulates : EndsWith (fun n => ((simulate (ask "sure?" n) (List.replicate 2 "y") ()).1.map Prod.fst,
      (simulate (ask "sure?" n) (List.replicate 2 "y") ()).2)) (.ok (some "y")) () := by
    refine ⟨nofun,?_⟩
    filter_upwards [eventually_ge_atTop 1] with n hn
    obtain ⟨m,rfl⟩ := Nat.exists_eq_add_of_le' hn
    rw [simulate_eq_runBuilt,transition_eq_eval]
    rfl
  obtain ⟨hsupplied,hreplay,hprints⟩ := replay_is_endless (ask "sure?") "y" ()
  have hends := hreplay hsimulates hfed
  exact ⟨hends,hsupplied hends hreads 5 (by decide),fun n => hprints rfl⟩

end Effectful.Console
