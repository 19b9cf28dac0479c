import Effectful.Proofs.Computation.Rounds
import Effectful.Proofs.Demo.Refusal
/-!
# The dialogue on one line

A replay answers every read of a program with the same line. So a round of the dialogue leads back to the loop that it
came from: two rounds of the machine go by, one for the read and one for the answer that is printed nowhere, and
nothing has changed. The dialogue stops on `q`, on a number with too long a list, and on no other line.
-/
namespace Effectful

universe u v

open Filter

namespace Program

variable {R T : Type} {F : Type → Type u} {G : Type → Type v} {α β γ : Type} (driver : String)
  (t : Translator F G) (c : Context R G)

/-- No target sees whether a program that may fail to be built is bound before it is built or after. -/
theorem interpret_bind_ofOutcome_bind (x : Outcome (Program R F γ)) (g : γ → R → Program R F β)
    (k : β → R → Program R F α) (r : R) :
    interpret driver t c (bind (ofOutcome (x.map fun p => bind p g)) k) r =
      interpret driver t c (bind (ofOutcome x) fun a r => bind (g a r) k) r := by
  cases x with
  | ok p => exact interpret_bind_bind driver t c r p g k
  | error e =>
    change interpret driver t c (bind (raise e) k) r = interpret driver t c (bind (raise e) _) r
    rw [interpret_bind_raise,interpret_bind_raise]

theorem interpret_bind_fold (items : List T) (initial : β) (f : β → T → β) (k : β → R → Program R F α) (r : R) :
    interpret driver t c
        (bind (ofOutcome (fold items initial (fun acc item _ => .ok (.done (f acc item))) r)) k) r =
      interpret driver t c (k (items.foldl f initial) r) r := by
  induction items generalizing initial with
  | nil => exact interpret_bind_done driver t c r initial k
  | cons item items ih =>
    rw [fold,interpret_bind_ofOutcome_bind]
    exact (interpret_bind_done driver t c r _ _).trans (ih _)

end Program

namespace Console

open Program

variable {R W α β : Type}

/-- The computation that a program makes of a line. A failure to interpret the program is raised. -/
def replayed (p : ConsoleProgram R α) (line : String) (r : R) : Computation R W α :=
  match toReplay p r with
  | .ok replay => replay line r
  | .error e => .raise e

theorem replayed_of_ok {p : ConsoleProgram R α} {r : R} {replay : Replay R W α} (h : toReplay p r = .ok replay)
    (line : String) : replayed p line r = replay line r := by
  rw [replayed,h]

section Equations

variable (line : String) (r : R)

@[simp] theorem replayed_done (a : α) : (replayed (.done a) line r : Computation R W α) = .done a := by
  simp only [replayed,toReplay,runIn,interpret_done]
  rfl

@[simp] theorem replayed_raise (e : Failure) : (replayed (.raise e) line r : Computation R W α) = .raise e := by
  simp only [replayed,toReplay,runIn,interpret_raise]

@[simp] theorem replayed_bind_done (a : β) (k : β → R → ConsoleProgram R α) :
    (replayed (.bind (.done a) k) line r : Computation R W α) = replayed (k a r) line r := by
  simp only [replayed,toReplay,runIn,interpret_bind_done]

@[simp] theorem replayed_bind_raise (e : Failure) (k : β → R → ConsoleProgram R α) :
    (replayed (.bind (.raise e) k) line r : Computation R W α) = .raise e := by
  simp only [replayed,toReplay,runIn,interpret_bind_raise]

@[simp] theorem replayed_bind_readLine (k : Option String → R → ConsoleProgram R α) :
    (replayed (.bind readLine k) line r : Computation R W α) =
      .bind (.done (some line)) fun a r => replayed (k a r) line r := by
  simp only [replayed,toReplay,runIn,readLine,interpret_bind_effect]
  rfl

@[simp] theorem replayed_bind_printLine (text : String) (k : Unit → R → ConsoleProgram R α) :
    (replayed (.bind (printLine text) k) line r : Computation R W α) =
      .bind (.done ()) fun a r => replayed (k a r) line r := by
  simp only [replayed,toReplay,runIn,printLine,interpret_bind_effect]
  rfl

end Equations

theorem runBuilt_toReplay [View W R] (p : ConsoleProgram R α) (line : String) (w : W) :
    runBuilt (Target.replaying R W).run (toReplay p (View.look w)) line w =
      Computation.run (replayed p line (View.look w)) w := by
  unfold replayed
  cases toReplay p (View.look w) with
  | ok replay => rfl
  | error e => exact (Computation.run_eq_eval (.raise e : Computation R W α) w).symm

end Console

namespace Demo

open Console Program

variable {R W N α : Type} {line : String}

section Targets

variable {F : Type → Type u} {G : Type → Type v} (driver : String) (c : Context R G)

theorem interpret_bind_factorial [Numeric N] (t : Translator F G) {i : Nat} (hi : i < maxLength)
    (k : N → R → Program R F α) (r : R) :
    interpret driver t c (bind (ofOutcome (factorial i r)) k) r = interpret driver t c (k (product i) r) r := by
  rw [factorial,countUp_natCast _ hi,Outcome.ok_andThen,interpret_bind_fold]
  rfl

theorem interpret_bind_continueAfter (t : Translator (Console R) G) (hq : line ≠ "q")
    (hline : isNumeral line → numeralValue line < maxLength) (k : Bool → R → ConsoleProgram R α) (r : R) :
    interpret driver t c (bind (continueAfter (some line) r) k) r =
      interpret driver t c (bind (printLine (reply line)) fun _ r' => k true r') r := by
  have hanswer : interpret driver t c (bind (continueAfter (some line) r) k) r =
      interpret driver t c (bind (ofOutcome (answerLine line r)) fun _ r' => k true r') r := by
    rw [continueAfter,if_neg hq]
    refine (interpret_bind_ofOutcome_bind driver t c (answerLine line r) _ k r).trans ?_
    exact interpret_bind_congr driver t c _ _ _ (fun _ r' => interpret_bind_done driver t c r' true k) r
  rw [hanswer,answerLine,wholeNumber?_eq,reply]
  by_cases hnumeral : isNumeral line
  · rw [if_pos hnumeral,if_pos hnumeral]
    dsimp only
    rw [interpret_bind_ofOutcome_bind,interpret_bind_factorial driver c t (hline hnumeral)]
  · rw [if_neg hnumeral,if_neg hnumeral]
    rfl

end Targets

section Lines

variable (k : Bool → R → ConsoleProgram R α) (input : String) (r : R)

theorem replayed_answered (hq : line ≠ "q") (hline : isNumeral line → numeralValue line < maxLength) :
    (replayed (.bind (continueAfter (some line) r) k) input r : Computation R W α) =
      replayed (.bind (printLine (reply line)) fun _ r' => k true r') input r := by
  simp only [replayed,toReplay,runIn,interpret_bind_continueAfter _ _ _ hq hline]

theorem replayed_quit :
    (replayed (.bind (continueAfter (some "q") r) k) input r : Computation R W α) = replayed (k false r) input r := by
  rw [continueAfter,if_pos rfl,replayed_bind_done]

theorem replayed_refused (hq : line ≠ "q") (hnumeral : isNumeral line) (hlarge : maxLength ≤ numeralValue line) :
    (replayed (.bind (continueAfter (some line) r) k) input r : Computation R W α) =
      .raise (.foreign .invalidLength) := by
  rw [continueAfter,if_neg hq,answerLine,wholeNumber?_eq,if_pos hnumeral]
  dsimp only
  rw [factorial_of_le hlarge]
  exact replayed_bind_raise input r _ k

end Lines

section Rounds

variable [View W R] (rounds fuel : Nat) (w : W)

theorem runWithin_help (line : String) :
    Computation.runWithin (rounds + 1)
        (replayed (factorialDialogue fuel : ConsoleProgram R Unit) line (View.look w)) w =
      Computation.runWithin rounds
        (replayed (doWhile fuel readLine continueAfter : ConsoleProgram R Unit) line (View.look w)) w := by
  rw [factorialDialogue,replayed_bind_printLine,Computation.runWithin_bind_done]

theorem runWithin_read (line : String) :
    Computation.runWithin (rounds + 1)
        (replayed (doWhile (fuel + 1) readLine continueAfter : ConsoleProgram R Unit) line (View.look w)) w =
      Computation.runWithin rounds
        (replayed (.bind (continueAfter (some line) (View.look w : R)) fun again _ =>
          if again then doWhile fuel readLine continueAfter else .done ()) line (View.look w)) w := by
  rw [doWhile,replayed_bind_readLine,Computation.runWithin_bind_done]

/-- Two rounds of the machine lead from the loop back to the loop: the line is read, and its answer is printed. -/
theorem runWithin_loop (hq : line ≠ "q") (hline : isNumeral line → numeralValue line < maxLength) :
    Computation.runWithin (rounds + 2)
        (replayed (doWhile (fuel + 1) readLine continueAfter : ConsoleProgram R Unit) line (View.look w)) w =
      Computation.runWithin rounds
        (replayed (doWhile fuel readLine continueAfter : ConsoleProgram R Unit) line (View.look w)) w := by
  rw [runWithin_read,replayed_answered _ _ _ hq hline,replayed_bind_printLine,Computation.runWithin_bind_done,
    if_pos rfl]

theorem runWithin_rounds (hq : line ≠ "q") (hline : isNumeral line → numeralValue line < maxLength) :
    Computation.runWithin rounds
        (replayed (doWhile fuel readLine continueAfter : ConsoleProgram R Unit) line (View.look w)) w =
      if rounds ≤ 2 * fuel then none else some (.error .outOfFuel,w) := by
  induction fuel generalizing rounds with
  | zero =>
    rw [doWhile,replayed_raise]
    cases rounds <;> rfl
  | succ fuel ih =>
    -- A unit of fuel is two rounds of the machine, and after the first of them the line is not yet answered.
    rcases rounds with _ | _ | rounds
    · rfl
    · rw [runWithin_read,if_pos (by omega)]
      rfl
    · rw [runWithin_loop rounds fuel w hq hline,ih]
      simp only [Nat.mul_add,Nat.mul_one,Nat.add_le_add_iff_right]

theorem runWithin_dialogue (hq : line ≠ "q") (hline : isNumeral line → numeralValue line < maxLength) :
    Computation.runWithin rounds (replayed (factorialDialogue fuel : ConsoleProgram R Unit) line (View.look w)) w =
      if rounds ≤ 2 * fuel + 1 then none else some (.error .outOfFuel,w) := by
  cases rounds with
  | zero => rfl
  | succ rounds =>
    rw [runWithin_help,runWithin_rounds rounds fuel w hq hline]
    simp only [Nat.add_le_add_iff_right]

theorem runWithin_dialogue_quit :
    Computation.runWithin 3 (replayed (factorialDialogue (fuel + 1) : ConsoleProgram R Unit) "q" (View.look w)) w =
      some (.ok (),w) := by
  rw [runWithin_help,runWithin_read,replayed_quit,if_neg Bool.false_ne_true,replayed_done]
  rfl

theorem runWithin_dialogue_refused (hq : line ≠ "q") (hnumeral : isNumeral line)
    (hlarge : maxLength ≤ numeralValue line) :
    Computation.runWithin 3 (replayed (factorialDialogue (fuel + 1) : ConsoleProgram R Unit) line (View.look w)) w =
      some (.error (.foreign .invalidLength),w) := by
  rw [runWithin_help,runWithin_read,replayed_refused _ _ _ hq hnumeral hlarge]
  rfl

end Rounds

/-- On one line over and over, the dialogue stops only on `q`. A line that is no `q`, and no numeral with a number that
a list cannot have as its length, keeps it going: however many rounds the machine is given, a dialogue that may answer
so many lines has neither answered nor failed after them, so that there is nothing that its cut-offs come to. On `q` it
ends, and on the numerals that are left it fails, since the list of the factors is refused. -/
theorem replay_ends_only_on_quit [View W R] (w : W) :
    let replay fuel : Outcome (Replay R W Unit) := toReplay (factorialDialogue fuel) (View.look w)
    let run line fuel := runBuilt (Target.replaying R W).run (replay fuel) line w
    (∀ line, line ≠ "q" → (isNumeral line → numeralValue line < Double.pow2 32) →
      (∀ rounds fuel, rounds ≤ fuel → ∃ p, replay fuel = .ok p ∧
        Computation.runWithin rounds (p line (View.look w)) w = none) ∧
      ∀ x v, ¬ EndsWith (run line) x v) ∧
    EndsWith (run "q") (.ok ()) w ∧
    ∀ line, isNumeral line → Double.pow2 32 ≤ numeralValue line →
      EndsWith (run line) (.error (.foreign .invalidLength)) w := by
  intro replay run
  have hrun : ∀ line fuel, run line fuel =
      Computation.run (replayed (factorialDialogue fuel : ConsoleProgram R Unit) line (View.look w)) w :=
    fun line fuel => runBuilt_toReplay (factorialDialogue fuel) line w
  refine ⟨fun line hq hline => ⟨fun rounds fuel hrounds => ?_,fun x v hends => ?_⟩,⟨nofun,?_⟩,
    fun line hnumeral hlarge => ⟨nofun,?_⟩⟩
  · have hgoes := runWithin_dialogue (R := R) rounds fuel w hq hline
    rw [if_pos (by omega)] at hgoes
    obtain ⟨p,hp⟩ : ∃ p, replay fuel = .ok p := ⟨_,interpret_bind_effect ..⟩
    rw [replayed_of_ok hp] at hgoes
    exact ⟨p,hp,hgoes⟩
  · obtain ⟨fuel,hfuel⟩ := hends.2.exists
    have hcut := runWithin_dialogue (R := R) (2 * fuel + 2) fuel w hq hline
    rw [if_neg (by omega)] at hcut
    rw [hrun,Computation.run_of_runWithin hcut] at hfuel
    exact hends.1 (Prod.mk.inj hfuel).1.symm
  · filter_upwards [eventually_ge_atTop 1] with fuel hfuel
    obtain ⟨fuel,rfl⟩ := Nat.exists_eq_add_of_le' hfuel
    rw [hrun]
    exact Computation.run_of_runWithin (runWithin_dialogue_quit fuel w)
  · have hq : line ≠ "q" := by
      rintro rfl
      exact absurd hnumeral (by decide)
    filter_upwards [eventually_ge_atTop 1] with fuel hfuel
    obtain ⟨fuel,rfl⟩ := Nat.exists_eq_add_of_le' hfuel
    rw [hrun]
    exact Computation.run_of_runWithin (runWithin_dialogue_refused fuel w hq hnumeral hlarge)

/-- A number, a `q` between blanks, a `q`, and a number that is too large. -/
theorem replay_ends_only_on_quit_lines :
    let replay fuel : Outcome (Replay Unit Unit Unit) := toReplay (factorialDialogue fuel) ()
    let run line fuel := runBuilt (Target.replaying Unit Unit).run (replay fuel) line ()
    (∀ x v, ¬ EndsWith (run " 05 ") x v) ∧ (∀ x v, ¬ EndsWith (run " q") x v) ∧ EndsWith (run "q") (.ok ()) () ∧
      EndsWith (run "4294967296") (.error (.foreign .invalidLength)) () := by
  intro replay run
  have hvalue : numeralValue " 05 " = 5 := by decide +kernel
  have hsmall : 5 < Double.pow2 32 := by decide +kernel
  have hother : ¬ isNumeral " q" := by decide +kernel
  obtain ⟨hgoes,hquits,hfails⟩ := replay_ends_only_on_quit (R := Unit) ()
  exact ⟨(hgoes " 05 " (by decide) fun _ => hvalue ▸ hsmall).2,(hgoes " q" (by decide) fun h => absurd h hother).2,
    hquits,hfails "4294967296" (by decide +kernel) (by decide +kernel)⟩

end Demo

end Effectful
