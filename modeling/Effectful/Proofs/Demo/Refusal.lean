import Effectful.Proofs.Demo.Dialogue
import Mathlib.Data.List.TakeWhile
/-!
# Where the dialogue breaks off

The dialogue takes every run of digits for a number and makes a list as long as the number. A list that is too long is
refused, and the refusal ends the dialogue: its loop does not go on to the lines after that one.
-/
namespace Effectful

universe u

open Filter

theorem countUp_of_le {N : Type} (ofNat : Nat → N) {i : Nat} (hi : maxLength ≤ i) :
    countUp ofNat (i : Rat) = .error (.foreign .invalidLength) := by
  have hfloor : (i : Rat).floor = i := by
    exact_mod_cast Rat.floor_intCast i
  rw [countUp,listLength,hfloor,Int.toNat_natCast,if_neg (Nat.not_lt.mpr hi),Outcome.map_error]

namespace Demo

open Console Program

variable {W : Type}

theorem factorial_of_le {R N : Type} {F : Type → Type u} [Numeric N] {i : Nat} (hi : maxLength ≤ i) (r : R) :
    (factorial i r : Outcome (Program R F N)) = .error (.foreign .invalidLength) := by
  rw [factorial,countUp_of_le _ hi,Outcome.error_andThen]

def isRefused (line : String) : Bool := isNumeral line && decide (maxLength ≤ numeralValue line)

section Rounds

variable {input rest : List String} {output : Array String} {line : String}

theorem eval_continueAfter_refused (hq : line ≠ "q") (hnumeral : isNumeral line)
    (hlarge : maxLength ≤ numeralValue line) :
    (continueAfter (some line) ()).eval "runFree" onTerminal.translator (⟨input,output⟩ : Buffers) =
      (.error (.foreign .invalidLength),⟨input,output⟩) := by
  rw [continueAfter,if_neg hq,answerLine,wholeNumber?_eq,if_pos hnumeral]
  dsimp only
  rw [factorial_of_le hlarge]
  rfl

theorem eval_rounds_append {lines : List String}
    (hlines : ∀ line ∈ lines, line ≠ "q" ∧ (isNumeral line → numeralValue line < maxLength)) (fuel : Nat) :
    (doWhile (lines.length + fuel) readLine continueAfter : ConsoleProgram Unit Unit).eval "runFree"
        onTerminal.translator (⟨lines ++ rest,output⟩ : Buffers) =
      (doWhile fuel readLine continueAfter : ConsoleProgram Unit Unit).eval "runFree" onTerminal.translator
        (⟨rest,output ++ lines.map reply⟩ : Buffers) := by
  induction lines generalizing output with
  | nil => simp
  | cons line lines ih =>
    obtain ⟨hq,hline⟩ := hlines line (List.mem_cons_self ..)
    have hlength : (line :: lines).length + fuel = lines.length + fuel + 1 := by
      simp only [List.length_cons]
      omega
    rw [hlength,List.cons_append,eval_round hq hline,ih fun line hmem => hlines line (List.mem_cons_of_mem _ hmem)]
    simp

/-- The rounds break off at the first number with too long a list, after an answer to each line before it. -/
theorem eval_rounds_refused {lines : List String}
    (hlines : ∀ line ∈ lines, line ≠ "q" ∧ (isNumeral line → numeralValue line < maxLength)) (hq : line ≠ "q")
    (hnumeral : isNumeral line) (hlarge : maxLength ≤ numeralValue line) {fuel : Nat} (hfuel : lines.length < fuel) :
    (doWhile fuel readLine continueAfter : ConsoleProgram Unit Unit).eval "runFree" onTerminal.translator
        (⟨lines ++ line :: rest,output⟩ : Buffers) =
      (.error (.foreign .invalidLength),⟨rest,output ++ lines.map reply⟩) := by
  obtain ⟨fuel,rfl⟩ := Nat.exists_eq_add_of_lt hfuel
  have hread : (readLine : ConsoleProgram Unit (Option String)).eval "runFree" onTerminal.translator
      (⟨line :: rest,output ++ lines.map reply⟩ : Buffers) =
        (.ok (some line),⟨rest,output ++ lines.map reply⟩) := rfl
  rw [Nat.add_assoc,eval_rounds_append hlines,eval_doWhile_succ,Action.andThen,hread]
  dsimp only
  rw [Action.andThen,eval_continueAfter_refused hq hnumeral hlarge]

end Rounds

theorem exists_first_refused {lines : List String}
    (h : ∃ line ∈ lines.takeWhile (· ≠ "q"), isNumeral line ∧ maxLength ≤ numeralValue line) :
    ∃ before line after, lines = before ++ line :: after ∧
      (∀ l ∈ before, l ≠ "q" ∧ (isNumeral l → numeralValue l < maxLength)) ∧
      line ≠ "q" ∧ isNumeral line ∧ maxLength ≤ numeralValue line := by
  have hsome : ((lines.takeWhile (· ≠ "q")).find? isRefused).isSome := by
    simpa [isRefused,List.find?_isSome] using h
  obtain ⟨line,hfind⟩ := Option.isSome_iff_exists.mp hsome
  obtain ⟨hline,before,between,hasked,hbefore⟩ := List.find?_eq_some_iff_append.mp hfind
  have hq : ∀ l ∈ before ++ line :: between, l ≠ "q" := by
    intro l hl
    rw [← hasked] at hl
    simpa using List.mem_takeWhile_imp hl
  refine ⟨before,line,between ++ lines.dropWhile (· ≠ "q"),?_,?_,hq line (by simp),by simpa [isRefused] using hline⟩
  · calc
      lines = lines.takeWhile (· ≠ "q") ++ lines.dropWhile (· ≠ "q") := List.takeWhile_append_dropWhile.symm
      _ = before ++ line :: (between ++ lines.dropWhile (· ≠ "q")) := by rw [hasked]; simp
  · intro l hl
    refine ⟨hq l (by simp [hl]),fun hnumeral => ?_⟩
    simpa [isRefused,hnumeral] using hbefore l hl

theorem simulate_dialogue [View W Unit] (fuel : Nat) (lines : List String) (w : W) :
    let rounds := (doWhile fuel readLine continueAfter : ConsoleProgram Unit Unit).eval "runFree" onTerminal.translator
      (⟨lines,#[dialogueHelp]⟩ : Buffers)
    simulate (factorialDialogue fuel : ConsoleProgram Unit Unit) lines w =
      (rounds.1.map fun a => (a,rounds.2),w) := by
  rw [simulate_eq_runBuilt,transition_eq_eval]
  rfl

/-- The dialogue ends on all lines, and there are two ways in which it does. It answers every line before the first
`q` if each numeral among them denotes a number that a list may have as its length; otherwise it fails, since the list
for the first number that is too large is refused. -/
theorem dialogue_ends [View W Unit] (lines : List String) (w : W) :
    let run fuel := simulate (factorialDialogue fuel : ConsoleProgram Unit Unit) lines w
    let asked := lines.takeWhile (· ≠ "q")
    (EndsWith run (.ok ((),⟨(lines.dropWhile (· ≠ "q")).drop 1,#[dialogueHelp] ++ asked.map reply⟩)) w ↔
      ∀ line ∈ asked, isNumeral line → numeralValue line < Double.pow2 32) ∧
    (EndsWith run (.error (.foreign .invalidLength)) w ↔
      ∃ line ∈ asked, isNumeral line ∧ Double.pow2 32 ≤ numeralValue line) := by
  intro run asked
  by_cases hsmall : ∀ line ∈ asked, isNumeral line → numeralValue line < Double.pow2 32
  · have hanswers : EndsWith run
        (.ok ((),⟨(lines.dropWhile (· ≠ "q")).drop 1,#[dialogueHelp] ++ asked.map reply⟩)) w := by
      refine ⟨nofun,?_⟩
      filter_upwards [eventually_gt_atTop lines.length] with fuel hfuel
      change simulate _ _ _ = _
      rw [simulate_dialogue,eval_rounds hsmall _ hfuel]
      rfl
    refine ⟨⟨fun _ => hsmall,fun _ => hanswers⟩,fun hfails => ?_,?_⟩
    · cases (hanswers.unique hfails).1
    · rintro ⟨line,hmem,hnumeral,hlarge⟩
      exact absurd (hsmall line hmem hnumeral) (Nat.not_lt.mpr hlarge)
  · have hrefused : ∃ line ∈ asked, isNumeral line ∧ Double.pow2 32 ≤ numeralValue line := by
      simpa using hsmall
    have hfails : EndsWith run (.error (.foreign .invalidLength)) w := by
      refine ⟨nofun,?_⟩
      obtain ⟨before,line,after,rfl,hbefore,hq,hnumeral,hlarge⟩ := exists_first_refused hrefused
      filter_upwards [eventually_gt_atTop before.length] with fuel hfuel
      change simulate _ _ _ = _
      rw [simulate_dialogue,eval_rounds_refused hbefore hq hnumeral hlarge hfuel]
      rfl
    refine ⟨⟨fun hanswers => ?_,fun h => absurd h hsmall⟩,fun _ => hrefused,fun _ => hfails⟩
    cases (hanswers.unique hfails).1

/-- A run of ten digits ends the dialogue, although it is a line of digits. -/
theorem dialogue_breaks_off :
    isNumeral "4294967296" ∧
      EndsWith (fun fuel => simulate (factorialDialogue fuel : ConsoleProgram Unit Unit) ["4294967296"] ())
        (.error (.foreign .invalidLength)) () := by
  have hnumeral : isNumeral "4294967296" := by decide +kernel
  have hlarge : maxLength ≤ numeralValue "4294967296" := by decide +kernel
  refine ⟨hnumeral,nofun,?_⟩
  filter_upwards [eventually_gt_atTop 0] with fuel hfuel
  have hrounds := @eval_rounds_refused [] #[dialogueHelp] "4294967296" [] (by simp) (by simp) hnumeral hlarge fuel hfuel
  rw [simulate_dialogue]
  rw [List.nil_append] at hrounds
  rw [hrounds]
  rfl

end Demo

end Effectful
