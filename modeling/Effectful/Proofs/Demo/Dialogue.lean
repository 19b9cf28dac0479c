import Effectful.Demo.Factorial
import Effectful.Proofs.Console.Buffers
import Effectful.Proofs.Program.Folds
/-!
# The dialogue answers every line

A round of the dialogue reads a line and prints one: the factorial of a run of digits, however many factors that takes,
or a complaint. So the dialogue goes through the lines up to the first `q`, and prints as many answers.
-/
namespace Effectful

universe u

open Filter

namespace Double

theorem digitValue_decimal (c : Char) (n : Nat) :
    (do let d ← digitValue c; if d < 10 then some (10 * n + d) else none) =
      if isDecimalDigit c then some (10 * n + (c.toNat - '0'.toNat)) else none := by
  have hiff : isDecimalDigit c = true ↔ '0' ≤ c ∧ c ≤ '9' := by simp [isDecimalDigit]
  unfold digitValue
  by_cases hdigit : '0' ≤ c ∧ c ≤ '9'
  · have hc : c.toNat ≤ 57 := UInt32.le_iff_toNat_le.mp hdigit.2
    have hvalue : c.toNat - '0'.toNat < 10 := by
      change c.toNat - 48 < 10
      omega
    simp only [hiff,if_pos hdigit,Option.bind_eq_bind,Option.bind_some,if_pos hvalue]
  · rw [if_neg hdigit,if_neg (hiff.not.mpr hdigit)]
    split_ifs
    · simp
    · simp
    · rfl

theorem digitsValue_decimal (cs : List Char) :
    digitsValue 10 cs = if !cs.isEmpty && cs.all isDecimalDigit then some (Nat.ofDigitChars 10 cs 0) else none := by
  have hrun : ∀ n, cs.foldlM (fun n c => do let d ← digitValue c; if d < 10 then some (10 * n + d) else none) n =
      if cs.all isDecimalDigit then some (Nat.ofDigitChars 10 cs n) else none := by
    induction cs with
    | nil => exact fun n => rfl
    | cons c cs ih =>
      intro n
      rw [List.foldlM_cons,digitValue_decimal,Nat.ofDigitChars_cons,List.all_cons]
      cases isDecimalDigit c with
      | false => rfl
      | true => exact ih _
  cases cs with
  | nil => rfl
  | cons c cs => exact hrun 0

end Double

theorem countUp_natCast {N : Type} (ofNat : Nat → N) {i : Nat} (hi : i < maxLength) :
    countUp ofNat (i : Rat) = .ok ((List.range' 1 i).map ofNat) := by
  have hfloor : (i : Rat).floor = i := by
    exact_mod_cast Rat.floor_intCast i
  rw [countUp,listLength,hfloor,Int.toNat_natCast,if_pos hi,Outcome.map_ok]

namespace Demo

open Console Program

variable {R W N : Type} {F : Type → Type u}

/-- Whether the line is a run of decimal digits between blanks. -/
def isNumeral (line : String) : Bool :=
  !(Text.trim line).toList.isEmpty && (Text.trim line).toList.all Double.isDecimalDigit

/-- The decimal value of the digits of such a line. -/
def numeralValue (line : String) : Nat := Nat.ofDigitChars 10 (Text.trim line).toList 0

theorem wholeNumber?_eq (line : String) :
    wholeNumber? line = if isNumeral line then some (numeralValue line) else none :=
  Double.digitsValue_decimal _

/-- The numbers from one to `n`, multiplied from left to right. -/
def product [Numeric N] (n : Nat) : N := ((List.range' 1 n).map Numeric.ofNat).foldl (· * ·) (Numeric.ofNat 1)

/-- What the dialogue prints for a line that does not end it. -/
def reply (line : String) : String :=
  if isNumeral line then factorialText (numeralValue line) (product (numeralValue line)) else complaint line

section Factorial

variable [View W R] [Numeric N] {driver : String} {t : Translator F (Action W)}

theorem eval_factorial {i : Nat} (hi : i < maxLength) (w : W) :
    (ofOutcome (factorial i (View.look w : R) : Outcome (Program R F N))).eval driver t w = (.ok (product i),w) := by
  rw [factorial,countUp_natCast _ hi,Outcome.ok_andThen,eval_fold]
  exact congrFun (Action.foldl_answer _ _ _) w

end Factorial

section Rounds

variable {input : List String} {output : Array String} {line : String}

theorem eval_answerLine (hline : isNumeral line → numeralValue line < maxLength) :
    (ofOutcome (answerLine line ())).eval "runFree" onTerminal.translator (⟨input,output⟩ : Buffers) =
      (.ok (),⟨input,output.push (reply line)⟩) := by
  rw [answerLine,wholeNumber?_eq,reply]
  by_cases hnumeral : isNumeral line
  · rw [if_pos hnumeral,if_pos hnumeral]
    dsimp only
    rw [eval_ofOutcome_bind,Action.andThen,eval_factorial (hline hnumeral)]
    rfl
  · rw [if_neg hnumeral,if_neg hnumeral]
    rfl

theorem eval_continueAfter (hq : line ≠ "q") (hline : isNumeral line → numeralValue line < maxLength) :
    (continueAfter (some line) ()).eval "runFree" onTerminal.translator (⟨input,output⟩ : Buffers) =
      (.ok true,⟨input,output.push (reply line)⟩) := by
  have hmap : (answerLine line ()).map (·.map fun _ => true) =
      (answerLine line ()).map fun p => bind p fun _ (_ : Unit) => done true := rfl
  rw [continueAfter,if_neg hq,hmap,eval_ofOutcome_bind,Action.andThen,eval_answerLine hline]
  rfl

/-- A line that is answered takes one round. -/
theorem eval_round (hq : line ≠ "q") (hline : isNumeral line → numeralValue line < maxLength) (fuel : Nat) :
    (doWhile (fuel + 1) readLine continueAfter : ConsoleProgram Unit Unit).eval "runFree" onTerminal.translator
        (⟨line :: input,output⟩ : Buffers) =
      (doWhile fuel readLine continueAfter : ConsoleProgram Unit Unit).eval "runFree" onTerminal.translator
        (⟨input,output.push (reply line)⟩ : Buffers) := by
  have hread : (readLine : ConsoleProgram Unit (Option String)).eval "runFree" onTerminal.translator
      (⟨line :: input,output⟩ : Buffers) = (.ok (some line),⟨input,output⟩) := rfl
  rw [eval_doWhile_succ,Action.andThen,hread]
  dsimp only
  rw [Action.andThen,eval_continueAfter hq hline]
  dsimp only
  rw [if_pos rfl]

/-- The rounds of the dialogue answer the lines before the first `q`, each by one line, and take that off as well. -/
theorem eval_rounds {lines : List String}
    (hlines : ∀ line ∈ lines.takeWhile (· ≠ "q"), isNumeral line → numeralValue line < maxLength)
    (output : Array String) {fuel : Nat} (hfuel : lines.length < fuel) :
    (doWhile fuel readLine continueAfter : ConsoleProgram Unit Unit).eval "runFree" onTerminal.translator
        (⟨lines,output⟩ : Buffers) =
      (.ok (),⟨(lines.dropWhile (· ≠ "q")).drop 1,output ++ (lines.takeWhile (· ≠ "q")).map reply⟩) := by
  induction lines generalizing fuel output with
  | nil =>
    obtain ⟨fuel,rfl⟩ := Nat.exists_eq_add_one_of_ne_zero (Nat.ne_zero_of_lt hfuel)
    rw [eval_doWhile_succ]
    simp [readLine,continueAfter,eval,Action.andThen,Action.answer]
  | cons line lines ih =>
    obtain ⟨fuel,rfl⟩ := Nat.exists_eq_add_one_of_ne_zero (Nat.ne_zero_of_lt hfuel)
    by_cases hq : line = "q"
    · subst hq
      rw [eval_doWhile_succ]
      simp [readLine,continueAfter,eval,Action.andThen,Action.answer]
    · have hdropped : (line :: lines).dropWhile (· ≠ "q") = lines.dropWhile (· ≠ "q") :=
        List.dropWhile_cons_of_pos (by simpa using hq)
      have htaken : (line :: lines).takeWhile (· ≠ "q") = line :: lines.takeWhile (· ≠ "q") :=
        List.takeWhile_cons_of_pos (by simpa using hq)
      rw [htaken] at hlines
      have hline := hlines line (List.mem_cons_self ..)
      have hrest := ih (fun line hmem => hlines line (List.mem_cons_of_mem _ hmem)) (output.push (reply line))
        (Nat.lt_of_succ_lt_succ hfuel)
      rw [eval_round hq hline,hrest,hdropped,htaken]
      simp

end Rounds

end Demo

end Effectful
