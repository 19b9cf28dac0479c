import Effectful.Proofs.Computation.Direct
import Effectful.Proofs.Program.Named
/-!
# How many rounds a loop takes

The loop that runs a computation, and the one that brings the next operation of a program to the front, are given a
number of rounds. Direct evaluation tells how many are enough: each round but the last turns a bind node that this
enters, or applies a continuation that it applies, so that two rounds for each node, and one more, are enough however
the binds are nested.
-/
namespace Effectful

universe u v

namespace Computation

variable {R W α : Type} [View W R]

/-- Runs a computation, in no more than the given number of rounds. -/
def runWithin : Nat → Computation R W α → W → Option (Outcome α × W)
  | 0, _, _ => none
  | n + 1, c, w =>
    match round c w with
    | .again c w => runWithin n c w
    | .ended result w => some (result,w)

theorem runWithin_of_again {c c' : Computation R W α} {w w' : W} (h : round c w = .again c' w') (n : Nat) :
    runWithin (n + 1) c w = runWithin n c' w' := by
  simp only [runWithin,h]

theorem runWithin_of_ended {c : Computation R W α} {x : Outcome α} {w w' : W} (h : round c w = .ended x w') (n : Nat) :
    runWithin (n + 1) c w = some (x,w') := by
  simp only [runWithin,h]

theorem runWithin_bind_done {β : Type} (n : Nat) (b : β) (k : β → R → Computation R W α) (w : W) :
    runWithin (n + 1) (.bind (.done b) k) w = runWithin n (k b (View.look w)) w := rfl

theorem run_of_runWithin {n : Nat} {c : Computation R W α} {w : W} {x : Outcome α × W} (h : runWithin n c w = some x) :
    run c w = x := by
  induction n generalizing c w with
  | zero => cases h
  | succ n ih =>
    rw [run]
    split
    case h_1 c' w' hround => exact ih (by rwa [runWithin_of_again hround] at h)
    case h_2 result w' hround =>
      rw [runWithin_of_ended hround] at h
      exact Option.some.inj h

end Computation

namespace Program

variable {R : Type} {F : Type → Type u} {α : Type}

/-- Reduces a program until its next operation is in front, in no more than the given number of rounds. -/
def stepWithin : Nat → R → Program R F α → Option (Outcome (Program R F α))
  | 0, _, _ => none
  | n + 1, r, p =>
    match reduce r p with
    | .again p => stepWithin n r p
    | .ended front => some (front.map Head.toProgram)

end Program

/-- Answers no operation. -/
def Source.silent {F : Type → Type u} : Source Unit F := fun _ _ _ _ => none

namespace Named

open Program Visit

variable {I R W : Type} {F : Type → Type u} {α : Type}

section Run

variable [View W R] {m m' : Named I R (Action W) α} {w w' : W} {x : Except Halt α × W} {moves : List (Move I)}

theorem round_program (m : Named I R (Action W) α) (w : W) :
    Computation.round m.program w =
      match m.round (Source.performing Translator.id) View.look w with
      | .again _ m w => .again m.program w
      | .ended x => .ended (report "run" x.1) x.2 := by
  cases m with
  | done | malformed | raise => rfl
  | effect t =>
    simp only [program,round,Computation.round,Source.ask,Source.performing,Translator.perform,Translator.id]
    rcases t w with ⟨a | e,w'⟩ <;> rfl
  | bind i sub k =>
    cases sub with
    | done | bind | malformed | raise => rfl
    | effect t =>
      simp only [program,round,Computation.round,Source.ask,Source.performing,Translator.perform,Translator.id]
      rcases t w with ⟨a | e,w'⟩ <;> rfl

/-- The loop takes one round for each move, and the last one. -/
theorem Rounds.runWithin_eq (h : m.Rounds (Source.performing Translator.id) View.look w moves x) (n : Nat) :
    Computation.runWithin n m.program w = if moves.length < n then some (report "run" x.1,x.2) else none := by
  induction h generalizing n with
  | @last m w x hround =>
    cases n with
    | zero => rfl
    | succ n =>
      have hended := round_program m w
      rw [hround] at hended
      exact Computation.runWithin_of_ended hended n
  | @next m m' w w' move moves x hround _ ih =>
    cases n with
    | zero => rfl
    | succ n =>
      have hagain := round_program m w
      rw [hround] at hagain
      rw [Computation.runWithin_of_again hagain,ih]
      simp only [List.length_cons,Nat.add_lt_add_iff_right]

end Run

section Step

variable {m : Named I R F α} {r : R} {x : Except Halt α × Unit} {moves : List (Move I)}

theorem reduce_program (m : Named I R F α) (r : R) :
    match m.round Source.silent (fun _ => r) () with
    | .again _ q _ => reduce r m.program = .again q.program
    | .ended _ => ∃ front, reduce r m.program = .ended front := by
  cases m with
  | done | effect | malformed | raise => exact ⟨_,rfl⟩
  | bind i sub k =>
    cases sub with
    | done | bind => rfl
    | effect | malformed | raise => exact ⟨_,rfl⟩

theorem Rounds.stepWithin_eq (h : m.Rounds Source.silent (fun _ => r) () moves x) (n : Nat) :
    stepWithin n r m.program = if moves.length < n then some (step r m.program) else none := by
  generalize hs : () = s at h
  induction h generalizing n with
  | @last m s x hround =>
    cases n with
    | zero => rfl
    | succ n =>
      have hended := reduce_program m r
      rw [hround] at hended
      obtain ⟨front,hfront⟩ := hended
      simp only [stepWithin,hfront,step,head_of_ended hfront,n.succ_pos,List.length_nil,if_true]
  | @next m m' s s' move moves x hround _ ih =>
    cases n with
    | zero => rfl
    | succ n =>
      have hagain := reduce_program m r
      rw [hround] at hagain
      simp only [stepWithin,hagain,ih n rfl,step,head_of_again hagain,List.length_cons,Nat.add_lt_add_iff_right]

end Step

/-- The loops end in time, and no bind node is turned again. Let direct evaluation of a computation enter so many bind
nodes. Then the loop ends within twice as many rounds and one, with what direct evaluation comes to. Each node is
turned no more often than it is entered, its continuation is applied as often as direct evaluation applies it, and that
is once for each time that it is entered if the evaluation answers. A program is brought to its next operation
within twice as many rounds as continuations are applied on the way, one for each node that waits for its continuation
there, and one more; none waits where the program is finished. The nodes may have any names, and there are names for
every program. -/
theorem loops_end_in_time {I R : Type} :
    (∀ {W α : Type} [View W R] (m : Named I R (Action W) α) (w : W),
      let direct := m.evaluation (Source.performing Translator.id) View.look false w
      let binds := (entries direct.1).length
      Computation.eval m.program w = (report "run" direct.2.1,direct.2.2) ∧
      (∀ n, 2 * binds + 1 ≤ n → Computation.runWithin n m.program w = some (Computation.eval m.program w)) ∧
      ∃ moves, m.Rounds (Source.performing Translator.id) View.look w moves direct.2 ∧
        (∀ n, Computation.runWithin n m.program w =
          if moves.length < n then some (Computation.eval m.program w) else none) ∧
        (Move.turns moves).Sublist (entries direct.1) ∧ Move.applications moves = applications direct.1 ∧
        ∀ a, direct.2.1 = .ok a → (Move.applications moves).Perm (entries direct.1)) ∧
    (∀ {F : Type → Type u} {α : Type} (m : Named I R F α) (r : R),
      let direct := m.evaluation Source.silent (fun _ => r) false ()
      let binds := (applications direct.1).length
      let waiting := (entries direct.1).length - binds
      (applications direct.1).Subperm (entries direct.1) ∧ (∀ a, direct.2.1 = .ok a → waiting = 0) ∧
      (∀ n, 2 * binds + waiting + 1 ≤ n → stepWithin n r m.program = some (step r m.program)) ∧
      ∃ moves, m.Rounds Source.silent (fun _ => r) () moves direct.2 ∧
        (∀ n, stepWithin n r m.program = if moves.length < n then some (step r m.program) else none) ∧
        (Move.turns moves).Sublist (entries direct.1) ∧ Move.applications moves = applications direct.1) ∧
    ∀ {F : Type → Type u} {α : Type} (_ : I) (p : Program R F α), ∃ m : Named I R F α, m.program = p := by
  refine ⟨fun {W α} _ m w => ?_,fun {F α} m r => ?_,fun i p => ⟨ofProgram i p,program_ofProgram i p⟩⟩
  · intro direct binds
    have hmeaning : Computation.eval m.program w = (report "run" direct.2.1,direct.2.2) := by
      rw [Computation.eval,eval_eq_reading "run" Translator.id false m.program w,← evaluation_eq_reading]
    obtain ⟨moves,hrounds,hsublist,happlied⟩ := m.exists_rounds w
    have hexact : ∀ n, Computation.runWithin n m.program w =
        if moves.length < n then some (Computation.eval m.program w) else none := by
      intro n
      rw [hrounds.runWithin_eq,hmeaning]
    refine ⟨hmeaning,fun n hn => ?_,moves,hrounds,hexact,turns_sublist hsublist,happlied,fun a ha => ?_⟩
    · have happlications : (applications direct.1).length ≤ binds :=
        (subperm_of_evaluation (Source.performing Translator.id) View.look false m w).length_le
      have hmoves : moves.length ≤ binds + (applications direct.1).length := length_le hsublist
      rw [hexact,if_pos (by omega)]
    · rw [happlied]
      exact perm_of_evaluation_ok (Prod.ext rfl (Prod.ext ha rfl))
  · intro direct binds waiting
    have hsubperm : (applications direct.1).Subperm (entries direct.1) :=
      subperm_of_evaluation Source.silent (fun _ => r) false m ()
    obtain ⟨moves,hrounds,hsublist,happlied⟩ := m.exists_rounds ()
    refine ⟨hsubperm,fun a ha => ?_,fun n hn => ?_,moves,hrounds,hrounds.stepWithin_eq,turns_sublist hsublist,happlied⟩
    · have hperm : (applications direct.1).Perm (entries direct.1) :=
        perm_of_evaluation_ok (Prod.ext rfl (Prod.ext ha rfl))
      exact Nat.sub_eq_zero_of_le hperm.length_eq.ge
    · have happlications : binds ≤ (entries direct.1).length := hsubperm.length_le
      have hmoves : moves.length ≤ (entries direct.1).length + binds := length_le hsublist
      rw [hrounds.stepWithin_eq,if_pos (by omega)]

/-- Three nodes, of which each is the part of the one before it. -/
theorem loops_end_in_time_nested :
    let say (s : String) : Action (List String) Unit := fun log => (.ok (),log ++ [s])
    let m : Named Nat Unit (Action (List String)) Unit :=
      bind 0 (bind 1 (bind 2 (effect (say "a")) fun _ _ => effect (say "b")) fun _ _ => done ()) fun _ _ =>
        effect (say "c")
    let direct := m.evaluation (Source.performing Translator.id) View.look false []
    (entries direct.1 = [0,1,2] ∧ direct.2.1 = .ok () ∧ 2 * 3 + 1 ≤ 7 ∧ 2 * 0 + 3 + 1 ≤ 4) ∧
      Computation.runWithin 7 m.program [] = some (.ok (),["a","b","c"]) ∧
      (∃ moves : List (Move Nat), (Move.turns moves).Sublist [0,1,2] ∧ Move.applications moves = [2,1,0] ∧
        (Move.applications moves).Perm [0,1,2]) ∧
      stepWithin 4 () m.program = some (step () m.program) := by
  intro say m direct
  obtain ⟨hrun,hstep,-⟩ := loops_end_in_time.{0} (I := Nat) (R := Unit)
  obtain ⟨-,hwithin,moves,-,-,hturns,happlied,hperm⟩ := hrun m []
  obtain ⟨-,-,hbounded,-⟩ := hstep m ()
  exact ⟨⟨rfl,rfl,by decide,by decide⟩,hwithin 7 (by decide),⟨moves,hturns,happlied,hperm () rfl⟩,
    hbounded 4 (by decide)⟩

end Named

end Effectful
