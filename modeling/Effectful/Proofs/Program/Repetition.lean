import Effectful.Proofs.Program.Traversal
/-!
# Programs that are repeated

A program is repeated by a counter that goes down to zero, or by a list of as many copies of it. Both are run as that
many executions of the program, one after the other, where the counter is rounded up and the length of the list down.
-/
namespace Effectful

universe u

theorem listLength_of_lt {n : Rat} (hn : n < (Double.pow2 32 : Nat)) : listLength n = .ok n.floor.toNat := by
  have hfloor : n.floor < (Double.pow2 32 : Nat) := by
    rw [Rat.floor_lt_iff]
    exact_mod_cast hn
  have hpos : 0 < Double.pow2 32 := by decide
  rw [listLength,if_pos]
  change n.floor.toNat < Double.pow2 32
  omega

namespace Interpreter

open Program

variable {F : Type → Type u} {W S α : Type} [View W Unit] (M : Interpreter F W S)

/-- Repeating by a counter is running that many copies, whose results are forgotten. -/
theorem run_times (n : Rat) (p : Program Unit F α) :
    M.run (times n p) = (fun _ => ()) <$> (List.replicate n.ceil.toNat p).mapM M.run := by
  fun_induction times n p with
  | case1 n hn =>
    have hceil : n.ceil.toNat = 0 := by
      have hle : n.ceil ≤ 0 := by rw [Rat.ceil_le_iff]; exact_mod_cast hn
      omega
    simp [hceil]
  | case2 n hn ih =>
    have hceil : n.ceil.toNat = (n - 1).ceil.toNat + 1 := by
      have hpos : ¬ n.ceil ≤ 0 := by rw [Rat.ceil_le_iff]; exact_mod_cast hn
      rw [Rat.ceil_sub_one]
      omega
    rw [hceil,List.replicate_succ,List.mapM_cons,run_bind,ih]
    simp

theorem run_replicate {n : Rat} (hn : n < (Double.pow2 32 : Nat)) (p : Program Unit F α) :
    M.run (ofOutcome (replicate n p)) = (List.replicate n.floor.toNat p).mapM M.run := by
  rw [replicate,listLength_of_lt hn,Outcome.map_ok]
  exact M.run_all _

/-- One of `k` executions of a program is the first that fails, and it fails in this way: those before it have
answered, each from the state that the one before it has left. -/
def FailsWithin (k : Nat) (p : Program Unit F α) (s : S) (x : Failure × W) : Prop :=
  ∃ i < k, ∃ results u, M.Answers (List.replicate i p) s results u ∧ M.run p u = .error x

theorem mapM_replicate_eq_error_iff {k : Nat} {p : Program Unit F α} {s : S} {x : Failure × W} :
    (List.replicate k p).mapM M.run s = .error x ↔ M.FailsWithin k p s x := by
  rw [Run.mapM_eq_error_iff]
  constructor
  · rintro ⟨before,item,after,results,u,hcopies,hbefore,hitem⟩
    obtain ⟨hlength,hbefore',hafter⟩ := List.append_eq_replicate_iff.mp hcopies.symm
    have hmem : item ∈ List.replicate k p := by simp [hcopies]
    obtain rfl : item = p := List.eq_of_mem_replicate hmem
    rw [hbefore',M.mapM_eq_ok_iff] at hbefore
    refine ⟨before.length,?_,results,u,hbefore,hitem⟩
    simp at hlength
    omega
  · rintro ⟨i,hi,results,u,hbefore,hitem⟩
    refine ⟨List.replicate i p,p,List.replicate (k - i - 1) p,results,u,?_,M.mapM_eq_ok_iff.mpr hbefore,hitem⟩
    rw [← List.replicate_succ,List.replicate_append_replicate]
    congr 1
    omega

end Interpreter

namespace Program

variable {F : Type → Type u} {W S α : Type} [View W Unit]

/-- How often a program is repeated, under every interpreter. A counter that starts at `n` repeats it as often as `n`
rounded up says, and a list of the length `n` as often as `n` rounded down, not at all if that is negative: the
executions follow each other, each from the state that the one before it has left, and the first that fails ends them
with its failure. The list answers their results in order. So for a whole number the two agree, and to count down from
a sum is to count down from its parts. -/
theorem times_replicate_executions (M : Interpreter F W S) (p : Program Unit F α) :
    (∀ (n : Rat) s,
      (∀ v, M.run (times n p) s = .ok ((),v) ↔ ∃ results, M.Answers (List.replicate n.ceil.toNat p) s results v) ∧
      ∀ x, M.run (times n p) s = .error x ↔ M.FailsWithin n.ceil.toNat p s x) ∧
    (∀ (n : Rat) s, n < (Double.pow2 32 : Nat) →
      (∀ results v, M.run (ofOutcome (replicate n p)) s = .ok (results,v) ↔
        M.Answers (List.replicate n.floor.toNat p) s results v) ∧
      ∀ x, M.run (ofOutcome (replicate n p)) s = .error x ↔ M.FailsWithin n.floor.toNat p s x) ∧
    (∀ n : Int, n < (Double.pow2 32 : Nat) → M.run (times n p) = M.run (ofOutcome ((replicate n p).map skip))) ∧
    ∀ m n : Nat, M.run (times (m + n : Nat) p) = M.run (bind (times m p) fun _ _ => times n p) := by
  have hnat : ∀ n : Nat, ((n : Rat).ceil).toNat = n := by
    intro n
    rw [← Rat.intCast_natCast,Rat.ceil_intCast]
    simp
  refine ⟨?_,?_,?_,?_⟩
  · intro n s
    constructor
    · intro v
      simp [M.run_times,Run.map_eq_ok_iff,M.mapM_eq_ok_iff]
    · intro x
      rw [M.run_times,Run.map_eq_error_iff,M.mapM_replicate_eq_error_iff]
  · intro n s hn
    constructor
    · intro results v
      rw [M.run_replicate hn,M.mapM_eq_ok_iff]
    · intro x
      rw [M.run_replicate hn,M.mapM_replicate_eq_error_iff]
  · intro n hn
    have hn' : (n : Rat) < (Double.pow2 32 : Nat) := by exact_mod_cast hn
    have hskip : M.run (ofOutcome ((replicate n p).map skip)) =
        M.run (ofOutcome (replicate n p)) >>= fun _ => M.run (done ()) := M.run_ofOutcome_bind _ _
    rw [hskip,M.run_replicate hn',M.run_times,Rat.ceil_intCast,Rat.floor_intCast]
    simp
  · intro m n
    simp only [M.run_bind,M.run_times,hnat]
    rw [← List.replicate_append_replicate,List.mapM_append]
    simp

/-- Two and a half rounds are three by the counter and two in the list. -/
theorem times_replicate_executions_half :
    let tick : Action (List String) Nat := fun log => (.ok log.length,log ++ ["tick"])
    let p : Program Unit (Action (List String)) Nat := effect tick
    let M : Interpreter (Action (List String)) (List String) (List String) := .looped Translator.id
    (5 / 2 : Rat) < (Double.pow2 32 : Nat) ∧ M.run (times (5 / 2) p) [] = .ok ((),["tick","tick","tick"]) ∧
      M.run (ofOutcome (replicate (5 / 2) p)) [] = .ok ([0,1],["tick","tick"]) := by
  intro tick p M
  have hbound : (5 / 2 : Rat) < (Double.pow2 32 : Nat) := by decide +kernel
  have hceil : (5 / 2 : Rat).ceil.toNat = 3 := by decide +kernel
  have hfloor : (5 / 2 : Rat).floor.toNat = 2 := by decide +kernel
  have hp : M.run p = Run.ofAction tick := Interpreter.run_looped Translator.id p
  obtain ⟨htimes,hreplicate,-⟩ := times_replicate_executions M p
  refine ⟨hbound,((htimes _ _).1 _).mpr ⟨[0,1,2],?_⟩,((hreplicate _ _ hbound).1 _ _).mpr ?_⟩
  · rw [hceil,← M.mapM_eq_ok_iff]
    simp only [List.replicate,List.mapM_cons,hp]
    rfl
  · rw [hfloor,← M.mapM_eq_ok_iff]
    simp only [List.replicate,List.mapM_cons,hp]
    rfl

end Program

end Effectful
