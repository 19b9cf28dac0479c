import Effectful.Proofs.Program.Reading
import Mathlib.Data.List.Perm.Subperm
/-!
# Bind nodes that are told apart

Reduction turns left-nested binds to the right. It takes a node apart for that and puts its continuation into the
continuation of another one, so that the nodes of a program cannot be followed through its reductions. In a program
whose bind nodes have names they can: a node that is turned keeps its name, and so does the one around it.

The loop and direct evaluation then do the same to each node. Direct evaluation enters it, and applies its
continuation when its part has been evaluated. The loop turns it instead of entering it, if a continuation waits for
what it comes to, and does nothing to enter it otherwise.
-/
namespace Effectful

universe u v

/-- A program whose bind nodes have names. -/
inductive Named (I R : Type) (F : Type → Type u) : Type → Type (max 1 u)
  | done {α : Type} (a : α) : Named I R F α
  | effect {α : Type} (op : F α) : Named I R F α
  | bind {α β : Type} (i : I) (sub : Named I R F β) (k : β → R → Named I R F α) : Named I R F α
  | malformed {α : Type} (tag : String) : Named I R F α
  | raise {α : Type} (e : Failure) : Named I R F α

/-- What direct evaluation does with a bind node: it enters the node, and applies its continuation to the answer of its
part. -/
inductive Visit (I : Type)
  | entered (i : I)
  | applied (i : I)
deriving DecidableEq, Repr

/-- What a round of the loop does with a bind node: it turns the node to the right, where it is a part of another one, or
applies its continuation. -/
inductive Move (I : Type)
  | turned (i : I)
  | applied (i : I)
deriving DecidableEq, Repr

namespace Move

variable {I : Type}

def turns (moves : List (Move I)) : List I :=
  moves.filterMap fun
    | turned i => some i
    | applied _ => none

def applications (moves : List (Move I)) : List I :=
  moves.filterMap fun
    | turned _ => none
    | applied i => some i

theorem applications_append (moves moves' : List (Move I)) :
    applications (moves ++ moves') = applications moves ++ applications moves' :=
  List.filterMap_append

theorem applications_applied (i : I) (moves : List (Move I)) :
    applications (applied i :: moves) = i :: applications moves := rfl

end Move

namespace Visit

variable {I : Type}

def entries (visits : List (Visit I)) : List I :=
  visits.filterMap fun
    | entered i => some i
    | applied _ => none

def applications (visits : List (Visit I)) : List I :=
  visits.filterMap fun
    | entered _ => none
    | applied i => some i

/-- The move of the loop where a continuation waits for what the node comes to. -/
def move : Visit I → Move I
  | entered i => .turned i
  | applied i => .applied i

section Lists

variable (visits visits' : List (Visit I)) (i : I)

@[simp] theorem entries_append : entries (visits ++ visits') = entries visits ++ entries visits' :=
  List.filterMap_append

@[simp] theorem entries_entered : entries (entered i :: visits) = i :: entries visits := rfl

@[simp] theorem entries_applied : entries (applied i :: visits) = entries visits := rfl

@[simp] theorem applications_append :
    applications (visits ++ visits') = applications visits ++ applications visits' :=
  List.filterMap_append

@[simp] theorem applications_entered : applications (entered i :: visits) = applications visits := rfl

@[simp] theorem applications_applied : applications (applied i :: visits) = i :: applications visits := rfl

theorem turns_map_move : Move.turns (visits.map move) = entries visits := by
  induction visits with
  | nil => rfl
  | cons visit visits ih =>
    cases visit with
    | entered i => exact congrArg (i :: ·) ih
    | applied i => exact ih

theorem applications_map_move : Move.applications (visits.map move) = applications visits := by
  induction visits with
  | nil => rfl
  | cons visit visits ih =>
    cases visit with
    | entered i => exact ih
    | applied i => exact congrArg (i :: ·) ih

theorem length_eq : visits.length = (entries visits).length + (applications visits).length := by
  induction visits with
  | nil => rfl
  | cons visit visits ih =>
    cases visit with
    | entered i => simp only [List.length_cons,entries_entered,applications_entered,ih]; omega
    | applied i => simp only [List.length_cons,entries_applied,applications_applied,ih]; omega

end Lists

section Moves

variable {visits : List (Visit I)} {moves : List (Move I)} (h : moves.Sublist (visits.map move))

include h

theorem turns_sublist : (Move.turns moves).Sublist (entries visits) := by
  rw [← turns_map_move]
  exact h.filterMap _

theorem length_le : moves.length ≤ (entries visits).length + (applications visits).length := by
  rw [← length_eq,← List.length_map move]
  exact h.length_le

end Moves

end Visit

namespace Named

open Program Visit

variable {I R W : Type} {F : Type → Type u} {S : Type v} {α β : Type}

def program {α : Type} : Named I R F α → Program R F α
  | done a => .done a
  | effect op => .effect op
  | bind _ sub k => .bind (program sub) fun b r => program (k b r)
  | malformed tag => .malformed tag
  | raise e => .raise e

/-- The program with one name for all nodes. -/
def ofProgram (i : I) {α : Type} : Program R F α → Named I R F α
  | .done a => done a
  | .effect op => effect op
  | .bind sub k => bind i (ofProgram i sub) fun b r => ofProgram i (k b r)
  | .malformed tag => malformed tag
  | .raise e => raise e

theorem program_ofProgram (i : I) (p : Program R F α) : (ofProgram i p).program = p := by
  induction p with
  | done | effect | malformed | raise => rfl
  | bind sub k ihs ihk => simp only [ofProgram,program,ihs,ihk]

section Loop

variable (source : Source S F) (look : S → R)

/-- Direct evaluation: a part to its end, and then what its continuation makes of the answer. It tells which nodes it
enters and which continuations it applies. -/
def evaluation {α : Type} : Bool → Named I R F α → S → List (Visit I) × Except Halt α × S
  | _, done a, s => ([],.ok a,s)
  | waited, effect op, s => ([],source.ask op waited s)
  | waited, bind i sub k, s =>
    match evaluation true sub s with
    | (visits,.ok b,s) =>
      match evaluation waited (k b (look s)) s with
      | (visits',x) => (.entered i :: (visits ++ .applied i :: visits'),x)
    | (visits,.error halt,s) => (.entered i :: visits,.error halt,s)
  | _, malformed tag, s => ([],.error (.malformed tag),s)
  | _, raise e, s => ([],.error (.raised e),s)

inductive Round (I R : Type) (F : Type → Type u) (S : Type v) (α : Type) : Type (max 1 u v)
  | again (move : Move I) (p : Named I R F α) (s : S)
  | ended (x : Except Halt α × S)

/-- One round of the loop. The node of which a part is turned keeps its name in the new continuation. -/
def round : Named I R F α → S → Round I R F S α
  | done a, s => .ended (.ok a,s)
  | effect op, s => .ended (source.ask op false s)
  | malformed tag, s => .ended (.error (.malformed tag),s)
  | raise e, s => .ended (.error (.raised e),s)
  | bind i (done a) k, s => .again (.applied i) (k a (look s)) s
  | bind i (effect op) k, s =>
    match source.ask op true s with
    | (.ok b,s) => .again (.applied i) (k b (look s)) s
    | (.error halt,s) => .ended (.error halt,s)
  | bind i (bind j y g) k, s => .again (.turned j) (bind j y fun c r => bind i (g c r) k) s
  | bind _ (malformed tag) _, s => .ended (.error (.malformed tag),s)
  | bind _ (raise e) _, s => .ended (.error (.raised e),s)

/-- The rounds of the loop from a program to its end: a move for each but the last, and what the loop comes to. -/
inductive Rounds : Named I R F α → S → List (Move I) → Except Halt α × S → Prop
  | last {p : Named I R F α} {s : S} {x : Except Halt α × S} : round source look p s = .ended x → Rounds p s [] x
  | next {p q : Named I R F α} {s s' : S} {move : Move I} {moves : List (Move I)} {x : Except Halt α × S} :
      round source look p s = .again move q s' → Rounds q s' moves x → Rounds p s (move :: moves) x

end Loop

variable {source : Source S F} {look : S → R}

/-- Direct evaluation is the reading of the program, however its nodes are named. -/
theorem evaluation_eq_reading (waited : Bool) (p : Named I R F α) (s : S) :
    (p.evaluation source look waited s).2 = (reading source look waited p.program s).2 := by
  induction p generalizing waited s with
  | done | effect | malformed | raise => rfl
  | bind i sub k ihs ihk =>
    have hsub := ihs true s
    simp only [evaluation,program,reading]
    rcases hx : evaluation source look true sub s with ⟨visits,halt | b,s'⟩ <;>
      rcases hy : reading source look true sub.program s with ⟨met,halt' | b',v⟩ <;>
      rw [hx,hy] at hsub <;> cases hsub
    · rfl
    · exact ihk b (look s') waited s'

section Evaluation

variable {visits : List (Visit I)} {waited : Bool} {p : Named I R F α} {s s' : S}

theorem perm_of_evaluation_ok {a : α} (h : p.evaluation source look waited s = (visits,.ok a,s')) :
    (applications visits).Perm (entries visits) := by
  induction p generalizing visits waited s s' with
  | done | effect | malformed | raise =>
    obtain rfl : [] = visits := congrArg Prod.fst h
    exact .refl []
  | bind i sub k ihs ihk =>
    simp only [evaluation] at h
    rcases hsub : evaluation source look true sub s with ⟨visits₁,halt | b,u⟩
    · rw [hsub] at h
      cases h
    · rw [hsub] at h
      rcases hrest : evaluation source look waited (k b (look u)) u with ⟨visits₂,x⟩
      simp only [hrest] at h
      cases h
      have happend := (ihs hsub).append (ihk b (look u) hrest)
      simp only [entries_entered,applications_entered,entries_append,applications_append,entries_applied,
        applications_applied]
      exact List.perm_middle.trans (happend.cons i)

/-- No continuation is applied that is not of a node that is entered, and none twice. -/
theorem subperm_of_evaluation (source : Source S F) (look : S → R) (waited : Bool) (p : Named I R F α) (s : S) :
    (applications (p.evaluation source look waited s).1).Subperm (entries (p.evaluation source look waited s).1) := by
  induction p generalizing waited s with
  | done | effect | malformed | raise => exact List.nil_subperm
  | bind i sub k ihs ihk =>
    have hpart := ihs true s
    simp only [evaluation]
    rcases hsub : evaluation source look true sub s with ⟨visits,halt | b,u⟩ <;> rw [hsub] at hpart
    · exact hpart.trans (List.sublist_cons_self i _).subperm
    · have hrest := ihk b (look u) waited u
      simp only [entries_entered,applications_entered,entries_append,applications_append,entries_applied,
        applications_applied]
      have happend := ((perm_of_evaluation_ok hsub).subperm.append hrest)
      exact List.perm_middle.subperm.trans ((List.subperm_cons i).mpr happend)

end Evaluation

/-- The loop keeps up with the evaluation of a part whose answer a continuation waits for: it turns each node that is
entered there, and applies the continuations that are applied there, all in the same order. Then it goes on with what
the continuation builds. -/
def Follows (source : Source S F) (look : S → R) (i : I) (sub : Named I R F β) (k : β → R → Named I R F α) (s : S) :
    List (Visit I) × Except Halt β × S → Prop
  | (visits,.error halt,s') => Rounds source look (bind i sub k) s (visits.map move) (.error halt,s')
  | (visits,.ok b,s') => ∀ rest x, Rounds source look (k b (look s')) s' rest x →
      Rounds source look (bind i sub k) s (visits.map move ++ .applied i :: rest) x

theorem follows_evaluation (source : Source S F) (look : S → R) (i : I) (sub : Named I R F β)
    (k : β → R → Named I R F α) (s : S) :
    Follows source look i sub k s (sub.evaluation source look true s) := by
  induction sub generalizing α i s with
  | done a => exact fun rest x hrest => .next rfl hrest
  | malformed tag => exact .last rfl
  | raise e => exact .last rfl
  | effect op =>
    rcases hask : source.ask op true s with ⟨halt | b,s'⟩ <;> simp only [evaluation,hask]
    · refine .last ?_
      simp only [round,hask]
    · intro rest x hrest
      refine .next ?_ hrest
      simp only [round,hask]
  | bind j y g ihy ihg =>
    -- Once the node is turned, its part is in front, and the node around it waits in the continuation of that.
    have hpart := ihy j (fun c r => bind i (g c r) k) s
    simp only [evaluation]
    rcases hy : evaluation source look true y s with ⟨visits,halt | c,u⟩ <;> rw [hy] at hpart
    · exact .next rfl hpart
    · have hrest := ihg c (look u) i k u
      dsimp only
      rcases hg : evaluation source look true (g c (look u)) u with ⟨visits',halt | b,v⟩ <;> rw [hg] at hrest
      · have hrounds := hpart _ _ hrest
        simp only [Follows,List.map_cons,List.map_append]
        exact .next rfl hrounds
      · intro rest x hlast
        have hrounds := hpart _ _ (hrest rest x hlast)
        simp only [List.map_cons,List.map_append,List.cons_append,List.append_assoc]
        exact .next rfl hrounds

/-- The loop comes to what direct evaluation comes to, with a part of its moves in the same order. It applies the same
continuations, and it turns no node unless that enters it. -/
theorem exists_rounds (p : Named I R F α) (s : S) :
    ∃ moves, Rounds source look p s moves (p.evaluation source look false s).2 ∧
      moves.Sublist ((p.evaluation source look false s).1.map move) ∧
      Move.applications moves = applications (p.evaluation source look false s).1 := by
  induction p generalizing s with
  | done | effect | malformed | raise => exact ⟨[],.last rfl,.refl [],rfl⟩
  | bind i sub k ihs ihk =>
    have hpart := follows_evaluation source look i sub k s
    simp only [evaluation]
    rcases hsub : evaluation source look true sub s with ⟨visits,halt | b,u⟩ <;> rw [hsub] at hpart
    · exact ⟨visits.map move,hpart,List.sublist_cons_self _ _,applications_map_move visits⟩
    · obtain ⟨rest,hrounds,hsublist,happlied⟩ := ihk b (look u) u
      refine ⟨visits.map move ++ .applied i :: rest,hpart _ _ hrounds,?_,?_⟩
      · rw [List.map_cons,List.map_append,List.map_cons]
        exact ((List.Sublist.refl _).append (hsublist.cons_cons _)).cons _
      · simp only [Move.applications_append,Move.applications_applied,applications_map_move,happlied,
          applications_entered,applications_append,applications_applied]

end Named

end Effectful
