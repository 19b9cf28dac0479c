import Effectful.Proofs.Cell.History
import Effectful.Proofs.Demo.Dialogue
import Effectful.Proofs.Program.Repetition
import Effectful.Proofs.Routine.Expansion
import Mathlib.Data.Nat.Factorial.Basic
/-!
# The two factorials agree

One factorial is a fold whose steps are finished programs, so that reduction alone takes it to its answer. The other
keeps the product in a cell, which each round reads and writes. After any number of rounds the cell holds what the fold
has come to.
-/
namespace Effectful

universe u v

open Filter

theorem countUp_of_lt {N : Type} (ofNat : Nat → N) {n : Int} (hn : n < (Double.pow2 32 : Nat)) :
    countUp ofNat (n : Rat) = .ok ((List.range' 1 n.toNat).map ofNat) := by
  have hn' : (n : Rat) < (Double.pow2 32 : Nat) := by exact_mod_cast hn
  rw [countUp,listLength_of_lt hn',Rat.floor_intCast,Outcome.map_ok]

theorem Program.exists_fold_eq_ok {R T β : Type} {F : Type → Type u} (items : List T) (initial : β)
    (f : β → T → R → Program R F β) (r : R) :
    ∃ p, fold items initial (fun acc item r => .ok (f acc item r)) r = .ok p := by
  cases items with
  | nil => exact ⟨_,rfl⟩
  | cons item items => exact ⟨_,rfl⟩

/-- A fold whose steps are finished is reduced to the answer, in every target. -/
theorem Program.interpret_fold_done {R T β : Type} {F : Type → Type u} {G : Type → Type v} (driver : String)
    (t : Translator F G) (c : Context R G) (items : List T) (initial : β) (f : β → T → β) (r r' : R) :
    (ofOutcome (fold items initial (fun acc item _ => .ok (.done (f acc item))) r)).interpret driver t c r' =
      .ok (c.lift (items.foldl f initial)) := by
  induction items generalizing initial r r' with
  | nil => exact interpret_done driver t c r' initial
  | cons item items ih => exact (interpret_bind_done driver t c r' _ _).trans (ih (f initial item) r' r')

namespace Routine

variable {R W α : Type} {p : Routine R W α}

theorem oneThread_work (hp : p.Uses Work.OneThread) (r : R) : (p.work r).OneThread := by
  unfold work
  cases hwork : Work.ofProgram p r with
  | ok work =>
    refine Work.oneThread_of_uses "runFree" (hp.mono fun op hop m hm => ?_) r hwork
    cases hm
    exact hop
  | error e => trivial

theorem run_work [View W R] (hp : p.Uses Work.OneThread) (w : W) :
    ∀ᶠ fuel in atTop, (p.work (View.look w)).run fuel w = p.eval "runFree" Work.directly w := by
  filter_upwards [Work.run_eq_eval (oneThread_work hp (View.look w)) w] with fuel hfuel
  rw [hfuel,work,Work.eval_ofOutcome]
  exact (Work.reading R W).interpret_eq_eval (fun _ => rfl) "runFree" Translator.id Work.directly (fun _ _ => rfl) p w

end Routine

theorem Program.uses_fold {R T β : Type} {F : Type → Type u} {P : {α : Type} → F α → Prop} (items : List T)
    (initial : β) {f : β → T → R → Outcome (Program R F β)} (hf : ∀ acc item r, (ofOutcome (f acc item r)).Uses P)
    (r : R) : (ofOutcome (fold items initial f r)).Uses P := by
  induction items generalizing initial r with
  | nil => trivial
  | cons item items ih =>
    have hfirst := hf initial item r
    rw [fold]
    cases hx : f initial item r with
    | ok first =>
      rw [hx] at hfirst
      exact ⟨hfirst,fun acc r' => ih acc r'⟩
    | error e => trivial

theorem Program.uses_ofOutcome_bind {R α β : Type} {F : Type → Type u} {P : {α : Type} → F α → Prop}
    {x : Outcome (Program R F β)} {k : β → R → Program R F α} (hx : (ofOutcome x).Uses P)
    (hk : ∀ b r, (k b r).Uses P) : (ofOutcome (x.map fun p => .bind p k)).Uses P := by
  cases x with
  | ok p => exact ⟨hx,hk⟩
  | error e => trivial

namespace Demo

open Console Program

variable {R W N : Type} [Numeric N]

theorem product_succ (k : Nat) : (product (k + 1) : N) = product k * Numeric.ofNat (k + 1) := by
  simp [product,List.range'_concat,Nat.add_comm]

theorem product_eq_factorial (k : Nat) : (product k : Nat) = k.factorial := by
  induction k with
  | zero => rfl
  | succ k ih =>
    rw [product_succ,ih,Nat.factorial_succ,Nat.mul_comm]
    rfl

theorem factorial_eq_ok {F : Type → Type u} {n : Int} (hn : n < (Double.pow2 32 : Nat)) (r : R) :
    ∃ p : Program R F N, factorial n r = .ok p ∧
      ∀ {G : Type → Type v} (driver : String) (t : Translator F G) (c : Context R G) (r' : R),
        p.interpret driver t c r' = .ok (c.lift (product n.toNat)) := by
  obtain ⟨p,hp⟩ := exists_fold_eq_ok (F := F) ((List.range' 1 n.toNat).map Numeric.ofNat) (Numeric.ofNat 1 : N)
    (fun acc i _ => .done (acc * i)) r
  refine ⟨p,?_,fun driver t c r' => ?_⟩
  · rw [factorial,countUp_of_lt _ hn,Outcome.ok_andThen,hp]
  · have hfold := interpret_fold_done driver t c ((List.range' 1 n.toNat).map Numeric.ofNat) (Numeric.ofNat 1 : N)
      (· * ·) r r'
    rwa [hp] at hfold

theorem uses_factorialInCell [HasStore W N] (n : Rat) : (factorialInCell n : Routine R W N).Uses Work.OneThread := by
  refine ⟨trivial,fun c r => ?_⟩
  cases countUp (N := N) Numeric.ofNat n with
  | error e => trivial
  | ok factors =>
    refine uses_ofOutcome_bind (uses_fold factors () (fun _ x _ => ?_) r) fun _ _ => trivial
    exact ⟨⟨trivial,fun _ _ => trivial⟩,fun _ _ => trivial⟩

section Cell

variable [View W R] [HasStore W N] [LawfulStore W N] {base : Array N} {w : W}

/-- The accesses of a round: the product so far is read, and the next one written. -/
def roundAccesses (c : Cell) (i : Nat) : List (Σ β : Type, Work R W β) :=
  [⟨N,.delay c.read⟩,⟨N,.delay (c.write (product i : N))⟩]

/-- A round takes the cell from one product to the next one. -/
theorem trace_round (c : Cell) (hc : c.index = base.size) {i : Nat}
    (hw : HasStore.store w = base.push (product i : N)) :
    ∃ u : W, HasStore.store u = base.push (product (i + 1) : N) ∧
      trace "runFree" Work.directly (c.modify fun (x : N) (_ : R) => .ok (x * Numeric.ofNat (i + 1))) w =
        (roundAccesses (N := N) c (i + 1),.ok (product (i + 1) : N),u) := by
  have hread : c.read w = (.ok (product i : N),w) := Cell.read_eq (by simp [Cell.content,hw,hc])
  refine ⟨(c.write (product (i + 1) : N) w).2,?_,?_⟩
  · simp [Cell.write,LawfulStore.store_modifyStore,hw,hc,Array.setIfInBounds,Array.set_push]
  · have hget : trace "runFree" Work.directly (c.get : Routine R W N) w =
        ([⟨N,.delay c.read⟩],.ok (product i : N),w) := by
      rw [← hread]
      rfl
    rw [Cell.modify,trace_bind_of_ok hget,← product_succ]
    rfl

theorem trace_rounds (c : Cell) (hc : c.index = base.size) (k : Nat) {i : Nat}
    (hw : HasStore.store w = base.push (product i : N)) (r : R) :
    ∃ u : W, HasStore.store u = base.push (product (i + k) : N) ∧
      trace "runFree" Work.directly (ofOutcome (forEach ((List.range' (i + 1) k).map Numeric.ofNat)
        (fun (x : N) _ => .ok (c.modify fun (v : N) (_ : R) => .ok (v * x))) r)) w =
        ((List.range' (i + 1) k).flatMap (roundAccesses (N := N) c),.ok (),u) := by
  induction k generalizing i w r with
  | zero => exact ⟨w,hw,rfl⟩
  | succ k ih =>
    obtain ⟨u,hu,hround⟩ := trace_round (R := R) c hc hw
    obtain ⟨v,hv,hrest⟩ := ih hu (View.look u)
    refine ⟨v,?_,?_⟩
    · rw [hv,Nat.add_assoc,Nat.add_comm 1 k]
    · have hskip : trace "runFree" Work.directly (skip (c.modify fun (v : N) (_ : R) =>
          .ok (v * Numeric.ofNat (i + 1)))) w = (roundAccesses (N := N) c (i + 1),.ok (),u) := by
        rw [skip,Program.map,trace_bind_of_ok hround,trace_done,Trace.after,List.append_nil]
      rw [List.range'_succ,List.map_cons,List.flatMap_cons,forEach,fold]
      refine (trace_bind_of_ok hskip).trans ?_
      exact congrArg (Trace.after _) hrest

/-- All that the cell program does: it allocates a cell, makes its rounds, and reads the cell. -/
def cellAccesses (c : Cell) (k : Nat) : List (Σ β : Type, Work R W β) :=
  ⟨Cell,.delay (Cell.allocate (Numeric.ofNat 1 : N))⟩ ::
    ((List.range' 1 k).flatMap (roundAccesses (N := N) c) ++ [⟨N,.delay c.read⟩])

theorem trace_factorialInCell {n : Int} (hn : n < (Double.pow2 32 : Nat)) (w : W) :
    ∃ u : W, HasStore.store u = (HasStore.store w).push (product n.toNat : N) ∧
      trace "runFree" Work.directly (factorialInCell n : Routine R W N) w =
        (cellAccesses (N := N) ⟨(HasStore.store (V := N) w).size⟩ n.toNat,.ok (product n.toNat : N),u) := by
  let c : Cell := ⟨(HasStore.store (V := N) w).size⟩
  let v : W := (Cell.allocate (Numeric.ofNat 1 : N) w).2
  have hallocate : trace "runFree" Work.directly (Cell.ref (Numeric.ofNat 1 : N) : Routine R W Cell) w =
      ([⟨Cell,.delay (Cell.allocate (Numeric.ofNat 1 : N))⟩],.ok c,v) := rfl
  have hv : HasStore.store v = (HasStore.store w).push (product 0 : N) := LawfulStore.store_modifyStore ..
  obtain ⟨u,hu,hrounds⟩ := trace_rounds (R := R) c rfl n.toNat hv (View.look v)
  rw [Nat.zero_add] at hu hrounds
  have hread : c.read u = (.ok (product n.toNat : N),u) := Cell.read_eq (by simp [Cell.content,hu,c])
  have hget : trace "runFree" Work.directly (c.get : Routine R W N) u =
      ([⟨N,.delay c.read⟩],.ok (product n.toNat : N),u) := by
    rw [← hread]
    rfl
  refine ⟨u,hu,?_⟩
  rw [factorialInCell,trace_bind_of_ok hallocate,countUp_of_lt _ hn,Outcome.ok_andThen,
    trace_ofOutcome_bind_of_ok hrounds,hget]
  rfl

end Cell

/-- The two factorials agree. Let `n` be a whole number below the least length that is refused. The fold is a program
that answers the product of the numbers from one to `n`, from left to right, on any buffers, which it leaves alone, and
the cell program resolves to the same product. That allocates one cell and writes it in `n` rounds, each time to the next
product, so that the last one is the content of the cell in the end. No other cell is touched. The product of no number
is one, and over the natural numbers the products are the factorials. -/
theorem factorials_agree (R W N : Type) [View W R] [Numeric N] [HasStore W N] [LawfulStore W N] {n : Int}
    (hn : n < (Double.pow2 32 : Nat)) (w : W) :
    let answer : N := product n.toNat
    let accesses := cellAccesses (R := R) (W := W) (N := N) ⟨(HasStore.store (V := N) w).size⟩ n.toNat
    (∃ p : ConsoleProgram R N, factorial n (View.look w) = .ok p ∧
      (∀ buffers, runBuilt (Target.simulating R W).run (toTransition p (View.look w)) buffers w =
        (.ok (answer,buffers),w)) ∧
      ∀ lines, simulate p lines w = (.ok (answer,{ input := lines }),w)) ∧
    (∃ u : W,
      (∀ᶠ fuel in atTop, ((factorialInCell n : Routine R W N).work (View.look w)).run fuel w = (.ok answer,u)) ∧
      (factorialInCell n : Routine R W N).operations "runFree" Work.directly w = accesses ∧
      Work.directly.Performs accesses w none u ∧
      HasStore.store u = (HasStore.store w).push answer) ∧
    (n ≤ 0 → answer = Numeric.ofNat 1) ∧ (product n.toNat : Nat) = n.toNat.factorial := by
  intro answer accesses
  obtain ⟨p,hp,hinterpret⟩ := factorial_eq_ok (F := Console R) (N := N) hn (View.look w : R)
  have htransition : ∀ buffers, runBuilt (Target.simulating R W).run (toTransition p (View.look w)) buffers w =
      (.ok (answer,buffers),w) := by
    intro buffers
    rw [toTransition,Program.runIn,hinterpret]
    exact congrFun ((Target.simulating R W).run_lift answer buffers) w
  obtain ⟨u,hu,htrace⟩ := trace_factorialInCell (R := R) (N := N) hn w
  refine ⟨⟨p,hp,htransition,fun lines => (simulate_eq_runBuilt p lines w).trans (htransition _)⟩,
    ⟨u,?_,congrArg Prod.fst htrace,performs_of_trace htrace,hu⟩,?_,product_eq_factorial n.toNat⟩
  · filter_upwards [Routine.run_work (uses_factorialInCell (R := R) (N := N) n) w] with fuel hfuel
    exact hfuel.trans (congrArg Prod.snd htrace)
  · intro hle
    have hzero : n.toNat = 0 := Int.toNat_of_nonpos hle
    simp only [answer,hzero]
    rfl

attribute [local instance] HasStore.bare LawfulStore.bare in
/-- Four rounds over the natural numbers, in a store that has one cell already. -/
theorem factorials_agree_four :
    (4 : Int) < (Double.pow2 32 : Nat) ∧
      (∃ p : ConsoleProgram Unit Nat, factorial (4 : Int) () = .ok p ∧
        simulate p ["a"] (#[7] : Array Nat) = (.ok (24,{ input := ["a"] }),#[7])) ∧
      ∀ᶠ fuel in atTop, ((factorialInCell (4 : Int) : Routine Unit (Array Nat) Nat).work ()).run fuel #[7] =
        (.ok 24,#[7,24]) := by
  have hn : (4 : Int) < (Double.pow2 32 : Nat) := by decide
  obtain ⟨⟨p,hp,-,hsimulate⟩,⟨u,hruns,-,-,hu⟩,-⟩ := factorials_agree Unit (Array Nat) Nat hn #[7]
  obtain rfl : u = #[7,24] := hu
  exact ⟨hn,⟨p,hp,hsimulate ["a"]⟩,hruns⟩

end Demo

end Effectful
