import Effectful.Proofs.Cell.History
import Effectful.Proofs.Work.Tidy
/-!
# A machine with a store

The machine has an explicit store, which tells the live cells from the others and what each of them holds. It carries
out one instruction after another: an effect on the rest of the world, an effect that waits for a callback, or an
access to a cell. The same instructions stand for routines of the executor.
-/
namespace Effectful

variable {R U V S T α : Type}

/-- A store of values. The cells are numbered in the order in which they come to life. -/
@[ext] structure Memory (V : Type) where
  next : Nat
  content : Cell → Option V
  live : ∀ c, (content c).isSome ↔ c.index < next

namespace Memory

def fresh (m : Memory V) : Cell := ⟨m.next⟩

theorem content_fresh (m : Memory V) : m.content m.fresh = none := by
  have hdead : ¬(m.content m.fresh).isSome := fun h => Nat.lt_irrefl m.next ((m.live m.fresh).mp h)
  simpa using hdead

def allocate (m : Memory V) (x : V) : Memory V where
  next := m.next + 1
  content := Function.update m.content m.fresh (some x)
  live c := by
    by_cases hc : c = m.fresh
    · subst hc
      simp [fresh]
    · have hindex : c.index ≠ m.next := Cell.index_ne hc
      rw [Function.update_of_ne hc,m.live]
      omega

def write (m : Memory V) (c : Cell) (x : V) : Memory V where
  next := m.next
  content := Function.update m.content c ((m.content c).map fun _ => x)
  live c' := by
    by_cases hc : c' = c
    · subst hc
      simp [m.live]
    · rw [Function.update_of_ne hc,m.live]

def ofArray (cells : Array V) : Memory V where
  next := cells.size
  content c := cells[c.index]?
  live c := by simp

theorem ofArray_push (cells : Array V) (x : V) : ofArray (cells.push x) = (ofArray cells).allocate x := by
  refine Memory.ext (Array.size_push x) (funext fun c => ?_)
  by_cases hc : c = ⟨cells.size⟩
  · subst hc
    simp [ofArray,allocate,fresh]
  · have hindex : c.index ≠ cells.size := Cell.index_ne hc
    simp [ofArray,allocate,fresh,Function.update_of_ne hc,Array.getElem?_push,hindex]

theorem ofArray_set (cells : Array V) (c : Cell) (x : V) :
    ofArray (cells.setIfInBounds c.index x) = (ofArray cells).write c x := by
  refine Memory.ext (Array.size_setIfInBounds ..) (funext fun c' => ?_)
  by_cases hc : c' = c
  · subst hc
    rcases Nat.lt_or_ge c'.index cells.size with hlive | hdead
    · simp [ofArray,write,hlive]
    · simp [ofArray,write,hdead.not_gt]
  · simp [ofArray,write,Function.update_of_ne hc,Array.getElem?_setIfInBounds_ne (Cell.index_ne (Ne.symm hc))]

end Memory

/-- A world of a store and the rest of it. -/
structure Stored (U S : Type) where
  rest : U
  store : S

namespace Stored

def map (f : S → T) (w : Stored U S) : Stored U T := ⟨w.rest,f w.store⟩

def onRest (t : Action U α) : Action (Stored U S) α := t.onPart rest fun u w => ⟨u,w.store⟩

instance [View U R] : View (Stored U S) R := ⟨fun w => View.look w.rest⟩

instance : HasStore (Stored U (Array V)) V := ⟨store,fun g w => ⟨w.rest,g w.store⟩⟩

end Stored

def Reply.onRest (reply : Reply U α) : Reply (Stored U S) α :=
  ⟨reply.now,reply.later.map fun answer w => ((answer w.rest).1,⟨(answer w.rest).2,w.store⟩)⟩

variable (R U V) in
/-- What a sequential program asks for. Who calls back once more does nothing else by it. -/
inductive Instruction : Type → Type 1
  | io {α : Type} (t : Action U α) : Instruction α
  | await {α : Type} (register : Action U (Reply U α))
      (plain : ∀ u reply, (register u).1 = .ok reply → reply.Plain) : Instruction α
  | ref (x : V) : Instruction Cell
  | get (c : Cell) : Instruction V
  | set (c : Cell) (x : V) : Instruction V
  | modify (c : Cell) (f : V → R → Outcome V) : Instruction V

namespace Instruction

def routine : Instruction R U V α → Routine R (Stored U (Array V)) α
  | io t => .act (Stored.onRest t)
  | await register _ => .await fun w =>
      ((register w.rest).1.map Reply.onRest,⟨(register w.rest).2,w.store⟩)
  | ref x => Cell.ref x
  | get c => c.get
  | set c x => c.set x
  | modify c f => c.modify f

variable [View U R]

def step : Instruction R U V α → Action (Stored U (Memory V)) α
  | io t => Stored.onRest t
  | await register _ => Stored.onRest (register.andThen Reply.settle)
  | ref x => fun s => (.ok s.store.fresh,⟨s.rest,s.store.allocate x⟩)
  | get c => fun s =>
    match s.store.content c with
    | some x => (.ok x,s)
    | none => (.error (.error "no such cell"),s)
  | set c x => fun s => (.ok x,⟨s.rest,s.store.write c x⟩)
  | modify c f => fun s =>
    match s.store.content c with
    | some x =>
      match f x (View.look s) with
      | .ok y => (.ok y,⟨s.rest,s.store.write c y⟩)
      | .error e => (.error e,s)
    | none => (.error (.error "no such cell"),s)

def machine : Translator (Instruction R U V) (Action (Stored U (Memory V))) := ⟨fun op => .ok op.step⟩

end Instruction

end Effectful
