import Effectful.Proofs.Work.Split
import Effectful.Routine.Cell
import Mathlib.Logic.Function.Basic
/-!
# The history of a cell

Two sides modify one cell. A modify reads the cell and then writes what its function makes of the value that it
has read. Reads and writes of the two sides may come in any order that keeps each side's own, but nothing comes
between the read and the write of a modify that is the last thing its side does. If all are, the modifies come
one after another.
-/
namespace Effectful

variable {W V : Type}

/-- The store is what it was modified to. -/
class LawfulStore (W V : Type) [HasStore W V] : Prop where
  store_modifyStore : ∀ (g : Array V → Array V) (w : W),
    HasStore.store (HasStore.modifyStore g w) = g (HasStore.store w)

@[reducible] def HasStore.bare (V : Type) : HasStore (Array V) V := ⟨fun w => w,fun g => g⟩

theorem LawfulStore.bare (V : Type) : @LawfulStore (Array V) V (HasStore.bare V) :=
  @LawfulStore.mk (Array V) V (HasStore.bare V) fun _ _ => rfl

namespace Cell

theorem index_ne {c c' : Cell} (h : c ≠ c') : c.index ≠ c'.index := by
  intro hindex
  cases c
  cases c'
  exact h (congrArg Cell.mk hindex)

variable [HasStore W V] (c : Cell)

def content (w : W) : Option V := (HasStore.store w)[c.index]?

variable {c} {w : W} {x : V}

theorem read_eq (h : c.content w = some x) : read c w = (.ok x,w) := by
  unfold content at h
  simp only [read,h]

variable [LawfulStore W V]

theorem content_write (h : c.content w = some x) (y : V) : c.content (write c y w).2 = some y := by
  unfold content at h ⊢
  have hbound := (Array.getElem?_eq_some_iff.mp h).1
  simp [write,LawfulStore.store_modifyStore,hbound]

theorem content_write_ne {c' : Cell} (hne : c' ≠ c) (y : V) :
    c.content (V := V) (write c' y w).2 = c.content w := by
  simp [content,write,LawfulStore.store_modifyStore,Array.getElem?_setIfInBounds_ne (index_ne hne)]

theorem content_allocate (h : c.content w = some x) (y : V) :
    c.content (allocate y w).2 = some x := by
  unfold content at h ⊢
  have hbound := (Array.getElem?_eq_some_iff.mp h).1
  simp [allocate,LawfulStore.store_modifyStore,Array.getElem?_push,hbound.ne,h]

end Cell

/-- What a modify does to the cell. Its function is known from its read on, and whether it is the last thing that
its side does. -/
inductive Access (V : Type)
  | read (side : Side) (last : Bool) (f : V → Outcome V) (x : V)
  | write (side : Side) (y : V)

/-- A modify that has read the value `x` and is to write what `f` makes of it. -/
structure Begun (V : Type) where
  last : Bool
  f : V → Outcome V
  x : V

/-- The accesses lead from a cell with the content `v` to one with the content `z`. Some modifies may have begun,
at most one of each side. -/
inductive History (v : V) : List (Access V) → V → (Side → Option (Begun V)) → Prop
  | nil : History v [] v fun _ => none
  | read {hs : List (Access V)} {z : V} {begun : Side → Option (Begun V)} (side : Side) (last : Bool)
      (f : V → Outcome V) (h : History v hs z begun) (hown : begun side = none)
      (hfree : ∀ m, begun side.opposite = some m → m.last = false) :
      History v (hs ++ [.read side last f z]) z (Function.update begun side (some ⟨last,f,z⟩))
  | write {hs : List (Access V)} {z y : V} {begun : Side → Option (Begun V)} {m : Begun V} (side : Side)
      (h : History v hs z begun) (hown : begun side = some m) (hy : m.f m.x = .ok y)
      (hfree : ∀ m, begun side.opposite = some m → m.last = false) :
      History v (hs ++ [.write side y]) y (Function.update begun side none)

/-- A modify that has read `x` and written `y`. -/
structure Call (V : Type) where
  side : Side
  f : V → Outcome V
  x : V
  y : V

def Call.accesses (call : Call V) : List (Access V) :=
  [.read call.side true call.f call.x,.write call.side call.y]

/-- One after another, each call finds what the one before it left. -/
inductive Serial (v : V) : List (Call V) → V → Prop
  | nil : Serial v [] v
  | call {calls : List (Call V)} {x y : V} (side : Side) {f : V → Outcome V} (h : Serial v calls x)
      (hy : f x = .ok y) : Serial v (calls ++ [⟨side,f,x,y⟩]) y

namespace History

variable {v z : V} {hs : List (Access V)} {begun : Side → Option (Begun V)}

private theorem split_last {before after : List (Access V)} {a b : Access V}
    (h : hs ++ [a] = before ++ b :: after) :
    (after = [] ∧ a = b) ∨ ∃ middle, after = middle ++ [a] ∧ hs = before ++ b :: middle := by
  rcases List.eq_nil_or_concat' after with rfl | ⟨middle,a',rfl⟩
  · exact .inl ⟨rfl,List.singleton_injective (List.append_inj_right' h rfl)⟩
  · have h' : hs ++ [a] = (before ++ b :: middle) ++ [a'] := by rw [h,List.append_assoc,List.cons_append]
    obtain rfl := List.singleton_injective (List.append_inj_right' h' rfl)
    exact .inr ⟨middle,rfl,List.append_inj_left' h' rfl⟩

/-- Nothing comes between the read and the write of a modify that is the last thing its side does. -/
theorem after_read (h : History v hs z begun) {before after : List (Access V)} {side : Side}
    {f : V → Outcome V} {x : V} (hhs : hs = before ++ .read side true f x :: after) :
    (after = [] ∧ begun side = some ⟨true,f,x⟩) ∨
      ∃ y rest, after = .write side y :: rest ∧ f x = .ok y := by
  induction h generalizing after with
  | nil => simp at hhs
  | read side' last f' h hown hfree ih =>
    rcases split_last hhs with ⟨rfl,hread⟩ | ⟨middle,rfl,hmiddle⟩
    · cases hread
      exact .inl ⟨rfl,Function.update_self ..⟩
    · rcases ih hmiddle with ⟨-,hbegun⟩ | ⟨y,rest,rfl,hy⟩
      · -- Neither side reads now: the modify's own side has begun, and the other side waits for it.
        rcases side'.eq_or_opposite side with rfl | rfl
        · rw [hown] at hbegun
          cases hbegun
        · cases hfree _ (by simpa using hbegun)
      · exact .inr ⟨y,_,rfl,hy⟩
  | @write _ _ y _ m side' h hown hy hfree ih =>
    rcases split_last hhs with ⟨rfl,hread⟩ | ⟨middle,rfl,hmiddle⟩
    · cases hread
    · rcases ih hmiddle with ⟨rfl,hbegun⟩ | ⟨y,rest,rfl,hy⟩
      · rcases side'.eq_or_opposite side with rfl | rfl
        · rw [hown] at hbegun
          cases hbegun
          exact .inr ⟨y,[],rfl,hy⟩
        · cases hfree _ (by simpa using hbegun)
      · exact .inr ⟨y,_,rfl,hy⟩

/-- If every modify is the last thing that its side does, they come one after another. -/
theorem serial (h : History v hs z begun) (hlast : ∀ side f x, .read side false f x ∉ hs) :
    ∃ calls, Serial v calls z ∧
      ((begun = fun _ => none) ∧ hs = calls.flatMap Call.accesses ∨
        ∃ side f, begun = Function.update (fun _ => none) side (some ⟨true,f,z⟩) ∧
          hs = calls.flatMap Call.accesses ++ [.read side true f z]) := by
  induction h with
  | nil => exact ⟨[],.nil,.inl ⟨rfl,rfl⟩⟩
  | read side last f h hown hfree ih =>
    obtain ⟨calls,hcalls,hcase⟩ := ih fun side f x hmem =>
      hlast side f x (List.mem_append_left _ hmem)
    obtain rfl : last = true := by
      cases last with
      | true => rfl
      | false => exact (hlast side f _ (List.mem_append_right _ (.head _))).elim
    rcases hcase with ⟨rfl,rfl⟩ | ⟨side',f',rfl,-⟩
    · exact ⟨calls,hcalls,.inr ⟨side,f,rfl,rfl⟩⟩
    · rcases side'.eq_or_opposite side with rfl | rfl
      · simp at hown
      · cases hfree _ (Function.update_self ..)
  | @write _ _ y _ m side h hown hy hfree ih =>
    obtain ⟨calls,hcalls,hcase⟩ := ih fun side f x hmem =>
      hlast side f x (List.mem_append_left _ hmem)
    rcases hcase with ⟨rfl,-⟩ | ⟨side',f,rfl,rfl⟩
    · cases hown
    · rcases side'.eq_or_opposite side with rfl | rfl
      · simp only [Function.update_self,Option.some.injEq] at hown
        subst hown
        refine ⟨_,hcalls.call side' hy,.inl ⟨by simp,?_⟩⟩
        simp [Call.accesses]
      · simp [side.opposite_ne] at hown

end History

end Effectful
