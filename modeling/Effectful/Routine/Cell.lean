import Effectful.Routine.Basic
/-!
# Cells

A cell holds a value that routines read and write. Cells are allocated one after another in a store
that is part of the world, so a new cell differs from all others. To modify a cell is to read it and
then to write it, as two effects.
-/
namespace Effectful

structure Cell where
  index : Nat
deriving DecidableEq, Repr

class HasStore (W V : Type) where
  store : W → Array V
  modifyStore : (Array V → Array V) → W → W

namespace Cell

variable {R W V : Type} [HasStore W V]

def allocate (initial : V) : Action W Cell := fun w =>
  (.ok ⟨(HasStore.store (V := V) w).size⟩, HasStore.modifyStore (·.push initial) w)

/-- The content of a cell. A cell is read only where it was allocated before. -/
def read (c : Cell) : Action W V := fun w =>
  match (HasStore.store w)[c.index]? with
  | some v => (.ok v, w)
  | none => (.error (.error "no such cell"), w)

/-- Replaces the content of a cell, and answers the new content. -/
def write (c : Cell) (v : V) : Action W V := fun w =>
  (.ok v, HasStore.modifyStore (·.setIfInBounds c.index v) w)

/-- A routine that allocates a cell each time it runs. -/
def ref (initial : V) : Routine R W Cell := .act (allocate initial)

def get (c : Cell) : Routine R W V := .act (read c)

def set (c : Cell) (v : V) : Routine R W V := .act (write c v)

/-- Replaces the content of a cell by a function of it, and answers the new content. -/
def modify (c : Cell) (f : V → R → Outcome V) : Routine R W V :=
  .bind (get c) fun v r => .ofOutcome ((f v r).map (set c))

end Cell

end Effectful
