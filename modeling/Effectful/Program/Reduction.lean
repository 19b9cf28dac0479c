import Effectful.Program.Basic
/-!
# Reduction of programs

Reduction brings the next operation of a program to the front. One reduction applies the continuation
of a finished part, or turns a left-nested bind to the right; neither performs an effect. Every chain
of reductions is finite (`Next.acc`): although turning a bind makes larger nodes inside its
continuation, the left part of the node in front becomes smaller each time. All interpreters recurse
along this order.
-/
namespace Effectful.Program

universe u

variable {R : Type} {F : Type → Type u} {α β γ : Type}

/-- `Next q p` holds when `q` is what is left of `p` after one reduction or one answered
operation. -/
inductive Next : Program R F α → Program R F α → Prop
  | resume {β : Type} (a : β) (k : β → R → Program R F α) (r : R) : Next (k a r) (bind (done a) k)
  | answer {β : Type} (op : F β) (a : β) (k : β → R → Program R F α) (r : R) :
      Next (k a r) (bind (effect op) k)
  | rotate {β γ : Type} (y : Program R F γ) (g : γ → R → Program R F β)
      (k : β → R → Program R F α) :
      Next (bind y fun a r => bind (g a r) k) (bind (bind y g) k)

/-- A bind is accessible once all results of its continuation are. -/
theorem Next.acc_bind (m : Program R F β) (k : β → R → Program R F α)
    (h : ∀ a r, Acc Next (k a r)) : Acc Next (bind m k) := by
  induction m generalizing α with
  | done a =>
    refine ⟨_, fun q hq => ?_⟩
    cases hq
    exact h _ _
  | effect op =>
    refine ⟨_, fun q hq => ?_⟩
    cases hq
    exact h _ _
  | bind y g ihy ihg =>
    refine ⟨_, fun q hq => ?_⟩
    cases hq
    exact ihy _ fun a r => ihg a r k h
  | malformed tag => exact ⟨_, fun q hq => nomatch hq⟩
  | raise e => exact ⟨_, fun q hq => nomatch hq⟩

theorem Next.acc (p : Program R F α) : Acc Next p := by
  induction p with
  | bind m k _ ihk => exact acc_bind m k ihk
  | done a => exact ⟨_, fun q hq => nomatch hq⟩
  | effect op => exact ⟨_, fun q hq => nomatch hq⟩
  | malformed tag => exact ⟨_, fun q hq => nomatch hq⟩
  | raise e => exact ⟨_, fun q hq => nomatch hq⟩

/-- `q` is reached from `p` by at least one reduction or answered operation. -/
abbrev Reached (q p : Program R F α) : Prop := Relation.TransGen Next q p

instance : WellFoundedRelation (Program R F α) := ⟨Reached, WellFounded.transGen ⟨Next.acc⟩⟩

/-- Induction along the reductions of a program and the answers to its operations: one case for each
shape that an interpreter meets. -/
@[elab_as_elim]
theorem induct_next {motive : Program R F α → Prop} (p : Program R F α)
    (done : ∀ a, motive (done a)) (effect : ∀ op, motive (effect op))
    (malformed : ∀ tag, motive (malformed tag)) (raise : ∀ e, motive (raise e))
    (bind_done : ∀ {β : Type} (a : β) (k : β → R → Program R F α), (∀ r, motive (k a r)) →
      motive (bind (.done a) k))
    (bind_effect : ∀ {β : Type} (op : F β) (k : β → R → Program R F α), (∀ a r, motive (k a r)) →
      motive (bind (.effect op) k))
    (bind_bind : ∀ {β γ : Type} (y : Program R F γ) (g : γ → R → Program R F β)
      (k : β → R → Program R F α), motive (bind y fun a r => bind (g a r) k) →
      motive (bind (bind y g) k))
    (bind_malformed : ∀ {β : Type} (tag : String) (k : β → R → Program R F α),
      motive (bind (.malformed tag) k))
    (bind_raise : ∀ {β : Type} (e : Failure) (k : β → R → Program R F α),
      motive (bind (.raise e) k)) : motive p := by
  induction Next.acc p with
  | intro p _ ih =>
    match p with
    | .done a => exact done a
    | .effect op => exact effect op
    | .malformed tag => exact malformed tag
    | .raise e => exact raise e
    | .bind (.done a) k => exact bind_done a k fun r => ih _ (.resume a k r)
    | .bind (.effect op) k => exact bind_effect op k fun a r => ih _ (.answer op a k r)
    | .bind (.bind y g) k => exact bind_bind y g k (ih _ (.rotate y g k))
    | .bind (.malformed tag) k => exact bind_malformed tag k
    | .bind (.raise e) k => exact bind_raise e k

/-- The front of a reduced program. -/
inductive Head (R : Type) (F : Type → Type u) (α : Type) : Type (max 1 u)
  | done (a : α)
  /-- One operation and nothing after it. -/
  | effect (op : F α)
  /-- An operation, and the continuation that waits for its answer. -/
  | next {β : Type} (op : F β) (k : β → R → Program R F α)
  /-- A malformed node before a continuation. -/
  | stuck {β : Type} (tag : String) (k : β → R → Program R F α)
  /-- A malformed node and nothing after it. -/
  | malformed (tag : String)

def Head.toProgram : Head R F α → Program R F α
  | done a => .done a
  | effect op => .effect op
  | next op k => .bind (.effect op) k
  | stuck tag k => .bind (.malformed tag) k
  | malformed tag => .malformed tag

/-- What one look at a program brings: a reduced program, or the front of one that is reduced. -/
inductive Reduct (R : Type) (F : Type → Type u) (α : Type) : Type (max 1 u)
  | again (p : Program R F α)
  | ended (front : Outcome (Head R F α))

/-- Reduces a program once, seen from the world `r`, if it is not reduced already. -/
def reduce (r : R) : Program R F α → Reduct R F α
  | done a => .ended (.ok (.done a))
  | effect op => .ended (.ok (.effect op))
  | malformed tag => .ended (.ok (.malformed tag))
  | raise e => .ended (.error e)
  | bind (done a) k => .again (k a r)
  | bind (effect op) k => .ended (.ok (.next op k))
  | bind (bind y g) k => .again (bind y fun a r => bind (g a r) k)
  | bind (malformed tag) k => .ended (.ok (.stuck tag k))
  | bind (raise e) _ => .ended (.error e)

theorem next_of_reduce {r : R} {p q : Program R F α} (h : reduce r p = .again q) : Next q p := by
  unfold reduce at h
  split at h <;> cases h
  · exact .resume ..
  · exact .rotate ..

/-- Reduces a program until its next operation is in front, without performing it. It fails where
a continuation fails on the way. -/
def head (r : R) (p : Program R F α) : Outcome (Head R F α) :=
  match _h : reduce r p with
  | .again q => head r q
  | .ended front => front
termination_by p
decreasing_by exact .single (next_of_reduce _h)

/-- The reduced program: finished, one operation, or an operation (or a malformed node) before a
continuation. -/
def step (r : R) (p : Program R F α) : Outcome (Program R F α) := (head r p).map Head.toProgram

theorem head_of_again {r : R} {p q : Program R F α} (h : reduce r p = .again q) :
    head r p = head r q := by
  rw [head]
  split <;> simp_all

theorem head_of_ended {r : R} {p : Program R F α} {front : Outcome (Head R F α)}
    (h : reduce r p = .ended front) : head r p = front := by
  rw [head]
  split <;> simp_all

@[simp] theorem head_done (r : R) (a : α) : head r (done a : Program R F α) = .ok (.done a) :=
  head_of_ended rfl

@[simp] theorem head_effect (r : R) (op : F α) : head r (effect op) = .ok (.effect op) :=
  head_of_ended rfl

@[simp] theorem head_malformed (r : R) (tag : String) :
    head r (malformed tag : Program R F α) = .ok (.malformed tag) :=
  head_of_ended rfl

@[simp] theorem head_raise (r : R) (e : Failure) : head r (raise e : Program R F α) = .error e :=
  head_of_ended rfl

@[simp] theorem head_bind_done (r : R) (a : β) (k : β → R → Program R F α) :
    head r (bind (done a) k) = head r (k a r) :=
  head_of_again rfl

@[simp] theorem head_bind_effect (r : R) (op : F β) (k : β → R → Program R F α) :
    head r (bind (effect op) k) = .ok (.next op k) :=
  head_of_ended rfl

@[simp] theorem head_bind_bind (r : R) (y : Program R F γ) (g : γ → R → Program R F β)
    (k : β → R → Program R F α) :
    head r (bind (bind y g) k) = head r (bind y fun a r => bind (g a r) k) :=
  head_of_again rfl

@[simp] theorem head_bind_malformed (r : R) (tag : String) (k : β → R → Program R F α) :
    head r (bind (malformed tag) k) = .ok (.stuck tag k) :=
  head_of_ended rfl

@[simp] theorem head_bind_raise (r : R) (e : Failure) (k : β → R → Program R F α) :
    head r (bind (raise e) k) = .error e :=
  head_of_ended rfl

theorem Next.of_reduce_eq_next {r : R} {p : Program R F α} {op : F β}
    {k : β → R → Program R F α} (h : reduce r p = .ended (.ok (.next op k))) (a : β) (r' : R) :
    Next (k a r') p := by
  unfold reduce at h
  split at h <;> cases h
  exact .answer ..

/-- Answering the operation in front leads to a smaller program. -/
theorem reached_of_head_eq_next {r : R} {p : Program R F α} {op : F β}
    {k : β → R → Program R F α} (h : head r p = .ok (.next op k)) (a : β) (r' : R) :
    Reached (k a r') p := by
  fun_induction head r p with
  | case1 p q hq ih => exact .tail (ih h) (next_of_reduce hq)
  | case2 p front hq => exact .single (.of_reduce_eq_next (h ▸ hq) a r')

end Effectful.Program
