import Effectful.Proofs.Work.Sides
import Effectful.Proofs.Work.Stack
/-!
# A pair at the root

A visit to a pair at the root is a visit to one of its sides, or a job of the pair's own. The pair answers only
if both of its sides have, so a side that is bound to fail keeps it from answering.
-/
namespace Effectful

variable {R W α β γ : Type}

/-- The task has failed, or will once the failure below it is passed on. -/
inductive Task.Failed : Task R W α → Prop
  | known {t : Task R W α} {e : Failure} (h : t.outcome? = some (.error e)) : Failed t
  | relay {t : Task R W α} (h : Failed t) (steps : Nat) : Failed (.relay t steps)

namespace Task

theorem Failed.not_answered {t : Task R W α} (h : t.Failed) {a : α} (ha : t.outcome? = some (.ok a)) :
    False := by
  cases h with
  | known h => cases h.symm.trans ha
  | relay => cases ha

theorem Failed.relayed {t : Task R W α} (h : t.Failed) (steps : Nat) : (t.relayed steps).Failed := by
  cases t with
  | relay child more =>
    cases h with
    | known h => cases h
    | relay h => exact .relay h _
  | _ => exact .relay h steps

theorem Failed.visit [View W R] {t : Task R W α} (h : t.Failed) (here rest : Path) (q : Queue W) :
    (Task.visit here t rest q).1.Failed := by
  induction h generalizing rest q with
  | known h => exact .known (outcome?_visit h here rest q)
  | @relay t h steps ih =>
    cases ht : t.outcome? with
    | none =>
      rw [visit_relay ht,passOn_eq]
      exact (ih rest q).relayed steps
    | some x =>
      cases rest with
      | nil =>
        cases steps with
        | zero =>
          simp only [Task.visit,ht]
          exact h
        | succ steps =>
          simp only [Task.visit,ht]
          exact .relay h steps
      | cons side rest =>
        simp only [Task.visit,ht]
        exact .relay (ih _ q) steps

end Task

/-- The task of a pair at the root, while it runs and when it has joined its answers. -/
inductive Paired (left : Task R W β) (right : Task R W γ) (f : β → γ → R → Outcome α) : Task R W α → Prop
  | running (failure : Option Failure) (steps : Nat) : Paired left right f (.pair left right f failure steps)
  | joined {a : β} {b : γ} (hl : left = .settled (.ok a)) (hr : right = .settled (.ok b)) (r : R) :
      Paired left right f (.settled (f a b r))

namespace Paired

variable {left : Task R W β} {right : Task R W γ} {f : β → γ → R → Outcome α} {task : Task R W α}

theorem beside (left : Task R W β) (right : Task R W γ) (f : β → γ → R → Outcome α) (path : Path)
    (q : Queue W) : Paired left right f (Task.beside left right f path q).1 := by
  obtain ⟨failure,h⟩ := Task.beside_pair left right f path q
  rw [h]
  exact .running failure 2

theorem answered (h : Paired left right f task) {x : α} (hx : task.outcome? = some (.ok x)) :
    ∃ a b, left = .settled (.ok a) ∧ right = .settled (.ok b) := by
  cases h with
  | running failure steps => rcases failure with _ | e <;> rcases steps with _ | steps <;> cases hx
  | joined hl hr r => exact ⟨_,_,hl,hr⟩

variable [View W R]

theorem visit_left (h : Paired left right f task) (path : Path) (q : Queue W) :
    Paired (left.visit [.left] path q).1 right f (task.visit [] (.left :: path) q).1 ∧
      ((task.visit [] (.left :: path) q).2 = (left.visit [.left] path q).2 ∨
        (task.visit [] (.left :: path) q).2 = (left.visit [.left] path q).2.postJob []) := by
  cases h with
  | running failure steps =>
    cases failure with
    | none => exact ⟨.beside _ right f [] _,Task.beside_queue ..⟩
    | some e => exact ⟨.running (some e) steps,.inl rfl⟩
  | joined hl hr r =>
    subst hl
    exact ⟨.joined rfl hr r,.inl rfl⟩

theorem visit_right (h : Paired left right f task) (path : Path) (q : Queue W) :
    Paired left (right.visit [.right] path q).1 f (task.visit [] (.right :: path) q).1 ∧
      ((task.visit [] (.right :: path) q).2 = (right.visit [.right] path q).2 ∨
        (task.visit [] (.right :: path) q).2 = (right.visit [.right] path q).2.postJob []) := by
  cases h with
  | running failure steps =>
    cases failure with
    | none => exact ⟨.beside left _ f [] _,Task.beside_queue ..⟩
    | some e => exact ⟨.running (some e) steps,.inl rfl⟩
  | joined hl hr r =>
    subst hr
    exact ⟨.joined hl rfl r,.inl rfl⟩

theorem visit_root (h : Paired left right f task) (q : Queue W) :
    Paired left right f (task.visit [] [] q).1 ∧
      ((task.visit [] [] q).2 = q ∨ (task.visit [] [] q).2 = q.postJob []) := by
  cases h with
  | running failure steps =>
    rcases Nat.lt_or_ge steps 2 with hlast | hmore
    · cases failure with
      | some e =>
        rw [Task.visit_pair_failed left right f e hlast]
        exact ⟨.running (some e) 0,.inl rfl⟩
      | none =>
        rw [Task.visit_pair_joined left right f hlast]
        split
        case h_1 a b hl hr =>
          exact ⟨.joined (Task.eq_settled_of_ok hl) (Task.eq_settled_of_ok hr) _,.inl rfl⟩
        case h_2 => exact ⟨.running none steps,.inl rfl⟩
    · obtain ⟨more,rfl⟩ := Nat.exists_eq_add_of_le' hmore
      exact ⟨.running failure (more + 1),.inr rfl⟩
  | joined hl hr r => exact ⟨.joined hl hr r,.inl rfl⟩

end Paired

end Effectful
