import Effectful.Proofs.Program.Operations
/-!
# What a run depends on

A program learns of its world by the answers of its operations, and by nothing else. So two runs of it, in worlds that
have nothing in common, are one run as long as the operations of the one get the same answers in the other.
-/
namespace Effectful

universe u

variable {W V : Type} {F : Type → Type u}

namespace Translator

variable (t : Translator F (Action W)) (t' : Translator F (Action V))

def after (ops : List (Σ β : Type, F β)) (w : W) : W := ops.foldl (fun w op => (t.perform op.2 w).2) w

/-- The operations, performed one after another, get the same answers in two worlds. -/
def AnswersAlike : List (Σ β : Type, F β) → W → V → Prop
  | [], _, _ => True
  | op :: ops, w, v =>
    (t.perform op.2 w).1 = (t'.perform op.2 v).1 ∧ AnswersAlike ops (t.perform op.2 w).2 (t'.perform op.2 v).2

def RefusesAlike : Prop := ∀ {β : Type} (op : F β) (e : Failure), t.apply op = .error e ↔ t'.apply op = .error e

variable {t t'}

theorem Performs.eq_after {ops : List (Σ β : Type, F β)} {w v : W} {e : Option Failure} (h : t.Performs ops w e v) :
    v = t.after ops w := by
  induction h with
  | nothing => rfl
  | answered hop _ ih =>
    rw [ih,after,after,List.foldl_cons,hop]
  | failed hop => exact (congrArg Prod.snd hop).symm

theorem answersAlike_append {ops ops' : List (Σ β : Type, F β)} {w : W} {v : V} :
    t.AnswersAlike t' (ops ++ ops') w v ↔
      t.AnswersAlike t' ops w v ∧ t.AnswersAlike t' ops' (t.after ops w) (t'.after ops v) := by
  induction ops generalizing w v with
  | nil =>
    simp only [List.nil_append,AnswersAlike,true_and]
    rfl
  | cons op ops ih =>
    rw [List.cons_append,AnswersAlike,AnswersAlike,ih,and_assoc]
    rfl

theorem AnswersAlike.symm {ops : List (Σ β : Type, F β)} {w : W} {v : V} (h : t.AnswersAlike t' ops w v) :
    t'.AnswersAlike t ops v w := by
  induction ops generalizing w v with
  | nil => trivial
  | cons op ops ih => exact ⟨h.1.symm,ih h.2⟩

end Translator

namespace Program

variable [View W Unit] {driver : String} {t : Translator F (Action W)} {t' : Translator F (Action V)}

theorem eval_world {α : Type} (p : Program Unit F α) (w : W) :
    (p.eval driver t w).2 = t.after (p.operations driver t w) w := by
  obtain ⟨e,hperforms,-⟩ := p.performs_operations driver t w
  exact hperforms.eq_after

variable [View V Unit]

/-- Where the operations of a run get the same answers, the program performs the same operations and comes to the
same outcome. -/
theorem run_of_answersAlike (hrefuse : t.RefusesAlike t') {α : Type} (p : Program Unit F α) {w : W} {v : V}
    (h : t.AnswersAlike t' (p.operations driver t w) w v) :
    p.operations driver t' v = p.operations driver t w ∧ (p.eval driver t' v).1 = (p.eval driver t w).1 := by
  induction p generalizing w v with
  | done | malformed | raise => exact ⟨rfl,rfl⟩
  | effect op =>
    simp only [operations,eval,Translator.perform] at h ⊢
    cases hop : t.apply op with
    | error e =>
      rw [(hrefuse op e).mp hop]
      exact ⟨rfl,rfl⟩
    | ok action =>
      cases hop' : t'.apply op with
      | error e => cases hop.symm.trans ((hrefuse op e).mpr hop')
      | ok action' =>
        simp only [hop,Translator.AnswersAlike,Translator.perform,hop'] at h
        exact ⟨rfl,h.1.symm⟩
  | bind sub k ihs ihk =>
    simp only [operations,eval,Action.andThen] at h ⊢
    have hsub := (Translator.answersAlike_append.mp h).1
    have hrest := (Translator.answersAlike_append.mp h).2
    obtain ⟨hops,hends⟩ := ihs hsub
    rw [← hops,← eval_world,hops,← eval_world] at hrest
    rw [hops]
    rcases hx : eval driver t sub w with ⟨b | e,w'⟩ <;> rcases hy : eval driver t' sub v with ⟨b' | e',v'⟩ <;>
      rw [hx,hy] at hends <;> cases hends
    · rw [hx,hy] at hrest
      obtain ⟨hops',hends'⟩ := ihk b () hrest
      exact ⟨congrArg (operations driver t sub w ++ ·) hops',hends'⟩
    · exact ⟨rfl,rfl⟩

end Program

end Effectful
