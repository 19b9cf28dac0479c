import Effectful.Proofs.Ending
import Effectful.Proofs.Program.Interpreter
/-!
# Programs that need not end

Programs are finite trees, so one that need not end is given by its cut-offs, each of which goes on where the one before
it gives up. Such an unfolding ends from a state if one of its cut-offs does, and the further ones then end alike.
-/
namespace Effectful

universe u

open Filter

/-- The second program goes on where the first is cut off, and is the first one otherwise. -/
inductive Program.Approximates {R : Type} {F : Type → Type u} : {α : Type} → Program R F α → Program R F α → Prop
  | refl {α : Type} (p : Program R F α) : Approximates p p
  | cut {α : Type} (p : Program R F α) : Approximates (.raise .outOfFuel) p
  | bind {α β : Type} {sub sub' : Program R F β} {k k' : β → R → Program R F α} :
      Approximates sub sub' → (∀ b r, Approximates (k b r) (k' b r)) → Approximates (.bind sub k) (.bind sub' k')

/-- A program with pure continuations that need not end, by its cut-offs. -/
structure Unfolding (F : Type → Type u) (α : Type) where
  cut : Nat → Program Unit F α
  grows : ∀ n, (cut n).Approximates (cut (n + 1))

namespace Unfolding

variable {F : Type → Type u} {α β : Type}

def ofProgram (p : Program Unit F α) : Unfolding F α := ⟨fun _ => p,fun _ => .refl p⟩

protected def bind (p : Unfolding F β) (k : β → Unfolding F α) : Unfolding F α :=
  ⟨fun n => .bind (p.cut n) fun b _ => (k b).cut n,fun n => .bind (p.grows n) fun b _ => (k b).grows n⟩

end Unfolding

def Run.CutOff {S W α : Type} (x : Except (Failure × W) (α × S)) : Prop := ∃ w, x = .error (.outOfFuel,w)

@[simp] theorem Run.not_cutOff_ok {S W α : Type} (y : α × S) : ¬ CutOff (.ok y : Except (Failure × W) (α × S)) := by
  simp [CutOff]

namespace Interpreter

open Program

variable {F : Type → Type u} {W S α β : Type} [View W Unit] (M : Interpreter F W S)

theorem run_of_approximates {p q : Program Unit F α} (h : p.Approximates q) {s : S}
    (hs : ¬ Run.CutOff (M.run p s)) : M.run q s = M.run p s := by
  induction h generalizing s with
  | refl p => rfl
  | cut p => exact absurd ⟨_,M.run_raise .outOfFuel s⟩ hs
  | @bind _ _ sub sub' _ _ _ _ ihs ihk =>
    rw [run_bind] at hs
    rw [run_bind,run_bind]
    cases hx : M.run sub s with
    | error x =>
      rw [Run.bind_of_error hx] at hs ⊢
      apply Run.bind_of_error
      rw [← hx]
      apply ihs
      simpa [hx,Run.CutOff] using hs
    | ok y =>
      rw [Run.bind_of_ok hx] at hs ⊢
      have hsub : M.run sub' s = .ok y := by
        rw [← hx]
        apply ihs
        simp [hx]
      rw [Run.bind_of_ok hsub]
      exact ihk y.1 () hs

variable {p : Unfolding F α} {s : S}

theorem run_cut_of_le {m n : Nat} (h : m ≤ n) (hm : ¬ Run.CutOff (M.run (p.cut m) s)) :
    M.run (p.cut n) s = M.run (p.cut m) s := by
  induction n, h using Nat.le_induction with
  | base => rfl
  | succ n _ ih =>
    rw [← ih]
    apply M.run_of_approximates (p.grows n)
    rwa [ih]

/-- The run of an unfolding from a state ends, and in this way: all cut-offs from some one on come to it. -/
def Ends (p : Unfolding F α) (s : S) (x : Except (Failure × W) (α × S)) : Prop :=
  ¬ Run.CutOff x ∧ ∀ᶠ n in atTop, M.run (p.cut n) s = x

theorem ends_iff {x : Except (Failure × W) (α × S)} :
    M.Ends p s x ↔ ¬ Run.CutOff x ∧ ∃ n, M.run (p.cut n) s = x := by
  constructor
  · rintro ⟨hx,hruns⟩
    exact ⟨hx,hruns.exists⟩
  · rintro ⟨hx,m,rfl⟩
    refine ⟨hx,?_⟩
    filter_upwards [eventually_ge_atTop m] with n hn
    exact M.run_cut_of_le hn hx

variable {M} in
theorem Ends.unique {x y : Except (Failure × W) (α × S)} (h : M.Ends p s x) (h' : M.Ends p s y) : x = y := by
  obtain ⟨n,hx,hy⟩ := (h.2.and h'.2).exists
  exact hx.symm.trans hy

theorem ends_ofProgram {q : Program Unit F α} {x : Except (Failure × W) (α × S)} :
    M.Ends (.ofProgram q) s x ↔ ¬ Run.CutOff x ∧ M.run q s = x := by
  simp [ends_iff,Unfolding.ofProgram]

theorem ends_bind_iff {p : Unfolding F β} {k : β → Unfolding F α} {x : Except (Failure × W) (α × S)} :
    M.Ends (p.bind k) s x ↔
      (∃ e, M.Ends p s (.error e) ∧ .error e = x) ∨ ∃ b u, M.Ends p s (.ok (b,u)) ∧ M.Ends (k b) u x := by
  have hrun : ∀ n, M.run ((p.bind k).cut n) = M.run (p.cut n) >>= fun b => M.run ((k b).cut n) :=
    fun n => M.run_bind _ _
  constructor
  · intro h
    obtain ⟨hx,n,hn⟩ := M.ends_iff.mp h
    rw [hrun] at hn
    cases hp : M.run (p.cut n) s with
    | error e =>
      obtain rfl : .error e = x := by rw [← hn,Run.bind_of_error hp]
      refine .inl ⟨e,M.ends_iff.mpr ⟨?_,n,hp⟩,rfl⟩
      simpa [Run.CutOff] using hx
    | ok y =>
      rw [Run.bind_of_ok hp] at hn
      exact .inr ⟨y.1,y.2,M.ends_iff.mpr ⟨by simp,n,hp⟩,M.ends_iff.mpr ⟨hx,n,hn⟩⟩
  · rintro (⟨e,⟨he,hp⟩,rfl⟩ | ⟨b,u,⟨-,hp⟩,⟨hx,hk⟩⟩)
    · refine ⟨by simpa [Run.CutOff] using he,?_⟩
      filter_upwards [hp] with n hn
      rw [hrun,Run.bind_of_error hn]
    · refine ⟨hx,?_⟩
      filter_upwards [hp,hk] with n hn hkn
      rw [hrun,Run.bind_of_ok hn]
      exact hkn

end Interpreter

end Effectful
