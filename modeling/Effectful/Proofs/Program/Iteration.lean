import Effectful.Program.Loop
import Effectful.Proofs.Program.Unfolding
/-!
# The loop that tests its condition after each round

An iteration runs the program and then the condition on its answer. The loop goes on from the state that an iteration
leaves as long as the condition answers true, so what it comes to is told by its iterations, also when it never ends.
-/
namespace Effectful

universe u

namespace Program

variable {R : Type} {F : Type → Type u} {α : Type}

theorem Approximates.doWhile {p p' : Program R F α} {c c' : α → R → Program R F Bool} (hp : p.Approximates p')
    (hc : ∀ a r, (c a r).Approximates (c' a r)) {m n : Nat} (h : m ≤ n) :
    (doWhile m p c).Approximates (doWhile n p' c') := by
  induction m generalizing n with
  | zero => exact .cut _
  | succ m ih =>
    cases n with
    | zero => omega
    | succ n =>
      apply Approximates.bind hp
      intro a r
      apply Approximates.bind (hc a r)
      intro again _
      cases again with
      | false => exact .refl _
      | true => exact ih (Nat.le_of_succ_le_succ h)

end Program

namespace Unfolding

variable {F : Type → Type u} {α : Type} (p : Unfolding F α) (c : α → Unfolding F Bool)

/-- The loop that repeats a program for as long as the condition on its answer answers true. -/
def doWhile : Unfolding F Unit where
  cut n := Program.doWhile n (p.cut n) fun a _ => (c a).cut n
  grows n := .doWhile (p.grows n) (fun a _ => (c a).grows n) n.le_succ

/-- The same loop, given up after `m` rounds. -/
def roundsOf (m : Nat) : Unfolding F Unit where
  cut n := Program.doWhile m (p.cut n) fun a _ => (c a).cut n
  grows n := .doWhile (p.grows n) (fun a _ => (c a).grows n) le_rfl

end Unfolding

namespace Interpreter

variable {F : Type → Type u} {W S α : Type} [View W Unit] (M : Interpreter F W S) (p : Unfolding F α)
  (c : α → Unfolding F Bool)

/-- What one iteration from a state comes to: the program fails, or it answers and the condition on its answer ends from
the state that it has left. -/
inductive Iteration (s : S) : Except (Failure × W) (Bool × S) → Prop
  | failed {e : Failure × W} : M.Ends p s (.error e) → Iteration s (.error e)
  | asked {a : α} {u : S} {y : Except (Failure × W) (Bool × S)} :
      M.Ends p s (.ok (a,u)) → M.Ends (c a) u y → Iteration s y

/-- So many iterations lead from one state to another, the condition of each answering true. -/
inductive Iterations : Nat → S → S → Prop
  | none (s : S) : Iterations 0 s s
  | next {m : Nat} {s u v : S} : M.Iteration p c s (.ok (true,u)) → Iterations m u v → Iterations (m + 1) s v

/-- The iteration from a state is the last one, and the loop comes to `x` by it. -/
def Stops (s : S) (x : Except (Failure × W) (Unit × S)) : Prop :=
  (∃ e, M.Iteration p c s (.error e) ∧ .error e = x) ∨ ∃ v, M.Iteration p c s (.ok (false,v)) ∧ .ok ((),v) = x

/-- The loop ends from a state when it is given so many rounds, and not with fewer. -/
def Takes (s : S) (m : Nat) : Prop := ∀ k, (∃ x, M.Ends (p.roundsOf c k) s x) ↔ m ≤ k

variable {M p c} {s u v : S} {m n : Nat} {x y : Except (Failure × W) (Unit × S)}

theorem iteration_iff {z : Except (Failure × W) (Bool × S)} : M.Iteration p c s z ↔ M.Ends (p.bind c) s z := by
  rw [ends_bind_iff]
  constructor
  · intro h
    cases h with
    | failed hp => exact .inl ⟨_,hp,rfl⟩
    | asked hp hc => exact .inr ⟨_,_,hp,hc⟩
  · rintro (⟨e,hp,rfl⟩ | ⟨a,u,hp,hc⟩)
    · exact .failed hp
    · exact .asked hp hc

theorem Iteration.unique {z z' : Except (Failure × W) (Bool × S)} (h : M.Iteration p c s z)
    (h' : M.Iteration p c s z') : z = z' :=
  (iteration_iff.mp h).unique (iteration_iff.mp h')

theorem not_ends_roundsOf_zero : ¬ M.Ends (p.roundsOf c 0) s x := by
  rw [ends_iff]
  rintro ⟨hx,n,rfl⟩
  exact hx ⟨_,M.run_raise .outOfFuel s⟩

theorem ends_roundsOf_succ : M.Ends (p.roundsOf c (m + 1)) s x ↔
    M.Stops p c s x ∨ ∃ u, M.Iteration p c s (.ok (true,u)) ∧ M.Ends (p.roundsOf c m) u x := by
  have hends : M.Ends (p.roundsOf c (m + 1)) s x ↔
      M.Ends ((p.bind c).bind fun again => if again then p.roundsOf c m else .ofProgram (.done ())) s x := by
    have hrun : ∀ n, M.run ((p.roundsOf c (m + 1)).cut n) =
        M.run (((p.bind c).bind fun again => if again then p.roundsOf c m else .ofProgram (.done ())).cut n) := by
      intro n
      simp only [Unfolding.roundsOf,Unfolding.bind,Program.doWhile,run_bind,bind_assoc]
      refine bind_congr fun a => bind_congr fun again => ?_
      cases again <;> rfl
    simp only [ends_iff,hrun]
  have hdone : ∀ {u : S}, M.Ends (.ofProgram (.done ())) u x ↔ .ok ((),u) = x := by
    intro u
    rw [ends_ofProgram,run_done]
    constructor
    · exact And.right
    · rintro rfl
      exact ⟨Run.not_cutOff_ok _,rfl⟩
  rw [hends,ends_bind_iff]
  simp only [← iteration_iff]
  constructor
  · rintro (hfailed | ⟨again,u,hu,hrest⟩)
    · exact .inl (.inl hfailed)
    · cases again with
      | false => exact .inl (.inr ⟨u,hu,hdone.mp hrest⟩)
      | true => exact .inr ⟨u,hu,hrest⟩
  · rintro ((hfailed | ⟨u,hu,hx⟩) | ⟨u,hu,hrest⟩)
    · exact .inl hfailed
    · exact .inr ⟨false,u,hu,hdone.mpr hx⟩
    · exact .inr ⟨true,u,hu,hrest⟩

/-- The rounds that are needed are counted by the iterations before the last one. -/
theorem ends_roundsOf_iff :
    M.Ends (p.roundsOf c m) s x ↔ ∃ i < m, ∃ u, M.Iterations p c i s u ∧ M.Stops p c u x := by
  induction m generalizing s with
  | zero => simp [not_ends_roundsOf_zero]
  | succ m ih =>
    rw [ends_roundsOf_succ]
    constructor
    · rintro (hstops | ⟨u,hu,hrest⟩)
      · exact ⟨0,by omega,s,.none s,hstops⟩
      · obtain ⟨i,hi,v,hiterations,hstops⟩ := ih.mp hrest
        exact ⟨i + 1,by omega,v,.next hu hiterations,hstops⟩
    · rintro ⟨i,hi,v,hiterations,hstops⟩
      cases hiterations with
      | none => exact .inl hstops
      | next hu hrest => exact .inr ⟨_,hu,ih.mpr ⟨_,by omega,v,hrest,hstops⟩⟩

theorem ends_doWhile_iff_roundsOf : M.Ends (p.doWhile c) s x ↔ ∃ m, M.Ends (p.roundsOf c m) s x := by
  constructor
  · intro h
    obtain ⟨hx,n,hn⟩ := M.ends_iff.mp h
    exact ⟨n,M.ends_iff.mpr ⟨hx,n,hn⟩⟩
  · rintro ⟨m,hx,hruns⟩
    obtain ⟨n,hn,hmn⟩ := (hruns.and (Filter.eventually_ge_atTop m)).exists
    refine M.ends_iff.mpr ⟨hx,n,?_⟩
    have hmore := Program.Approximates.doWhile (.refl (p.cut n)) (fun a (_ : Unit) => .refl ((c a).cut n)) hmn
    rw [← hn]
    apply M.run_of_approximates hmore
    rwa [← hn] at hx

/-- What the loop comes to is what its last iteration makes of it, after as many as have answered true. -/
theorem ends_doWhile_iff : M.Ends (p.doWhile c) s x ↔ ∃ m u, M.Iterations p c m s u ∧ M.Stops p c u x := by
  simp only [ends_doWhile_iff_roundsOf,ends_roundsOf_iff]
  constructor
  · rintro ⟨m,i,-,u,hu⟩
    exact ⟨i,u,hu⟩
  · rintro ⟨m,u,hu⟩
    exact ⟨m + 1,m,by omega,u,hu⟩

theorem Stops.not_again (h : M.Stops p c s x) : ¬ M.Iteration p c s (.ok (true,u)) := by
  intro hagain
  obtain ⟨e,he,-⟩ | ⟨v,hv,-⟩ := h
  · cases he.unique hagain
  · cases hv.unique hagain

theorem Iterations.unique (h : M.Iterations p c m s u) (hx : M.Stops p c u x) (h' : M.Iterations p c n s v)
    (hy : M.Stops p c v y) : m = n ∧ u = v := by
  induction h generalizing n with
  | none s =>
    cases h' with
    | none => exact ⟨rfl,rfl⟩
    | next hagain => exact absurd hagain hx.not_again
  | next hagain _ ih =>
    cases h' with
    | none => exact absurd hagain hy.not_again
    | next hagain' hrest' =>
      cases hagain.unique hagain'
      obtain ⟨rfl,rfl⟩ := ih hx hrest'
      exact ⟨rfl,rfl⟩

theorem Iterations.takes (h : M.Iterations p c m s u) (hx : M.Stops p c u x) : M.Takes p c s (m + 1) := by
  intro k
  simp only [ends_roundsOf_iff]
  constructor
  · rintro ⟨y,i,hi,v,hv,hy⟩
    obtain ⟨rfl,rfl⟩ := h.unique hx hv hy
    omega
  · intro hk
    exact ⟨x,m,by omega,u,h,hx⟩

theorem ends_doWhile_of_again (h : M.Iteration p c s (.ok (true,u))) :
    M.Ends (p.doWhile c) s x ↔ M.Ends (p.doWhile c) u x := by
  rw [ends_doWhile_iff,ends_doWhile_iff]
  constructor
  · rintro ⟨m,v,hiterations,hstops⟩
    cases hiterations with
    | none => exact absurd h hstops.not_again
    | next hagain hrest =>
      cases hagain.unique h
      exact ⟨_,v,hrest,hstops⟩
  · rintro ⟨m,v,hiterations,hstops⟩
    exact ⟨m + 1,v,.next h hiterations,hstops⟩

theorem Iterations.ends_doWhile_iff (h : M.Iterations p c m s u) :
    M.Ends (p.doWhile c) s x ↔ M.Ends (p.doWhile c) u x := by
  induction h with
  | none => rfl
  | next hagain _ ih => rw [ends_doWhile_of_again hagain,ih]

theorem Iterations.eq_state {state : Nat → S} (h : M.Iterations p c m s u)
    (hstate : ∀ i, M.Iteration p c (state i) (.ok (true,state (i + 1)))) (hs : state 0 = s) : state m = u := by
  induction h generalizing state with
  | none => exact hs
  | next hagain _ ih =>
    subst hs
    cases hagain.unique (hstate 0)
    exact ih (fun i => hstate (i + 1)) rfl

variable (M p c) in
/-- The loop does not end from a state, and it does not come to an iteration that does not end. -/
def Lasts (s : S) : Prop :=
  (¬ ∃ x, M.Ends (p.doWhile c) s x) ∧ ¬ ∃ m u, M.Iterations p c m s u ∧ ¬ ∃ z, M.Iteration p c u z

theorem Lasts.next (h : M.Lasts p c s) : ∃ u, M.Lasts p c u ∧ M.Iteration p c s (.ok (true,u)) := by
  obtain ⟨hendless,hnever⟩ := h
  have hiteration : ∃ z, M.Iteration p c s z := by
    by_contra hnone
    exact hnever ⟨0,s,.none s,hnone⟩
  have hlast : ∀ x, ¬ M.Stops p c s x := by
    intro x hx
    exact hendless ⟨x,ends_doWhile_iff.mpr ⟨0,s,.none s,hx⟩⟩
  obtain ⟨e | ⟨again,u⟩,hz⟩ := hiteration
  · exact absurd (.inl ⟨e,hz,rfl⟩) (hlast _)
  · cases again with
    | false => exact absurd (.inr ⟨u,hz,rfl⟩) (hlast _)
    | true =>
      refine ⟨u,⟨?_,?_⟩,hz⟩
      · simpa only [← ends_doWhile_of_again hz] using hendless
      · rintro ⟨m,v,hv,hnone⟩
        exact hnever ⟨m + 1,v,.next hz hv,hnone⟩

theorem Lasts.exists_states (h : M.Lasts p c s) :
    ∃ state : Nat → S, state 0 = s ∧ ∀ i, M.Iteration p c (state i) (.ok (true,state (i + 1))) := by
  have hstep : ∀ u : {u // M.Lasts p c u}, ∃ v : {u // M.Lasts p c u}, M.Iteration p c u.1 (.ok (true,v.1)) := by
    rintro ⟨u,hu⟩
    obtain ⟨v,hv,hagain⟩ := hu.next
    exact ⟨⟨v,hv⟩,hagain⟩
  choose next hnext using hstep
  refine ⟨fun i => (next^[i] ⟨s,h⟩).1,rfl,?_⟩
  intro i
  dsimp only
  rw [Function.iterate_succ_apply']
  exact hnext _

/-- The loop does not end if its iterations go on for ever, or come to one that does not end. -/
theorem not_ends_doWhile_iff : (¬ ∃ x, M.Ends (p.doWhile c) s x) ↔
    (∃ state : Nat → S, state 0 = s ∧ ∀ i, M.Iteration p c (state i) (.ok (true,state (i + 1)))) ∨
      ∃ m u, M.Iterations p c m s u ∧ ¬ ∃ z, M.Iteration p c u z := by
  constructor
  · intro hendless
    by_cases hstuck : ∃ m u, M.Iterations p c m s u ∧ ¬ ∃ z, M.Iteration p c u z
    · exact .inr hstuck
    · exact .inl (Lasts.exists_states ⟨hendless,hstuck⟩)
  · rintro (⟨state,hs,hstate⟩ | ⟨m,u,hiterations,hnone⟩) ⟨x,hx⟩
    · obtain ⟨m,u,hiterations,hstops⟩ := ends_doWhile_iff.mp hx
      obtain rfl := hiterations.eq_state hstate hs
      exact hstops.not_again (hstate m)
    · obtain ⟨n,v,hrest,hstops⟩ := ends_doWhile_iff.mp (hiterations.ends_doWhile_iff.mp hx)
      cases hrest with
      | none =>
        obtain ⟨e,he,-⟩ | ⟨v,hv,-⟩ := hstops
        · exact hnone ⟨_,he⟩
        · exact hnone ⟨_,hv⟩
      | next hagain _ => exact hnone ⟨_,hagain⟩

end Interpreter

namespace Unfolding

variable {F : Type → Type u} {W S α : Type} [View W Unit]

/-- The loop follows its iterations, under every interpreter, each of them the program and then the condition on its
answer. It answers, after so many rounds and no fewer, if all conditions but the last answer true and the last one
false; it fails if an iteration after some whose conditions answer true fails, with the failure of its program or of
its condition and in the world that this has left; and it does not end if its iterations go on for ever, or if one of
them does not end. -/
theorem doWhile_follows_iterations (M : Interpreter F W S) (p : Unfolding F α) (c : α → Unfolding F Bool) (s : S) :
    (∀ m v, M.Ends (p.doWhile c) s (.ok ((),v)) ∧ M.Takes p c s (m + 1) ↔
      ∃ u, M.Iterations p c m s u ∧ M.Iteration p c u (.ok (false,v))) ∧
    (∀ e, M.Ends (p.doWhile c) s (.error e) ↔
      ∃ m u, M.Iterations p c m s u ∧ M.Iteration p c u (.error e)) ∧
    ((¬ ∃ x, M.Ends (p.doWhile c) s x) ↔
      (∃ state : Nat → S, state 0 = s ∧ ∀ i, M.Iteration p c (state i) (.ok (true,state (i + 1)))) ∨
        ∃ m u, M.Iterations p c m s u ∧ ¬ ∃ z, M.Iteration p c u z) ∧
    ∀ x, M.Ends (p.doWhile c) s x → ∃ m, M.Takes p c s (m + 1) := by
  have hanswers : ∀ {u v}, M.Stops p c u (.ok ((),v)) ↔ M.Iteration p c u (.ok (false,v)) := by
    intro u v
    simp [Interpreter.Stops]
  have hfails : ∀ {u e}, M.Stops p c u (.error e) ↔ M.Iteration p c u (.error e) := by
    intro u e
    simp [Interpreter.Stops]
  refine ⟨?_,?_,Interpreter.not_ends_doWhile_iff,?_⟩
  · intro m v
    constructor
    · rintro ⟨hends,htakes⟩
      obtain ⟨n,u,hiterations,hstops⟩ := Interpreter.ends_doWhile_iff.mp hends
      have hrounds := hiterations.takes hstops
      obtain rfl : n = m := by
        have hle := (hrounds (m + 1)).mp ((htakes (m + 1)).mpr le_rfl)
        have hge := (htakes (n + 1)).mp ((hrounds (n + 1)).mpr le_rfl)
        omega
      exact ⟨u,hiterations,hanswers.mp hstops⟩
    · rintro ⟨u,hiterations,hlast⟩
      have hstops := hanswers.mpr hlast
      exact ⟨Interpreter.ends_doWhile_iff.mpr ⟨m,u,hiterations,hstops⟩,hiterations.takes hstops⟩
  · intro e
    simp only [Interpreter.ends_doWhile_iff,hfails]
  · intro x hx
    obtain ⟨m,u,hiterations,hstops⟩ := Interpreter.ends_doWhile_iff.mp hx
    exact ⟨m,hiterations.takes hstops⟩

end Unfolding

end Effectful
