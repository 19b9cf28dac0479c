import Effectful.Program.Evaluation
/-!
# The loop and the direct reading

Performing the operations of a program one by one, each brought to the front by reduction, comes to the
same as reading the program from left to right.
-/
namespace Effectful.Program

universe u v

variable {R W : Type} {F : Type → Type u} {G : Type → Type v} {α β γ : Type}

section Evaluation

variable [View W R] (driver : String) (t : Translator F (Action W))

/-- Turning a bind to the right moves no action. -/
theorem eval_bind_bind (y : Program R F γ) (g : γ → R → Program R F β)
    (k : β → R → Program R F α) :
    eval driver t (bind (bind y g) k) = eval driver t (bind y fun c r => bind (g c r) k) :=
  Action.andThen_assoc _ _ _

theorem execute_eq_eval (p : Program R F α) (w : W) : execute driver t p w = eval driver t p w := by
  induction p using induct_next generalizing w with
  | done a => rw [execute_done]; rfl
  | effect op => rw [execute_effect]; rfl
  | malformed tag => rw [execute_malformed]; rfl
  | raise e => rw [execute_raise]; rfl
  | bind_done a k ih => rw [execute_bind_done,ih]; rfl
  | bind_effect op k ih => simp only [execute_bind_effect,ih]; rfl
  | bind_bind y g k ih => rw [execute_bind_bind,ih,eval_bind_bind]
  | bind_malformed tag k => rw [execute_bind_malformed]; rfl
  | bind_raise e k => rw [execute_bind_raise]; rfl

theorem eval_driver {p : Program R F α} (hp : p.WellFormed) (driver' : String) :
    eval driver t p = eval driver' t p := by
  induction p with
  | done | effect | raise => rfl
  | malformed => exact hp.elim
  | bind sub k ihs ihk =>
    unfold eval
    rw [ihs hp.1]
    congr 1
    funext b w
    rw [ihk b _ (hp.2 b _)]

end Evaluation

/-- Interpretation sees of a continuation only what the programs that it builds are interpreted as, in the
world that they were built in. -/
theorem interpret_bind_congr (driver : String) (t : Translator F G) (c : Context R G)
    (p : Program R F β) (k k' : β → R → Program R F α)
    (h : ∀ b r, interpret driver t c (k b r) r = interpret driver t c (k' b r) r) (r : R) :
    interpret driver t c (bind p k) r = interpret driver t c (bind p k') r := by
  induction p generalizing α r with
  | done b => rw [interpret_bind_done,interpret_bind_done,h]
  | effect op =>
    rw [interpret_bind_effect,interpret_bind_effect]
    simp only [h]
  | bind y g ihy ihg =>
    rw [interpret_bind_bind,interpret_bind_bind]
    exact ihy _ _ (fun a r => ihg a r k k' h r) r
  | malformed tag => rw [interpret_bind_malformed,interpret_bind_malformed]
  | raise e => rw [interpret_bind_raise,interpret_bind_raise]

theorem interpret_driver {p : Program R F α} (hp : p.WellFormed) (driver driver' : String) (t : Translator F G)
    (c : Context R G) (r : R) : interpret driver t c p r = interpret driver' t c p r := by
  induction p using induct_next generalizing r with
  | done a => rw [interpret_done,interpret_done]
  | effect op => rw [interpret_effect,interpret_effect]
  | malformed tag => exact hp.elim
  | raise e => rw [interpret_raise,interpret_raise]
  | bind_done a k ih =>
    rw [interpret_bind_done,interpret_bind_done]
    exact ih r (hp.2 a r) r
  | bind_effect op k ih =>
    have hrest : ∀ b r', interpret driver t c (k b r') r' = interpret driver' t c (k b r') r' :=
      fun b r' => ih b r' (hp.2 b r') r'
    rw [interpret_bind_effect,interpret_bind_effect]
    simp only [hrest]
  | bind_bind y g k ih =>
    rw [interpret_bind_bind,interpret_bind_bind]
    exact ih ⟨hp.1.1,fun b r => ⟨hp.1.2 b r,hp.2⟩⟩ r
  | bind_malformed tag k => exact hp.1.elim
  | bind_raise e k => rw [interpret_bind_raise,interpret_bind_raise]

/-- Every operation of the program is one that `P` holds of, whatever the answers are. -/
def Uses (P : {α : Type} → F α → Prop) {α : Type} : Program R F α → Prop
  | done _ | malformed _ | raise _ => True
  | effect op => P op
  | bind sub k => Uses P sub ∧ ∀ b r, Uses P (k b r)

theorem Uses.mono {P Q : {α : Type} → F α → Prop} {p : Program R F α} (h : p.Uses P)
    (hop : ∀ {α : Type} (op : F α), P op → Q op) : p.Uses Q := by
  induction p with
  | done | malformed | raise => trivial
  | effect op => exact hop op h
  | bind sub k ihs ihk => exact ⟨ihs h.1,fun b r => ihk b r (h.2 b r)⟩

theorem uses_of_forall {P : {α : Type} → F α → Prop} (h : ∀ {α : Type} (op : F α), P op) (p : Program R F α) :
    p.Uses P := by
  induction p with
  | done | malformed | raise => trivial
  | effect op => exact h op
  | bind sub k ihs ihk => exact ⟨ihs,ihk⟩

/-- What holds of lifted answers and of the operations of a program, and is kept by chaining, holds of whatever the
program is interpreted as. -/
theorem Uses.interpret_holds (driver : String) {t : Translator F G} (c : Context R G)
    (P : {α : Type} → G α → Prop) (hlift : ∀ {α : Type} (a : α), P (c.lift a))
    (hsequence : ∀ {α β : Type} {m : G β} {f : β → R → Outcome (G α)}, P m →
      (∀ b r {m' : G α}, f b r = .ok m' → P m') → P (c.sequence m f))
    {p : Program R F α} (hp : p.Uses fun op => ∀ m, t.apply op = .ok m → P m)
    (r : R) {m : G α} (h : p.interpret driver t c r = .ok m) : P m := by
  induction p using induct_next generalizing r m with
  | done a =>
    rw [interpret_done] at h
    cases h
    exact hlift a
  | effect op =>
    rw [interpret_effect] at h
    exact hp m h
  | malformed tag => rw [interpret_malformed] at h; cases h
  | raise e => rw [interpret_raise] at h; cases h
  | bind_done a k ih =>
    rw [interpret_bind_done] at h
    exact ih r (hp.2 a r) r h
  | bind_effect op k ih =>
    rw [interpret_bind_effect] at h
    cases hm : t.apply op with
    | error e => rw [hm] at h; cases h
    | ok first =>
      rw [hm] at h
      cases h
      exact hsequence (hp.1 first hm) fun b r' _ hnext => ih b r' (hp.2 b r') r' hnext
  | bind_bind y g k ih =>
    rw [interpret_bind_bind] at h
    exact ih ⟨hp.1.1,fun b r => ⟨hp.1.2 b r,hp.2⟩⟩ r h
  | bind_malformed tag k => rw [interpret_bind_malformed] at h; cases h
  | bind_raise e k => rw [interpret_bind_raise] at h; cases h

theorem interpret_holds (driver : String) (t : Translator F G) (c : Context R G)
    (P : {α : Type} → G α → Prop) (hlift : ∀ {α : Type} (a : α), P (c.lift a))
    (hsequence : ∀ {α β : Type} {m : G β} {f : β → R → Outcome (G α)}, P m →
      (∀ b r {m' : G α}, f b r = .ok m' → P m') → P (c.sequence m f))
    (hop : ∀ {α : Type} (op : F α) {m : G α}, t.apply op = .ok m → P m)
    (p : Program R F α) (r : R) {m : G α} (h : p.interpret driver t c r = .ok m) : P m :=
  Uses.interpret_holds driver c P hlift hsequence (uses_of_forall (fun op _ => hop op) p) r h

end Effectful.Program
