import Effectful.Proofs.Target.Runner
/-!
# Interpretation respects binds

Interpretation never runs the left part of a bind on its own: it reduces the whole program first. In a target
that obeys the monad laws as far as can be observed, interpreting a bind is nevertheless chaining the
interpretations of its parts. Actions, transitions and replays are such targets.
-/
namespace Effectful

universe u v

namespace Context

variable {R : Type} {G : Type → Type v}

/-- What is taken as observing things of a target that may have failed to be built, seen from a world:
an equivalence that does not tell chains apart whose continuations it does not tell apart. -/
structure Observation (c : Context R G) where
  same : R → {α : Type} → Outcome (G α) → Outcome (G α) → Prop
  equivalence : ∀ (r : R) {α : Type}, Equivalence (same r (α := α))
  sequence_congr : ∀ {α β : Type} (m : G α) (f g : α → R → Outcome (G β)),
    (∀ a r, same r (f a r) (g a r)) → ∀ r, same r (.ok (c.sequence m f)) (.ok (c.sequence m g))

/-- The three monad laws of a target's lifting and chaining, up to an observation. -/
structure Lawful (c : Context R G) (o : c.Observation) : Prop where
  left_identity : ∀ {α β : Type} (a : α) (f : α → R → Outcome (G β)) (r : R),
    o.same r (.ok (c.sequence (c.lift a) f)) (f a r)
  right_identity : ∀ {α : Type} (m : G α) (r : R),
    o.same r (.ok (c.sequence m fun a _ => .ok (c.lift a))) (.ok m)
  associativity : ∀ {α β γ : Type} (m : G α) (f : α → R → Outcome (G β))
    (g : β → R → Outcome (G γ)) (r : R),
    o.same r (.ok (c.sequence (c.sequence m f) g))
      (.ok (c.sequence m fun a r' => (f a r').map fun n => c.sequence n g))

namespace Runner

variable {W I : Type} {O : Type → Type} [View W R] {c : Context R G}

/-- Things that run alike, from every input and in every world that looks so. -/
def observation (P : c.Runner W I O) : c.Observation where
  same r _ x y := ∀ (i : I) (w : W), View.look w = r → runBuilt P.run x i w = runBuilt P.run y i w
  equivalence _ _ := {
    refl := fun _ _ _ _ => rfl
    symm := fun h i w hw => (h i w hw).symm
    trans := fun h h' i w hw => (h i w hw).trans (h' i w hw) }
  sequence_congr m f g h r i w _ := by
    simp only [runBuilt,P.run_sequence]
    unfold Action.andThen
    rcases P.run m i w with ⟨o | e,w'⟩
    · exact h _ _ _ _ rfl
    · rfl

theorem lawful (P : c.Runner W I O) : c.Lawful P.observation where
  left_identity a f r i w hw := by
    simp only [runBuilt,P.run_sequence,P.run_lift,Action.answer_andThen,P.next_pack,hw]
  right_identity m r i w _ := by
    simp only [runBuilt,P.run_sequence,P.run_lift,P.pack_next]
    unfold Action.andThen
    rcases P.run m i w with ⟨o | e,w'⟩ <;> rfl
  associativity m f g r i w _ := by
    simp only [runBuilt,P.run_sequence]
    rw [Action.andThen_assoc]
    congr 1
    funext o w
    cases hf : f (P.next o i).1 (View.look w) with
    | ok n => simp only [Action.andThen,hf,runBuilt,Outcome.map_ok,P.run_sequence,P.next_next]
    | error e =>
      simp only [Action.andThen,hf,Outcome.map_error]
      rfl

end Runner

end Context

namespace Program

variable {R : Type} {F : Type → Type u} {G : Type → Type v} {α β : Type}

/-- The interpretation of a bind is the chain of the interpretations of its parts. The left part may be
nested in any way, since reduction turns its binds before the target sees them. -/
theorem interpret_bind (driver : String) (t : Translator F G) {c : Context R G} {o : c.Observation}
    (hc : c.Lawful o) (p : Program R F β) (k : β → R → Program R F α) (r : R) :
    o.same r (interpret driver t c (bind p k) r) ((interpret driver t c p r).map fun m =>
      c.sequence m fun b r' => interpret driver t c (k b r') r') := by
  induction p using induct_next generalizing r with
  | done b =>
    rw [interpret_bind_done,interpret_done,Outcome.map_ok]
    exact (o.equivalence r).symm (hc.left_identity b _ r)
  | effect op =>
    rw [interpret_bind_effect,interpret_effect]
    exact (o.equivalence r).refl _
  | malformed tag =>
    rw [interpret_bind_malformed,interpret_malformed]
    exact (o.equivalence r).refl _
  | raise e =>
    rw [interpret_bind_raise,interpret_raise]
    exact (o.equivalence r).refl _
  | bind_done a g ih =>
    rw [interpret_bind_bind,interpret_bind_done,interpret_bind_done]
    exact ih r r
  | bind_effect op g ih =>
    rw [interpret_bind_bind,interpret_bind_effect,interpret_bind_effect]
    cases t.apply op with
    | error e => exact (o.equivalence r).refl _
    | ok m =>
      refine (o.equivalence r).trans (o.sequence_congr m _ _ (fun a r' => ih a r' r') r) ?_
      exact (o.equivalence r).symm (hc.associativity m _ _ r)
  | bind_bind y h g ih =>
    have hk := ih r
    rw [interpret_bind_bind,interpret_bind_congr driver t c y _ _
      fun a r => interpret_bind_bind driver t c r (h a r) g k] at hk
    rwa [interpret_bind_bind,interpret_bind_bind,interpret_bind_bind driver t c r y h g]
  | bind_malformed tag g =>
    rw [interpret_bind_bind,interpret_bind_malformed,interpret_bind_malformed]
    exact (o.equivalence r).refl _
  | bind_raise e g =>
    rw [interpret_bind_bind,interpret_bind_raise,interpret_bind_raise]
    exact (o.equivalence r).refl _

end Program

namespace Context.Runner

variable {R W I α β : Type} {F : Type → Type u} {G : Type → Type v} {O : Type → Type} [View W R] {c : Context R G}
  (P : c.Runner W I O) (driver : String) (t : Translator F G)

/-- Builds a program in the target, seen from the world that there is then, and runs what is built. -/
def interpreted (p : Program R F α) (i : I) : Action W (O α) := fun w =>
  runBuilt P.run (p.interpret driver t c (View.look w)) i w

theorem interpreted_bind (p : Program R F β) (k : β → R → Program R F α) (i : I) :
    P.interpreted driver t (.bind p k) i = (P.interpreted driver t p i).andThen fun o w =>
      P.interpreted driver t (k (P.next o i).1 (View.look w)) (P.next o i).2 w := by
  funext w
  simp only [interpreted,Action.andThen]
  rw [Program.interpret_bind driver t P.lawful p k (View.look w) i w rfl]
  cases p.interpret driver t c (View.look w) with
  | ok m => simp only [Outcome.map_ok,runBuilt,P.run_sequence,Action.andThen]
  | error e => rfl

end Context.Runner

namespace Program

/-- Interpretation is a morphism of monads into every lawful target, and actions performed in any world,
transitions run from any buffers and replays run on any line are lawful. -/
theorem runIn_morphism (R W : Type) [View W R] :
    (∀ {F : Type → Type u} {G : Type → Type v} {c : Context R G} {o : c.Observation},
      c.Lawful o → ∀ (t : Translator F G) {α β : Type},
        (∀ (a : α) (r : R), runIn t c (done a : Program R F α) r = .ok (c.lift a)) ∧
        (∀ (op : F α) (r : R), runIn t c (effect op) r = t.apply op) ∧
        ∀ (p : Program R F β) (k : β → R → Program R F α) (r : R),
          o.same r (runIn t c (bind p k) r) ((runIn t c p r).map fun m =>
            c.sequence m fun b r' => runIn t c (k b r') r')) ∧
      (Target.immediate R W).Lawful (Target.performing R W).observation ∧
      (Target.simulated R W).Lawful (Target.simulating R W).observation ∧
      (Target.replayed R W).Lawful (Target.replaying R W).observation :=
  ⟨fun hc t => ⟨fun a r => interpret_done _ t _ r a,fun op r => interpret_effect _ t _ r op,
    fun p k r => interpret_bind _ t hc p k r⟩,
    Context.Runner.lawful _,Context.Runner.lawful _,Context.Runner.lawful _⟩

/-- Two actions that write to a log, one after the other, performed as one program or chained. -/
theorem runIn_morphism_log :
    let say (s : String) : Action (List String) Unit := fun log => (.ok (), log ++ [s])
    let target := Target.immediate Unit (List String)
    let twice := bind (effect (say "a")) fun _ _ => effect (say "b")
    target.Lawful (Target.performing Unit (List String)).observation ∧
      (Target.performing Unit (List String)).observation.same ()
        (runIn Translator.id target twice ())
        ((runIn Translator.id target (effect (say "a")) ()).map fun m =>
          target.sequence m fun _ r => runIn Translator.id target (effect (say "b")) r) := by
  intro say target twice
  have hc := Context.Runner.lawful (Target.performing Unit (List String))
  exact ⟨hc,((runIn_morphism Unit (List String)).1 hc Translator.id).2.2 _ _ ()⟩

end Program

end Effectful
