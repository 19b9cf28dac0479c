import Effectful.Proofs.Program.Meaning
import Effectful.Routine.Basic
/-!
# How binds are nested

Interpretation does not see how the binds of a program are nested, in any target. No law of the target is used,
since programs that differ only so are reduced to the same front: they become the same lifted answers, operations
and chains, wherever in them they differ.
-/
namespace Effectful.Program

universe u v

variable {R : Type} {F : Type → Type u} {G : Type → Type v}

/-- Two programs, seen from a world, that differ in how their binds are nested and in finished parts that hand
their answer on: the least congruence with these two rules. -/
inductive Renested : {α : Type} → R → Program R F α → Program R F α → Prop
  | refl {α : Type} (r : R) (p : Program R F α) : Renested r p p
  | symm {α : Type} {r : R} {p q : Program R F α} : Renested r p q → Renested r q p
  | trans {α : Type} {r : R} {p q s : Program R F α} : Renested r p q → Renested r q s → Renested r p s
  | assoc {α β γ : Type} (r : R) (m : Program R F γ) (f : γ → R → Program R F β)
      (g : β → R → Program R F α) :
      Renested r (bind (bind m f) g) (bind m fun a r' => bind (f a r') g)
  | unit {α β : Type} (r : R) (b : β) (f : β → R → Program R F α) : Renested r (bind (done b) f) (f b r)
  | bind {α β : Type} {r : R} {m m' : Program R F β} {f f' : β → R → Program R F α} :
      Renested r m m' → (∀ b r', Renested r' (f b r') (f' b r')) → Renested r (bind m f) (bind m' f')

/-- Programs that are nested differently are interpreted alike, alone and below every continuation. The second
half does not follow from the first, since a target need not chain as `bind` does. -/
theorem Renested.interpret_eq_and_bind {α : Type} {r : R} {p q : Program R F α} (h : Renested r p q)
    (driver : String) (t : Translator F G) (c : Context R G) :
    interpret driver t c p r = interpret driver t c q r ∧
      ∀ {β : Type} (k : α → R → Program R F β),
        interpret driver t c (.bind p k) r = interpret driver t c (.bind q k) r := by
  induction h with
  | refl r p => exact ⟨rfl,fun _ => rfl⟩
  | symm _ ih => exact ⟨ih.1.symm,fun k => (ih.2 k).symm⟩
  | trans _ _ ih ih' => exact ⟨ih.1.trans ih'.1,fun k => (ih.2 k).trans (ih'.2 k)⟩
  | assoc r m f g =>
    refine ⟨interpret_bind_bind ..,fun k => ?_⟩
    have hinner := interpret_bind_congr driver t c m _ _
      (fun a r' => interpret_bind_bind driver t c r' (f a r') g k) r
    rw [interpret_bind_bind,interpret_bind_bind,interpret_bind_bind,hinner]
  | unit r b f =>
    refine ⟨interpret_bind_done ..,fun k => ?_⟩
    rw [interpret_bind_bind,interpret_bind_done]
  | @bind _ _ r m m' f f' _ _ ihm ihf =>
    have hrest := interpret_bind_congr driver t c m' f f' (fun b r' => (ihf b r').1) r
    refine ⟨(ihm.2 f).trans hrest,fun k => ?_⟩
    have hbelow := interpret_bind_congr driver t c m' _ _ (fun b r' => (ihf b r').2 k) r
    rw [interpret_bind_bind,interpret_bind_bind,ihm.2,hbelow]

/-- Interpretation does not see how binds are nested, whatever the target makes of lifted answers, operations and
chains: a left-nested bind is the right-nested one, a finished part hands its answer on, and programs that differ
in this way anywhere in them are interpreted as the same thing. -/
theorem runIn_renested (t : Translator F G) (c : Context R G) :
    (∀ {α β γ : Type} (m : Program R F γ) (f : γ → R → Program R F β) (g : β → R → Program R F α) (r : R),
      runIn t c (bind (bind m f) g) r = runIn t c (bind m fun a r' => bind (f a r') g) r) ∧
      (∀ {α β : Type} (b : β) (f : β → R → Program R F α) (r : R),
        runIn t c (bind (done b) f) r = runIn t c (f b r) r) ∧
      ∀ {α : Type} {r : R} {p q : Program R F α}, Renested r p q → runIn t c p r = runIn t c q r :=
  ⟨fun m f g r => interpret_bind_bind "runFree" t c r m f g,
    fun b f r => interpret_bind_done "runFree" t c r b f,
    fun h => (h.interpret_eq_and_bind "runFree" t c).1⟩

/-- Work whose second part, nested to the left around a finished part, is built by a continuation. -/
theorem runIn_renested_log :
    let say (s : String) : Routine Unit (List String) Unit := .act fun log => (.ok (),log ++ [s])
    let left := bind (say "a") fun _ _ => bind (bind (bind (done ()) fun _ _ => say "b") fun _ _ => say "c")
      fun _ _ => say "d"
    let right := bind (say "a") fun _ _ => bind (say "b") fun _ _ => bind (say "c") fun _ _ => say "d"
    Renested () left right ∧ Work.ofProgram left () = Work.ofProgram right () := by
  intro say left right
  have hnested : Renested () left right :=
    .bind (.refl () _) fun _ r => .trans (.assoc r _ _ _) (.bind (.unit r () _) fun _ r' => .refl r' _)
  exact ⟨hnested,(runIn_renested Translator.id Work.context).2.2 hnested⟩

end Effectful.Program
