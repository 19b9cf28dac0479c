import Effectful.Proofs.Cell.Twin
import Effectful.Proofs.Work.Pair
/-!
# Fresh cells

A routine that mentions no cell from outside has cells of its own in each of its runs. One run is like any other,
in whatever world it is started, and two at once go on beside each other as each does alone.
-/
namespace Effectful

open Function

variable {W V E α β γ : Type}

variable [HasStore W V] {held : Likeness Pairing V} {log : W → List E}

theorem Sides.decides {A B : Type} [View W Unit] {s : Footprint W A B E} {base : List E}
    {f : α → β → Unit → Outcome γ} {e : Executor Unit W γ} {l : Executor Unit W α} {r : Executor Unit W β}
    (h : Sides s base f e l r) {n m : Nat} {x : Outcome α} {y : Outcome β}
    (hn : (Executor.advance^[n] l).isIdle = true) (hm : (Executor.advance^[m] r).isIdle = true)
    (hx : (Executor.advance^[n] l).task.outcome? = some x)
    (hy : (Executor.advance^[m] r).task.outcome? = some y) :
    ∃ k z, (Executor.advance^[k] e).isIdle = true ∧ (Executor.advance^[k] e).task.outcome? = some z ∧
      Sides s base f (Executor.advance^[k] e) (Executor.advance^[n] l) (Executor.advance^[m] r) ∧
      ((∃ a b, x = .ok a ∧ y = .ok b ∧ z = f a b ()) ∨ ∃ e, (x = .error e ∨ y = .error e) ∧ z = .error e) := by
  obtain ⟨k,hk,hsides⟩ := h.reaches hn hm
  have hjoined := hsides.task
  rw [(Executor.isIdle_iff.mp hk).1] at hjoined
  rcases hjoined.decided hx hy with ⟨a,b,ha,hb,hz⟩ | ⟨e,he,-,hz⟩
  · exact ⟨k,_,hk,hz,hsides,.inl ⟨a,b,ha,hb,rfl⟩⟩
  · exact ⟨k,_,hk,hz,hsides,.inr ⟨e,he,rfl⟩⟩

/-- A run in a world of its own is the run in the world that it has there. -/
structure Twin.Solo (held : Likeness Pairing V) (log : W → List E) (w₀ : W) (side : Side)
    (u : Executor Unit (Twin W E) α) (e : Executor Unit W α) : Prop where
  related : u.Related (Twin.alone side) e
  akin : ∃ i, e.Akin (Twin.matching log held w₀) i (Likeness.plain _ α) u

namespace Twin.Solo

variable {w₀ : W} {side : Side} {u : Executor Unit (Twin W E) α} {e : Executor Unit W α}

theorem start {work : Work Unit W α} (h : work.Akin (Pairing.matching held log) ⊥ (Likeness.plain _ α) work) :
    Solo held log w₀ side (.start (work.carry (carrier log side)) (.of E w₀)) (.start work w₀) := by
  refine ⟨(Work.related_carry (acts_alone log side) work).start rfl,?_⟩
  obtain ⟨i,-,hakin,-⟩ := (akin_carry side h ⊥).start (matches_of held log w₀)
  exact ⟨i,hakin⟩

theorem world_eq (h : Solo held log w₀ side u e) : u.queue.world.world side = e.queue.world :=
  h.related.queue.world

theorem log_eq (h : Solo held log w₀ side u e) : log e.queue.world = log w₀ ++ u.queue.world.log := by
  obtain ⟨i,hakin⟩ := h.akin
  exact hakin.queue.world.log

theorem isIdle_eq (h : Solo held log w₀ side u e) : u.isIdle = e.isIdle := by
  obtain ⟨i,hakin⟩ := h.akin
  exact hakin.isIdle_eq.symm

theorem outcome?_eq (h : Solo held log w₀ side u e) : u.task.outcome? = e.task.outcome? := by
  obtain ⟨i,hakin⟩ := h.akin
  exact hakin.outcome?_eq.symm

variable [View W Unit]

theorem advance (h : Solo held log w₀ side u e) : Solo held log w₀ side u.advance e.advance := by
  refine ⟨h.related.advance fun _ _ _ => rfl,?_⟩
  obtain ⟨i,hakin⟩ := h.akin
  obtain ⟨j,-,hnext,-⟩ := hakin.advance
  exact ⟨j,hnext⟩

theorem iterate (h : Solo held log w₀ side u e) (n : Nat) :
    Solo held log w₀ side (Executor.advance^[n] u) (Executor.advance^[n] e) := by
  induction n with
  | zero => exact h
  | succ n ih =>
    rw [iterate_succ_apply',iterate_succ_apply']
    exact ih.advance

end Twin.Solo

/-- Two runs at once, and the same runs as each of them goes alone. The cells of the runs at once stand for those
of the runs alone. -/
structure Abreast (held : Likeness Pairing V) (log : W → List E) (w₀ : W) (f : α → β → Unit → Outcome γ)
    (i : Side → Pairing) (e : Executor Unit W γ) (l : Executor Unit W α) (r : Executor Unit W β)
    (u : Executor Unit (Twin W E) γ) (ul : Executor Unit (Twin W E) α) (ur : Executor Unit (Twin W E) β) :
    Prop where
  together : e.Akin (Twin.matching log held w₀) i (Likeness.plain _ γ) u
  sides : Sides (Twin.footprint .left) [] f u ul ur
  left : Twin.Solo held log w₀ .left ul l
  right : Twin.Solo held log w₀ .right ur r

namespace Abreast

variable {w₀ : W} {f : α → β → Unit → Outcome γ} {i : Side → Pairing} {e : Executor Unit W γ}
  {l : Executor Unit W α} {r : Executor Unit W β} {u : Executor Unit (Twin W E) γ}
  {ul : Executor Unit (Twin W E) α} {ur : Executor Unit (Twin W E) β}

theorem start {L : Work Unit W α} {K : Work Unit W β}
    (hL : L.Akin (Pairing.matching held log) ⊥ (Likeness.plain _ α) L)
    (hK : K.Akin (Pairing.matching held log) ⊥ (Likeness.plain _ β) K) (f : α → β → Unit → Outcome γ) (w₀ : W) :
    ∃ i u ul ur, Abreast held log w₀ f i (.start (.both L K f) w₀) (.start L w₀) (.start K w₀) u ul ur := by
  obtain ⟨i,-,htogether,-⟩ := (Twin.akin_both hL hK f w₀).start (Twin.matches_of held log w₀)
  have hsides := Sides.start (s := Twin.footprint .left) (Work.within_carry (Twin.local_carrier log .left) L)
    (Work.within_carry (Twin.local_carrier log .right) K) f (.of E w₀)
  exact ⟨i,_,_,_,htogether,hsides,.start hL,.start hK⟩

theorem held_left (h : Abreast held log w₀ f i e l r u ul ur) :
    (i .left).Matches held e.queue.world l.queue.world := by
  have hown : u.queue.world.world .left = ul.queue.world.world .left := congrArg Prod.fst h.sides.queue.own
  have hheld := h.together.queue.world.held .left
  rwa [hown,h.left.world_eq] at hheld

theorem held_right (h : Abreast held log w₀ f i e l r u ul ur) :
    (i .right).Matches held e.queue.world r.queue.world := by
  have hother : u.queue.world.world .right = ur.queue.world.world .right := congrArg Prod.fst h.sides.queue.other
  have hheld := h.together.queue.world.held .right
  rwa [hother,h.right.world_eq] at hheld

theorem logs (h : Abreast held log w₀ f i e l r u ul ur) :
    ∃ zs xs ys, log e.queue.world = log w₀ ++ zs ∧ log l.queue.world = log w₀ ++ xs ∧
      log r.queue.world = log w₀ ++ ys ∧ Interleaving xs ys zs := by
  obtain ⟨zs,xs,ys,hz,hx,hy,hlogs⟩ := h.sides.queue.log
  rw [List.nil_append] at hz hx hy
  subst hz hx hy
  exact ⟨_,_,_,h.together.queue.world.log,h.left.log_eq,h.right.log_eq,hlogs⟩

variable (V) in
/-- A side has no more cells than before, and they are as they were. -/
def Keeps (side : Side) (i j : Side → Pairing) (e e' : Executor Unit W γ) : Prop :=
  j side = i side ∧ ∀ c ∈ (i side).left, c.content (V := V) e'.queue.world = c.content e.queue.world

/-- A round of the runs at once is a round of one of them, which keeps the cells of the other; or it is none of
either. -/
theorem advance [View W Unit] (h : Abreast held log w₀ f i e l r u ul ur) :
    ∃ j u', i ≤ j ∧
      ((∃ ul', Abreast held log w₀ f j e.advance l.advance r u' ul' ur ∧ Keeps V .right i j e e.advance) ∨
        (∃ ur', Abreast held log w₀ f j e.advance l r.advance u' ul ur' ∧ Keeps V .left i j e e.advance) ∨
        Abreast held log w₀ f j e.advance l r u' ul ur ∧ ∀ side, Keeps V side i j e e.advance) := by
  cases hidle : u.isIdle with
  | true =>
    have he : e.advance = e := Executor.advance_of_isIdle (h.together.isIdle_eq.trans hidle)
    rw [he]
    exact ⟨i,u,le_rfl,.inr (.inr ⟨h,fun _ => ⟨rfl,fun _ _ => rfl⟩⟩)⟩
  | false =>
    obtain ⟨j,hij,htogether,hkept⟩ := h.together.advance
    let s : Footprint (Twin W E) (W × Nat) (W × Nat) E := Twin.footprint .left
    have hleft : s.own u.advance.queue.world = s.own ul.queue.world → Keeps V .left i j e e.advance :=
      fun hown => hkept.kept .left (congrArg Prod.snd (hown.trans h.sides.queue.own.symm))
    have hright : s.other u.advance.queue.world = s.other ur.queue.world → Keeps V .right i j e e.advance :=
      fun hother => hkept.kept .right (congrArg Prod.snd (hother.trans h.sides.queue.other.symm))
    refine ⟨j,u.advance,hij,?_⟩
    rcases h.sides.advance hidle with ⟨-,hsides,-⟩ | ⟨-,hsides,-⟩ | ⟨hsides,-⟩
    · exact .inl ⟨_,⟨htogether,hsides,h.left.advance,h.right⟩,hright hsides.queue.other⟩
    · exact .inr (.inl ⟨_,⟨htogether,hsides,h.left,h.right.advance⟩,hleft hsides.queue.own⟩)
    · refine .inr (.inr ⟨⟨htogether,hsides,h.left,h.right⟩,fun side => ?_⟩)
      cases side with
      | left => exact hleft hsides.queue.own
      | right => exact hright hsides.queue.other

theorem ends [View W Unit] (h : Abreast held log w₀ f i e l r u ul ur) {n m : Nat} {x : Outcome α}
    {y : Outcome β} (hn : (Executor.advance^[n] l).isIdle = true) (hm : (Executor.advance^[m] r).isIdle = true)
    (hx : (Executor.advance^[n] l).task.outcome? = some x)
    (hy : (Executor.advance^[m] r).task.outcome? = some y) :
    ∃ k z j u' ul' ur', (Executor.advance^[k] e).isIdle = true ∧
      (Executor.advance^[k] e).task.outcome? = some z ∧
      Abreast held log w₀ f j (Executor.advance^[k] e) (Executor.advance^[n] l) (Executor.advance^[m] r)
        u' ul' ur' ∧
      ((∃ a b, x = .ok a ∧ y = .ok b ∧ z = f a b ()) ∨ ∃ e, (x = .error e ∨ y = .error e) ∧ z = .error e) := by
  have hl := h.left.iterate n
  have hr := h.right.iterate m
  obtain ⟨k,z,hk,hz,hsides,hdecided⟩ := h.sides.decides (hl.isIdle_eq.trans hn) (hr.isIdle_eq.trans hm)
    (hl.outcome?_eq.trans hx) (hr.outcome?_eq.trans hy)
  obtain ⟨j,-,htogether,-⟩ := h.together.iterate k
  exact ⟨k,z,j,_,_,_,htogether.isIdle_eq.trans hk,htogether.outcome?_eq.trans hz,⟨htogether,hsides,hl,hr⟩,
    hdecided⟩

end Abreast

namespace Work

variable {work : Work Unit W α} (h : work.Akin (Pairing.matching held log) ⊥ (Likeness.plain _ α) work)

/-- Two runs of the work at once that were started in `w`, as far as the executor `e` has come: each is as far as
the run alone after the given number of rounds. Its cells stand for those of the run alone and hold what is alike;
they are no cells of the other run, and all other cells are as they were. -/
structure Beside (held : Likeness Pairing V) (log : W → List E) [View W Unit] (work : Work Unit W α) (w : W)
    (e : Executor Unit W γ) (n : Side → Nat) (ρ : Side → Pairing) : Prop where
  held : ∀ side, (ρ side).Matches held e.queue.world (Executor.advance^[n side] (.start work w)).queue.world
  apart : Disjoint (ρ .left).left (ρ .right).left
  grows : Cell.Grows V ∅ ((ρ .left).left ∪ (ρ .right).left) w e.queue.world
  logs : ∃ zs xs ys, log e.queue.world = log w ++ zs ∧
    log (Executor.advance^[n .left] (.start work w)).queue.world = log w ++ xs ∧
    log (Executor.advance^[n .right] (.start work w)).queue.world = log w ++ ys ∧ Interleaving xs ys zs

variable (V) in
/-- A round of two runs at once is a round of one of them, which keeps the cells of the other, or a round of
neither, which keeps the cells of both. -/
def Beside.Round (e e' : Executor Unit W γ) (n n' : Side → Nat) (ρ ρ' : Side → Pairing) : Prop :=
  ρ ≤ ρ' ∧ ((∃ side, n' = update n side (n side + 1) ∧ Abreast.Keeps V side.opposite ρ ρ' e e') ∨
    n' = n ∧ ∀ side, Abreast.Keeps V side ρ ρ' e e')

theorem matches_bot (held : Likeness Pairing V) (w w' : W) : (⊥ : Pairing).Matches held w w' :=
  fun _ _ h => h.elim

variable [View W Unit]

/-- Two runs at once beside the same runs alone, each after the given number of rounds, as `Abreast` has them. -/
def Paced (held : Likeness Pairing V) (log : W → List E) (work : Work Unit W α) (f : α → α → Unit → Outcome γ)
    (w : W) (e : Executor Unit W γ) (n : Side → Nat) (ρ : Side → Pairing) : Prop :=
  ∃ u ul ur, Abreast held log w f ρ e (Executor.advance^[n .left] (.start work w))
    (Executor.advance^[n .right] (.start work w)) u ul ur

namespace Paced

variable {f : α → α → Unit → Outcome γ} {w : W} {e : Executor Unit W γ} {n : Side → Nat} {ρ : Side → Pairing}

include h in
theorem start (f : α → α → Unit → Outcome γ) (w : W) :
    ∃ ρ, Paced held log work f w (.start (.both work work f) w) (fun _ => 0) ρ := by
  obtain ⟨ρ,u,ul,ur,hstart⟩ := Abreast.start h h f w
  exact ⟨ρ,u,ul,ur,hstart⟩

theorem beside (h : Paced held log work f w e n ρ) : Beside held log work w e n ρ := by
  obtain ⟨u,ul,ur,h⟩ := h
  refine ⟨fun side => ?_,h.together.queue.world.apart .left,h.together.queue.world.grows .left,h.logs⟩
  cases side with
  | left => exact h.held_left
  | right => exact h.held_right

theorem advance (h : Paced held log work f w e n ρ) :
    ∃ n' ρ', Paced held log work f w e.advance n' ρ' ∧ Beside.Round V e e.advance n n' ρ ρ' := by
  obtain ⟨u,ul,ur,h⟩ := h
  obtain ⟨ρ',u',hle,⟨ul',hleft,hkeeps⟩ | ⟨ur',hright,hkeeps⟩ | ⟨hown,hkeeps⟩⟩ := h.advance
  · refine ⟨update n .left (n .left + 1),ρ',⟨u',ul',ur,?_⟩,hle,.inl ⟨.left,rfl,hkeeps⟩⟩
    rw [update_self,iterate_succ_apply']
    exact hleft
  · refine ⟨update n .right (n .right + 1),ρ',⟨u',ul,ur',?_⟩,hle,.inl ⟨.right,rfl,hkeeps⟩⟩
    rw [update_self,iterate_succ_apply']
    exact hright
  · exact ⟨n,ρ',⟨u',ul,ur,hown⟩,hle,.inr ⟨rfl,hkeeps⟩⟩

end Paced

private theorem exists_sequence {S : Type} {At : Nat → S → Prop} {Next : Nat → S → S → Prop} {s : S} (h : At 0 s)
    (hnext : ∀ k s, At k s → ∃ s', At (k + 1) s' ∧ Next k s s') :
    ∃ states : Nat → S, ∀ k, At k (states k) ∧ Next k (states k) (states (k + 1)) := by
  have : Nonempty S := ⟨s⟩
  choose! next hnext using hnext
  have hat : ∀ k, At k (Nat.rec s next k) := by
    intro k
    induction k with
    | zero => exact h
    | succ k ih => exact (hnext k _ ih).1
  exact ⟨fun k => Nat.rec s next k,fun k => ⟨hat k,(hnext k _ (hat k)).2⟩⟩

include h

/-- Two runs at once go on round by round, each as it does alone, and keep each other's cells. -/
theorem exists_beside (f : α → α → Unit → Outcome γ) (w : W) :
    ∃ (n : Nat → Side → Nat) (ρ : Nat → Side → Pairing), ∀ k,
      Beside held log work w (Executor.advance^[k] (.start (.both work work f) w)) (n k) (ρ k) ∧
        Beside.Round V (Executor.advance^[k] (.start (.both work work f) w))
          (Executor.advance^[k + 1] (.start (.both work work f) w)) (n k) (n (k + 1)) (ρ k) (ρ (k + 1)) := by
  obtain ⟨ρ,hstart⟩ := Paced.start h f w
  have hnext : ∀ (k : Nat) (x : (Side → Nat) × (Side → Pairing)),
      Paced held log work f w (Executor.advance^[k] (.start (.both work work f) w)) x.1 x.2 →
      ∃ y : (Side → Nat) × (Side → Pairing),
        Paced held log work f w (Executor.advance^[k + 1] (.start (.both work work f) w)) y.1 y.2 ∧
          Beside.Round V (Executor.advance^[k] (.start (.both work work f) w))
            (Executor.advance^[k + 1] (.start (.both work work f) w)) x.1 y.1 x.2 y.2 := by
    intro k x hx
    obtain ⟨n,ρ,hadvance,hround⟩ := hx.advance
    rw [iterate_succ_apply']
    exact ⟨(n,ρ),hadvance,hround⟩
  obtain ⟨states,hstates⟩ := exists_sequence (s := (fun _ => 0,ρ)) hstart hnext
  exact ⟨fun k => (states k).1,fun k => (states k).2,fun k => ⟨(hstates k).1.beside,(hstates k).2⟩⟩

theorem both_ends_beside (f : α → α → Unit → Outcome γ) {w v : W} {x : Outcome α} (hends : work.Ends w x v) :
    ∃ z v', (both work work f).Ends w z v' ∧ (∀ a, x = .ok a → z = f a a ()) ∧
      (∀ e, x = .error e → z = .error e) ∧
      ∃ es zs, log v = log w ++ es ∧ log v' = log w ++ zs ∧ Interleaving es es zs := by
  obtain ⟨_,⟨n,rfl⟩,hidle,hx,rfl⟩ := hends
  obtain ⟨i,u,ul,ur,hstart⟩ := Abreast.start h h f w
  obtain ⟨k,z,j,u',ul',ur',hk,hz,habreast,hdecided⟩ := hstart.ends hidle hidle hx hx
  obtain ⟨zs,xs,ys,hzs,hxs,hys,hlogs⟩ := habreast.logs
  obtain rfl : xs = ys := List.append_cancel_left (hxs.symm.trans hys)
  refine ⟨z,_,⟨_,⟨k,rfl⟩,hk,hz,rfl⟩,?_,?_,xs,zs,hxs,hzs,hlogs⟩
  · rintro a rfl
    rcases hdecided with ⟨a',b',ha,hb,rfl⟩ | ⟨e,he,-⟩
    · cases ha
      cases hb
      rfl
    · rcases he with he | he <;> cases he
  · rintro e rfl
    rcases hdecided with ⟨a,b,ha,-,-⟩ | ⟨e',he,rfl⟩
    · cases ha
    · rcases he with he | he <;> cases he <;> rfl

end Work

/-- The work is started any number of times, each time when nothing is left to run: alone, or two runs at once. -/
inductive Work.Series [View W Unit] (work : Work Unit W α) : W → W → Prop
  | nil (w : W) : Series work w w
  | once {w u v : W} {x : Outcome α} (h : Series work w u) (hends : work.Ends u x v) : Series work w v
  | twice {w u v : W} {γ : Type} {f : α → α → Unit → Outcome γ} {z : Outcome γ} (h : Series work w u)
      (hends : (Work.both work work f).Ends u z v) : Series work w v

theorem Work.Series.kept [View W Unit] {work : Work Unit W α}
    (h : work.Akin (Pairing.matching held log) ⊥ (Likeness.plain _ α) work) {w v : W} (hseries : work.Series w v)
    {c : Cell} {x : V} (hx : c.content w = some x) : c.content v = some x := by
  have hgrows : ∀ {own : Set Cell} {w v : W}, Cell.Grows V ∅ own w v → c.content w = some x →
      c.content v = some x := fun h hx => h.kept c x hx (Set.notMem_empty c)
  induction hseries with
  | nil => exact hx
  | once _ hends ih =>
    obtain ⟨ρ,_,-,-,-,hgrown⟩ := h.ends (matches_bot held _ w) hends
    have hleft := hgrown.left
    rw [Pairing.left_bot] at hleft
    exact hgrows hleft ih
  | @twice _ _ _ f _ _ hends ih =>
    obtain ⟨_,⟨k,rfl⟩,-,-,rfl⟩ := hends
    obtain ⟨n,ρ,hrounds⟩ := exists_beside h f _
    exact hgrows (hrounds k).1.grows ih

@[reducible] def HasStore.logged (V E : Type) : HasStore (Array V × List E) V :=
  ⟨fun w => w.1,fun g w => (g w.1,w.2)⟩

theorem LawfulStore.logged (V E : Type) : @LawfulStore (Array V × List E) V (HasStore.logged V E) :=
  @LawfulStore.mk (Array V × List E) V (HasStore.logged V E) fun _ _ => rfl

namespace Routine

/-- Runs of one routine share no cells. Let a routine mention no cell from outside, answer plainly and not look at
the log, and let it be built once. Wherever and whenever the work is started alone, it goes on in the same way, to
the same outcome and with the same entries in the log; it creates new cells, which stand for those of every other
run and hold what is alike, and changes no cell besides. Two runs at once go on round by round, each as it does
alone: they have different cells, each round of one keeps the cells of the other, the log is an interleaving of
their entries, and both come to the outcome that the work comes to alone. However often the work is started, no cell
that there was before is changed. -/
theorem runs_share_no_cell [View W Unit] {p : Routine Unit W α} (hp : p.SelfContained held log) :
    let work := p.work ()
    let run w n := Executor.advance^[n] (Executor.start work w)
    let twice {γ : Type} (f : α → α → Unit → Outcome γ) w k :=
      Executor.advance^[k] (Executor.start (.both work work f) w)
    (∀ w w' n, (run w n).task.outcome? = (run w' n).task.outcome? ∧ (run w n).isIdle = (run w' n).isIdle ∧
        ∃ ρ : Pairing, ρ.Matches held (run w n).queue.world (run w' n).queue.world ∧
          Pairing.Grown V log ⊥ w w' ρ (run w n).queue.world (run w' n).queue.world) ∧
      (∀ w w' x v, work.Ends w x v →
        ∃ v' es, work.Ends w' x v' ∧ log v = log w ++ es ∧ log v' = log w' ++ es) ∧
      (∀ {γ : Type} (f : α → α → Unit → Outcome γ) w, ∃ (n : Nat → Side → Nat) (ρ : Nat → Side → Pairing), ∀ k,
        Work.Beside held log work w (twice f w k) (n k) (ρ k) ∧
          Work.Beside.Round V (twice f w k) (twice f w (k + 1)) (n k) (n (k + 1)) (ρ k) (ρ (k + 1))) ∧
      (∀ {γ : Type} (f : α → α → Unit → Outcome γ) w x v, work.Ends w x v →
        ∃ z v', (Work.both work work f).Ends w z v' ∧ (∀ a, x = .ok a → z = f a a ()) ∧
          (∀ e, x = .error e → z = .error e) ∧
          ∃ es zs, log v = log w ++ es ∧ log v' = log w ++ zs ∧ Interleaving es es zs) ∧
      ∀ w v, work.Series w v → ∀ (c : Cell) (x : V), c.content w = some x → c.content v = some x := by
  intro work run twice
  have hwork := hp.work
  refine ⟨fun w w' n => ?_,fun w w' x v hends => ?_,fun f w => Work.exists_beside hwork f w,
    fun f w x v hends => ?_,fun w v hseries c x hx => hseries.kept hwork hx⟩
  · obtain ⟨ρ,-,hn,hgrown⟩ := hwork.iterate (Work.matches_bot held w w') n
    exact ⟨hn.outcome?_eq,hn.isIdle_eq,ρ,hn.queue.world,hgrown⟩
  · obtain ⟨ρ,v',-,hends',-,hgrown⟩ := hwork.ends (Work.matches_bot held w w') hends
    obtain ⟨es,hv,hv'⟩ := hgrown.log
    exact ⟨v',es,hends',hv,hv'⟩
  · exact Work.both_ends_beside hwork f hends

section Logged

attribute [local instance] HasStore.logged LawfulStore.logged

/-- A routine that counts to one in a cell of its own, after it has logged. It is started beside other cells. -/
theorem runs_share_no_cell_count :
    let say : Action (Array Nat × List String) Unit := fun w => (.ok (),w.1,w.2 ++ ["count"])
    let p : Routine Unit (Array Nat × List String) Nat := .bind (Cell.ref 0) fun c _ =>
      .bind (act say) fun _ _ => c.modify fun x _ => .ok (x + 1)
    let pair (a b : Nat) (_ : Unit) : Outcome (Nat × Nat) := .ok (a,b)
    p.SelfContained (Likeness.plain Pairing Nat) Prod.snd ∧
      (p.work ()).Ends (#[7],[]) (.ok 1) (#[7,1],["count"]) ∧
      (∃ v, (p.work ()).Ends (#[3,4],["begun"]) (.ok 1) v ∧ v.2 = ["begun","count"]) ∧
      ∃ v, (Work.both (p.work ()) (p.work ()) pair).Ends (#[7],[]) (.ok (1,1)) v ∧
        Interleaving ["count"] ["count"] v.2 := by
  intro say p pair
  have hp : p.SelfContained (Likeness.plain Pairing Nat) Prod.snd := by
    refine .bind Pairing.cell (Cell.akin_ref (fun _ _ => rfl) rfl) fun ρ _ c d hcd => ?_
    refine .bind (Likeness.plain Pairing Unit) (.effect (.delay ?_)) fun σ hρσ _ _ _ => ?_
    · exact Action.acts_log (x := .ok ()) (.ok rfl) fun _ => ⟨rfl,rfl,rfl⟩
    · exact Cell.akin_modify (fun _ _ => rfl) (hρσ c d hcd) fun τ _ x y hxy => .ok (congrArg (· + 1) hxy)
  have hwork : p.work () = .fork (.andThen (.delay (Cell.allocate 0)) fun c _ =>
      .fork (.andThen (.delay say) fun _ _ =>
        .fork (.andThen (.delay c.read) fun x _ => .delay (c.write (x + 1))))) := by
    simp [p,Cell.ref,Cell.modify,Cell.get,Cell.set,Routine.act,Program.ofOutcome]
  have hends : (p.work ()).Ends (#[7],[]) (.ok 1) (#[7,1],["count"]) := by
    rw [hwork]
    exact ⟨_,⟨16,rfl⟩,rfl,rfl,rfl⟩
  obtain ⟨-,hanywhere,-,htwice,-⟩ := runs_share_no_cell hp
  obtain ⟨v,es,hv,hes,hes'⟩ := hanywhere (#[7],[]) (#[3,4],["begun"]) _ _ hends
  obtain rfl : ["count"] = es := hes
  obtain ⟨z,u,hu,hok,-,es',zs,hes'',hzs,hlogs⟩ := htwice pair (#[7],[]) _ _ hends
  obtain rfl : ["count"] = es' := hes''
  obtain rfl : u.2 = zs := hzs
  rw [hok 1 rfl] at hu
  exact ⟨hp,hends,⟨v,hv,hes'⟩,u,hu,hlogs⟩

end Logged

end Routine

end Effectful
