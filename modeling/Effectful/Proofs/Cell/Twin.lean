import Effectful.Proofs.Cell.Pairing
import Effectful.Proofs.Work.Correspondence
import Effectful.Proofs.Work.Sides
import Mathlib.Order.CompletePartialOrder
import Mathlib.Order.Hom.Order
/-!
# A store for each side

Two runs on one world are compared with the same runs where each has a world of its own, beside a log that both
append to. There they share nothing, so they do not interfere; and each of them does there what it does alone.
-/
namespace Effectful

open Function

variable {R W W' V E α β γ : Type}

/-- A world for each side with the number of actions that the side has performed, and a log of both. -/
structure Twin (W E : Type) where
  world : Side → W
  count : Side → Nat
  log : List E

section Carry

/-- How the actions of one world are performed on another. -/
structure Carrier (W W' : Type) where
  act : {X : Type} → (W → X × W) → W' → X × W'

def Reply.carry (lift : Carrier W W') (reply : Reply W α) : Reply W' α :=
  ⟨reply.now,reply.later.map lift.act⟩

/-- The same work on another world. -/
def Work.carry (lift : Carrier W W') {α : Type} : Work R W α → Work R W' α
  | .answer a => .answer a
  | .reject e => .reject e
  | .delay t => .delay (lift.act t)
  | .fork work => .fork (carry lift work)
  | .callback register =>
    .callback fun w => ((lift.act register w).1.map (Reply.carry lift),(lift.act register w).2)
  | .andThen work f => .andThen (carry lift work) fun b r => carry lift (f b r)
  | .both left right f => .both (carry lift left) (carry lift right) f

variable {lift : Carrier W W'}

theorem Work.within_carry {A B : Type} {s : Footprint W' A B E}
    (hlift : ∀ {X : Type} (t : W → X × W), s.Local (lift.act t)) (work : Work Unit W α) :
    (work.carry lift).Within s := by
  induction work with
  | answer | reject => trivial
  | delay t => exact hlift t
  | fork work ih => exact ih
  | callback register =>
    refine ⟨fun w w' hown => ?_,fun w reply hreply answer hmem => ?_⟩
    · obtain ⟨hx,hrest⟩ := hlift register w w' hown
      exact ⟨congrArg (Outcome.map (Reply.carry lift)) hx,hrest⟩
    · dsimp only at hreply
      rcases hx : (lift.act register w).1 with reply' | e <;> rw [hx] at hreply <;> cases hreply
      obtain ⟨later,-,rfl⟩ := List.mem_map.mp hmem
      exact hlift later
  | andThen work f ih ihf => exact ⟨ih,fun b r => ihf b r⟩
  | both left right f ihl ihr => exact ⟨ihl,ihr⟩

theorem Work.related_carry {s : Correspondence W' W}
    (hlift : ∀ {X : Type} (t : W → X × W), s.Acts Eq (lift.act t) t) (work : Work R W α) :
    (work.carry lift).Related s work := by
  induction work with
  | answer a => exact .answer a
  | reject e => exact .reject e
  | delay t => exact .delay (hlift t)
  | fork work ih => exact .fork ih
  | callback register =>
    refine .callback fun w' w hw => ?_
    obtain ⟨hx,hrest⟩ := hlift register w' w hw
    refine ⟨?_,hrest⟩
    dsimp only
    rw [hx]
    rcases (register w).1 with ⟨now,later⟩ | e
    · refine .ok now ?_
      rw [List.forall₂_map_left_iff,List.forall₂_same]
      exact fun answer _ => hlift answer
    · exact .error e
  | andThen work f ih ihf => exact .andThen ih ihf
  | both left right f ihl ihr => exact .both ihl ihr f

variable {I J : Type} [Preorder I] [Preorder J] {m : Matching I W W} {m' : Matching J W W'} (φ : J →o I)
  (hlift : ∀ {X X' : Type} {P : I → X → X' → Prop} {t : W → X × W} {t' : W → X' × W} {j : J},
    m.Acts (φ j) P t t' → m'.Acts j (fun k => P (φ k)) t (lift.act t'))

include hlift

theorem Work.Akin.carry {i : I} {S : Likeness I α} {work work' : Work Unit W α} (h : work.Akin m i S work')
    {j : J} (hij : i ≤ φ j) : work.Akin m' j (S.comp φ) (work'.carry lift) := by
  induction h generalizing j with
  | @answer _ i S _ _ h => exact .answer (S.mono hij h)
  | reject e => exact .reject e
  | delay h => exact .delay (hlift (h.mono hij))
  | fork _ ih => exact .fork (ih hij)
  | @callback _ i S register register' h =>
    refine .callback (Matching.Acts.bind (k := fun x w => (x,w)) (l := fun x w => (x.map (Reply.carry lift),w))
      (hlift (h.mono hij)) fun k hjk x x' hx => .answer fun l hkl => ?_)
    cases hx with
    | error e => exact .error e
    | ok h =>
      refine .ok ⟨?_,?_⟩
      · exact h.now.imp fun _ _ ha => S.mono (φ.monotone hkl) ha
      · refine List.forall₂_map_right_iff.mpr (h.later.imp fun _ _ hlater => ?_)
        exact hlift (hlater.mono (φ.monotone hkl))
  | andThen T _ hf ih ihf =>
    exact .andThen (T.comp φ) (ih hij) fun k hjk b b' hb => ihf (φ k) (hij.trans (φ.monotone hjk)) b b' hb le_rfl
  | both T U _ _ hf ihl ihr =>
    exact .both (T.comp φ) (U.comp φ) (ihl hij) (ihr hij) fun k hjk => hf (φ k) (hij.trans (φ.monotone hjk))

end Carry

namespace Twin

variable (log : W → List E) (side : Side)

/-- Performs the actions of a side in the world of that side. -/
def carrier : Carrier W (Twin W E) where
  act t u := ((t (u.world side)).1,{
    world := update u.world side (t (u.world side)).2
    count := update u.count side (u.count side + 1)
    log := u.log ++ (log (t (u.world side)).2).drop (log (u.world side)).length })

/-- The part of a side is its world and its count. -/
def footprint : Footprint (Twin W E) (W × Nat) (W × Nat) E where
  own u := (u.world side,u.count side)
  other u := (u.world side.opposite,u.count side.opposite)
  log := Twin.log

theorem local_carrier {X : Type} (t : W → X × W) : (footprint side).Local ((carrier log side).act t) := by
  intro u u' hown
  obtain ⟨hworld,hcount⟩ : u.world side = u'.world side ∧ u.count side = u'.count side := Prod.mk.inj hown
  have hother := side.opposite_ne.symm
  refine ⟨?_,?_,?_,?_,_,rfl,?_⟩ <;>
    simp only [carrier,footprint,hworld,hcount,update_self,update_of_ne hother]

/-- A side with what the other has in its world left out. -/
def alone : Correspondence (Twin W E) W where
  between u w := u.world side = w
  change _ _ := True
  refl _ := trivial
  trans _ _ := trivial

theorem acts_alone {X : Type} (t : W → X × W) : (alone side).Acts Eq ((carrier log side).act t) t := by
  rintro u _ rfl
  exact ⟨rfl,update_self ..,trivial⟩

variable [HasStore W V]

/-- The cells of a world are those that it had at first, and for each side those that stand for the cells of the
world of that side. -/
structure Matches (held : Likeness Pairing V) (w₀ : W) (i : Side → Pairing) (w : W) (u : Twin W E) : Prop where
  held : ∀ side, (i side).Matches held w (u.world side)
  apart : ∀ side, Disjoint (i side).left (i side.opposite).left
  grows : ∀ side, Cell.Grows V ∅ ((i side).left ∪ (i side.opposite).left) w₀ w
  log : log w = log w₀ ++ u.log

/-- A side that has performed no action has no more cells than before, and they are kept. -/
structure Kept (V : Type) [HasStore W V] (i : Side → Pairing) (w : W) (u : Twin W E) (j : Side → Pairing) (w' : W)
    (u' : Twin W E) : Prop where
  le : i ≤ j
  count : ∀ side, u.count side ≤ u'.count side
  kept : ∀ side, u'.count side = u.count side →
    j side = i side ∧ ∀ c ∈ (i side).left, c.content (V := V) w' = c.content w

def matching (held : Likeness Pairing V) (w₀ : W) : Matching (Side → Pairing) W (Twin W E) where
  between := Matches log held w₀
  change := Kept V
  refl i w u := ⟨le_rfl,fun _ => le_rfl,fun _ _ => ⟨rfl,fun _ _ => rfl⟩⟩
  trans {i j k w v z u u' u''} h h' := by
    refine ⟨h.le.trans h'.le,fun side => (h.count side).trans (h'.count side),fun side hcount => ?_⟩
    have hfirst := h.count side
    have hsecond := h'.count side
    obtain ⟨hj,hkept⟩ := h.kept side (by omega)
    obtain ⟨hk,hkept'⟩ := h'.kept side (by omega)
    exact ⟨hk.trans hj,fun c hc => (hkept' c (hj ▸ hc)).trans (hkept c hc)⟩

variable {log} {held : Likeness Pairing V}

namespace Matches

variable {side} {w₀ w v : W} {u : Twin W E} {i : Side → Pairing} {own : Set Cell}

theorem kept_opposite (h : Matches log held w₀ i w u) (hgrows : Cell.Grows V (i side).left own w v) :
    ∀ c ∈ (i side.opposite).left, c.content (V := V) v = c.content w := by
  rintro c ⟨d,hcd⟩
  obtain ⟨x,_,hx,-⟩ := h.held side.opposite c d hcd
  rw [hgrows.kept c x hx fun hc => Set.disjoint_left.mp (h.apart side) hc ⟨d,hcd⟩,hx]

theorem apart_opposite (h : Matches log held w₀ i w u) (hgrows : Cell.Grows V (i side).left own w v) :
    Disjoint own (i side.opposite).left := by
  refine Set.disjoint_left.mpr fun c hc hc' => ?_
  rcases hgrows.new c hc with hc | hnone
  · exact Set.disjoint_left.mp (h.apart side) hc hc'
  · obtain ⟨d,hcd⟩ := hc'
    obtain ⟨x,_,hx,-⟩ := h.held side.opposite c d hcd
    cases hnone.symm.trans hx

theorem grows_opposite (h : Matches log held w₀ i w u) (hgrows : Cell.Grows V (i side).left own w v)
    (hown : (i side).left ⊆ own) : Cell.Grows V ∅ (own ∪ (i side.opposite).left) w₀ v :=
  (h.grows side).trans (Set.union_subset_union_left _ hown) (hgrows.frame _)

end Matches

/-- What actions that are alike do to the cells of one side, they do on a world of that side alone; the other side
is left as it was. -/
theorem acts_carrier {w₀ : W} {X X' : Type} {P : Pairing → X → X' → Prop} {t : W → X × W}
    {t' : W → X' × W} {i : Side → Pairing} (h : (Pairing.matching held log).Acts (i side) P t t') :
    (matching log held w₀).Acts i (fun j => P (j side)) t ((carrier log side).act t') := by
  intro j hij w u hw
  obtain ⟨τ,hle,hP,hmatches,hgrown⟩ := h (j side) (hij side) w (u.world side) (hw.held side)
  have hne := side.opposite_ne.symm
  have hown : update j side τ side = τ := update_self ..
  have hother : update j side τ side.opposite = j side.opposite := update_of_ne hne ..
  have hle' : j ≤ update j side τ := by
    intro s
    rcases s.eq_or_opposite side with rfl | rfl
    · rw [hown]
      exact hle
    · rw [hother]
  have hkept := hw.kept_opposite hgrown.left
  have hapart := hw.apart_opposite hgrown.left
  have hgrows := hw.grows_opposite hgrown.left (Pairing.left_mono hle)
  refine ⟨update j side τ,hle',?_,⟨fun s => ?_,fun s => ?_,fun s => ?_,?_⟩,hle',fun s => ?_,fun s => ?_⟩
  · dsimp only
    rw [hown]
    exact hP
  · rcases s.eq_or_opposite side with rfl | rfl
    · rw [hown]
      simp only [carrier,update_self]
      exact hmatches
    · rw [hother]
      simp only [carrier,update_of_ne hne]
      rintro c d hcd
      rw [hkept c ⟨d,hcd⟩]
      exact hw.held _ c d hcd
  · rcases s.eq_or_opposite side with rfl | rfl
    · rw [hown,hother]
      exact hapart
    · rw [side.opposite_opposite,hown,hother]
      exact hapart.symm
  · rcases s.eq_or_opposite side with rfl | rfl
    · rw [hown,hother]
      exact hgrows
    · rw [side.opposite_opposite,hown,hother,Set.union_comm]
      exact hgrows
  · obtain ⟨es,hv,hv'⟩ := hgrown.log
    simp only [carrier,hv,hv',hw.log,List.drop_left,List.append_assoc]
  · rcases s.eq_or_opposite side with rfl | rfl
    · simp only [carrier,update_self]
      exact Nat.le_succ _
    · simp only [carrier,update_of_ne hne,le_refl]
  · rcases s.eq_or_opposite side with rfl | rfl
    · simp only [carrier,update_self]
      intro hcount
      omega
    · exact fun _ => ⟨hother,hkept⟩

def of (E : Type) (w : W) : Twin W E := ⟨fun _ => w,fun _ => 0,[]⟩

theorem matches_of (held : Likeness Pairing V) (log : W → List E) (w : W) : Matches log held w ⊥ w (of E w) where
  held _ _ _ h := h.elim
  apart _ := by simp
  grows _ := by
    simp only [Pi.bot_apply,Pairing.left_bot,Set.union_empty]
    exact .refl ∅ w
  log := (List.append_nil _).symm

theorem akin_carry {w₀ : W} {S : Likeness Pairing α} {work : Work Unit W α}
    (h : work.Akin (Pairing.matching held log) ⊥ S work) (i : Side → Pairing) :
    work.Akin (matching log held w₀) i (S.comp (Pi.evalOrderHom side)) (work.carry (carrier log side)) :=
  h.carry (Pi.evalOrderHom side) (fun h => acts_carrier side h) bot_le

/-- Two works at once are like the same two with a world for each. -/
theorem akin_both {L : Work Unit W α} {K : Work Unit W β}
    (hL : L.Akin (Pairing.matching held log) ⊥ (Likeness.plain _ α) L)
    (hK : K.Akin (Pairing.matching held log) ⊥ (Likeness.plain _ β) K) (f : α → β → Unit → Outcome γ) (w₀ : W) :
    (Work.both L K f).Akin (matching log held w₀) ⊥ (Likeness.plain _ γ)
      (.both (L.carry (carrier log .left)) (K.carry (carrier log .right)) f) := by
  refine .both _ _ (akin_carry .left hL ⊥) (akin_carry .right hK ⊥) ?_
  rintro j - b _ c _ rfl rfl
  exact Outcome.akin_self _

end Twin

end Effectful
