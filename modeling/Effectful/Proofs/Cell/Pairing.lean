import Effectful.Proofs.Cell.History
import Effectful.Proofs.Routine.Expansion
import Effectful.Proofs.Work.Likeness
import Mathlib.Order.BoundedOrder.Basic
/-!
# Cells that stand for each other

Cells are numbered as they come, so two runs of one routine have different cells, and the cells of the one stand
for those of the other. Actions that are told cells which stand for each other change these cells alone, and go
on to cells which do. What mentions no cell from outside is built from such actions, beginning with no cell at all.
-/
namespace Effectful

variable {W V E α β : Type}

/-- Which cells of two worlds stand for each other. -/
structure Pairing where
  rel : Cell → Cell → Prop
  unique : ∀ {c d d' : Cell}, rel c d → rel c d' → d = d'
  unique' : ∀ {c c' d : Cell}, rel c d → rel c' d → c = c'

namespace Pairing

instance : Preorder Pairing := Preorder.lift rel

instance : OrderBot Pairing where
  bot := ⟨fun _ _ => False,nofun,nofun⟩
  bot_le _ _ _ h := h.elim

variable {ρ σ τ : Pairing}

def left (ρ : Pairing) : Set Cell := { c | ∃ d, ρ.rel c d }

def right (ρ : Pairing) : Set Cell := { d | ∃ c, ρ.rel c d }

@[simp] theorem left_bot : (⊥ : Pairing).left = ∅ := Set.eq_empty_of_forall_notMem fun _ ⟨_,h⟩ => h

theorem left_mono (h : ρ ≤ σ) : ρ.left ⊆ σ.left := fun _ ⟨d,hd⟩ => ⟨d,h _ _ hd⟩

theorem right_mono (h : ρ ≤ σ) : ρ.right ⊆ σ.right := fun _ ⟨c,hc⟩ => ⟨c,h _ _ hc⟩

def extend (ρ : Pairing) {c d : Cell} (hc : c ∉ ρ.left) (hd : d ∉ ρ.right) : Pairing where
  rel c' d' := ρ.rel c' d' ∨ c' = c ∧ d' = d
  unique := by
    rintro c' d' d'' (h | ⟨rfl,rfl⟩) (h' | ⟨heq,rfl⟩)
    · exact ρ.unique h h'
    · exact (hc ⟨_,heq ▸ h⟩).elim
    · exact (hc ⟨_,h'⟩).elim
    · rfl
  unique' := by
    rintro c' c'' d' (h | ⟨rfl,rfl⟩) (h' | ⟨rfl,heq⟩)
    · exact ρ.unique' h h'
    · exact (hd ⟨_,heq ▸ h⟩).elim
    · exact (hd ⟨_,h'⟩).elim
    · rfl

theorem le_extend {c d : Cell} (hc : c ∉ ρ.left) (hd : d ∉ ρ.right) : ρ ≤ ρ.extend hc hd :=
  fun _ _ => .inl

def cell : Likeness Pairing Cell := ⟨rel,fun _ _ h => h⟩

end Pairing

variable [HasStore W V]

variable (V) in
/-- A run had created the cells `own` in the world `w`, and has created `own'` in `v`. The cells that it has
created were new, and no other cell is new; and it has changed no cell that it had not created. -/
structure Cell.Grows (own own' : Set Cell) (w v : W) : Prop where
  alive : ∀ c : Cell, c.content (V := V) v = none → c.content (V := V) w = none
  kept : ∀ (c : Cell) (x : V), c.content w = some x → c ∉ own → c.content v = some x
  new : ∀ c ∈ own', c ∈ own ∨ c.content (V := V) w = none
  covers : ∀ c : Cell, c.content (V := V) w = none → c.content (V := V) v = none ∨ c ∈ own'

namespace Cell.Grows

variable {own own' own'' : Set Cell} {w v u : W}

theorem refl (own : Set Cell) (w : W) : Grows V own own w w :=
  ⟨fun _ h => h,fun _ _ h _ => h,fun _ h => .inl h,fun _ h => .inl h⟩

theorem trans (hown : own' ⊆ own'') (h : Grows V own own' w v) (h' : Grows V own' own'' v u) :
    Grows V own own'' w u where
  alive c hc := h.alive c (h'.alive c hc)
  kept c x hx hc := by
    refine h'.kept c x (h.kept c x hx hc) fun hc' => ?_
    rcases h.new c hc' with hc' | hnone
    · exact hc hc'
    · cases hnone.symm.trans hx
  new c hc := (h'.new c hc).elim (fun hc => h.new c hc) fun hnone => .inr (h.alive c hnone)
  covers c hc := (h.covers c hc).elim (h'.covers c) fun hc => .inr (hown hc)

theorem frame (h : Grows V own own' w v) (others : Set Cell) : Grows V (own ∪ others) (own' ∪ others) w v where
  alive := h.alive
  kept c x hx hc := h.kept c x hx fun hown => hc (.inl hown)
  new c hc := hc.elim (fun hc => (h.new c hc).imp_left .inl) fun hc => .inl (.inr hc)
  covers c hc := (h.covers c hc).imp_right .inl

end Cell.Grows

/-- Cells that stand for each other hold values that are alike. -/
def Pairing.Matches (held : Likeness Pairing V) (ρ : Pairing) (w w' : W) : Prop :=
  ∀ c d, ρ.rel c d → ∃ x y, c.content w = some x ∧ d.content w' = some y ∧ held ρ x y

variable (V) in
/-- The same entries are logged in both worlds, and the cells which stand for each other are those that two runs
have created. -/
structure Pairing.Grown (log : W → List E) (ρ : Pairing) (w w' : W) (σ : Pairing) (v v' : W) : Prop where
  le : ρ ≤ σ
  left : Cell.Grows V ρ.left σ.left w v
  right : Cell.Grows V ρ.right σ.right w' v'
  log : ∃ es, log v = log w ++ es ∧ log v' = log w' ++ es

/-- Worlds in which two runs of one routine have cells that stand for each other. -/
def Pairing.matching (held : Likeness Pairing V) (log : W → List E) : Matching Pairing W W where
  between := Matches held
  change := Grown V log
  refl ρ w w' := ⟨le_rfl,.refl _ _,.refl _ _,[],by simp,by simp⟩
  trans {ρ σ τ w v u w' v' u'} h h' := by
    obtain ⟨es,hv,hv'⟩ := h.log
    obtain ⟨es',hu,hu'⟩ := h'.log
    refine ⟨h.le.trans h'.le,h.left.trans (left_mono h'.le) h'.left,
      h.right.trans (right_mono h'.le) h'.right,es ++ es',?_,?_⟩
    · rw [hu,hv,List.append_assoc]
    · rw [hu',hv',List.append_assoc]

theorem Action.acts_log {held : Likeness Pairing V} {log : W → List E} {ρ : Pairing} {S : Likeness Pairing α}
    {t : Action W α} {x : Outcome α} {es : List E} (hx : S.outcome ρ x x)
    (ht : ∀ w, (t w).1 = x ∧ HasStore.store (V := V) (t w).2 = HasStore.store w ∧
      log (t w).2 = log w ++ es) : (Pairing.matching held log).Acts ρ S.outcome t t := by
  have hcontent : ∀ (c : Cell) w, c.content (V := V) (t w).2 = c.content w := fun c w => by
    unfold Cell.content
    rw [(ht w).2.1]
  have hgrows : ∀ (own : Set Cell) w, Cell.Grows V own own w (t w).2 := fun own w =>
    ⟨fun c hc => hcontent c w ▸ hc,fun c _ hc _ => (hcontent c w).trans hc,fun _ h => .inl h,
      fun c hc => .inl ((hcontent c w).trans hc)⟩
  intro σ hρσ w w' hmatches
  refine ⟨σ,le_rfl,?_,fun c d h => ?_,le_rfl,hgrows _ w,hgrows _ w',es,(ht w).2.2,(ht w').2.2⟩
  · rw [(ht w).1,(ht w').1]
    exact S.outcome.mono hρσ hx
  · rw [hcontent,hcontent]
    exact hmatches c d h

namespace Cell

def next (V : Type) [HasStore W V] (w : W) : Cell := ⟨(HasStore.store (V := V) w).size⟩

theorem content_next (w : W) : (next V w).content (V := V) w = none := by
  simp [content,next]

variable [LawfulStore W V]

theorem content_allocate_next (x : V) (w : W) : (next V w).content (allocate x w).2 = some x := by
  simp [content,next,allocate,LawfulStore.store_modifyStore]

theorem content_allocate_ne {c : Cell} {w : W} (hc : c ≠ next V w) (x : V) :
    c.content (V := V) (allocate x w).2 = c.content w := by
  have hindex : c.index ≠ (HasStore.store (V := V) w).size := fun h => hc (by cases c; cases h; rfl)
  simp [content,allocate,LawfulStore.store_modifyStore,Array.getElem?_push,hindex]

theorem grows_allocate (x : V) (w : W) {own own' : Set Cell} (hown : ∀ c, c ∈ own' ↔ c ∈ own ∨ c = next V w) :
    Grows V own own' w (allocate x w).2 where
  alive c hc := by
    by_cases hnext : c = next V w
    · rw [hnext]
      exact content_next w
    · rwa [content_allocate_ne hnext] at hc
  kept c y hy _ := content_allocate hy x
  new c hc := by
    rcases (hown c).mp hc with hc | rfl
    · exact .inl hc
    · exact .inr (content_next w)
  covers c hc := by
    by_cases hnext : c = next V w
    · exact .inr ((hown c).mpr (.inr hnext))
    · rw [content_allocate_ne hnext]
      exact .inl hc

theorem grows_write {c : Cell} {w : W} {x : V} (hx : c.content w = some x) (y : V) {own : Set Cell}
    (hc : c ∈ own) : Grows V own own w (write c y w).2 where
  alive d hd := by
    by_cases hdc : c = d
    · rw [← hdc,content_write hx] at hd
      cases hd
    · rwa [content_write_ne hdc] at hd
  kept d z hz hd := by
    have hne : c ≠ d := by
      rintro rfl
      exact hd hc
    rw [content_write_ne hne]
    exact hz
  new d hd := .inl hd
  covers d hd := by
    by_cases hdc : c = d
    · exact .inr (hdc ▸ hc)
    · rw [content_write_ne hdc]
      exact .inl hd

variable {held : Likeness Pairing V} {log : W → List E} {ρ : Pairing}
  (hlog : ∀ (g : Array V → Array V) (w : W), log (HasStore.modifyStore g w) = log w)

include hlog

theorem acts_allocate {x y : V} (hxy : held ρ x y) :
    (Pairing.matching held log).Acts ρ Pairing.cell.outcome (allocate x) (allocate y) := by
  intro σ hρσ w w' hmatches
  have hleft : next V w ∉ σ.left := by
    rintro ⟨d,hd⟩
    obtain ⟨_,_,hc,-⟩ := hmatches _ d hd
    cases (content_next w).symm.trans hc
  have hright : next V w' ∉ σ.right := by
    rintro ⟨c,hc⟩
    obtain ⟨_,_,-,hd,-⟩ := hmatches c _ hc
    cases (content_next w').symm.trans hd
  refine ⟨σ.extend hleft hright,Pairing.le_extend hleft hright,.ok (.inr ⟨rfl,rfl⟩),?_,
    Pairing.le_extend hleft hright,grows_allocate x w fun c => ?_,grows_allocate y w' fun d => ?_,[],?_,?_⟩
  · rintro c d (hcd | ⟨rfl,rfl⟩)
    · obtain ⟨a,b,ha,hb,hab⟩ := hmatches c d hcd
      exact ⟨a,b,content_allocate ha x,content_allocate hb y,held.mono (Pairing.le_extend hleft hright) hab⟩
    · refine ⟨x,y,content_allocate_next x w,content_allocate_next y w',?_⟩
      exact held.mono (hρσ.trans (Pairing.le_extend hleft hright)) hxy
  · simp [Pairing.left,Pairing.extend,exists_or]
  · simp [Pairing.right,Pairing.extend,exists_or]
  · simp [allocate,hlog]
  · simp [allocate,hlog]

omit hlog [LawfulStore W V] in
theorem acts_read {c d : Cell} (hcd : ρ.rel c d) :
    (Pairing.matching held log).Acts ρ held.outcome (read c) (read d) := by
  intro σ hρσ w w' hmatches
  obtain ⟨x,y,hx,hy,hxy⟩ := hmatches c d (hρσ c d hcd)
  rw [read_eq hx,read_eq hy]
  exact ⟨σ,le_rfl,.ok hxy,hmatches,(Pairing.matching held log).refl ..⟩

theorem acts_write {c d : Cell} (hcd : ρ.rel c d) {x y : V} (hxy : held ρ x y) :
    (Pairing.matching held log).Acts ρ held.outcome (write c x) (write d y) := by
  intro σ hρσ w w' hmatches
  have hcd' := hρσ c d hcd
  obtain ⟨_,_,hc,hd,-⟩ := hmatches c d hcd'
  refine ⟨σ,le_rfl,.ok (held.mono hρσ hxy),fun c' d' h => ?_,le_rfl,grows_write hc x ⟨d,hcd'⟩,
    grows_write hd y ⟨c,hcd'⟩,[],?_,?_⟩
  · -- Of two cells that stand for each other, both are written or neither is.
    by_cases hcc : c = c'
    · subst hcc
      obtain rfl := σ.unique hcd' h
      exact ⟨x,y,content_write hc x,content_write hd y,held.mono hρσ hxy⟩
    · have hdd : d ≠ d' := fun heq => hcc (σ.unique' hcd' (heq ▸ h))
      rw [content_write_ne hcc,content_write_ne hdd]
      exact hmatches c' d' h
  · simp [write,hlog]
  · simp [write,hlog]

end Cell

section Routines

variable {I W' : Type} [Preorder I] (m : Matching I W W')

/-- Routines are alike that are built alike, of work that is alike. -/
inductive Program.Akin : {α : Type} → I → Likeness I α → Routine Unit W α → Routine Unit W' α → Prop
  | done {α : Type} {i : I} {S : Likeness I α} {a a' : α} (h : S i a a') : Akin i S (.done a) (.done a')
  | effect {α : Type} {i : I} {S : Likeness I α} {work : Work Unit W α} {work' : Work Unit W' α}
      (h : work.Akin m i S work') : Akin i S (.effect work) (.effect work')
  | bind {α β : Type} {i : I} {S : Likeness I α} (T : Likeness I β) {sub : Routine Unit W β}
      {sub' : Routine Unit W' β} {k : β → Unit → Routine Unit W α} {k' : β → Unit → Routine Unit W' α}
      (h : Akin i T sub sub') (hk : ∀ j, i ≤ j → ∀ b b', T j b b' → Akin j S (k b ()) (k' b' ())) :
      Akin i S (.bind sub k) (.bind sub' k')
  | malformed {α : Type} {i : I} {S : Likeness I α} (tag : String) : Akin i S (.malformed tag) (.malformed tag)
  | raise {α : Type} {i : I} {S : Likeness I α} (e : Failure) : Akin i S (.raise e) (.raise e)

namespace Program.Akin

variable {m} {i : I} {S : Likeness I α} {T : Likeness I β}

private theorem work_below {p : Routine Unit W β} {p' : Routine Unit W' β} (h : p.Akin m i T p')
    {k : β → Unit → Routine Unit W α} {k' : β → Unit → Routine Unit W' α}
    (hk : ∀ j, i ≤ j → ∀ b b', T j b b' → ((k b ()).work ()).Akin m j S ((k' b' ()).work ())) :
    (Routine.work (.bind p k) ()).Akin m i S (Routine.work (.bind p' k') ()) := by
  induction h generalizing α with
  | done h =>
    simp only [Routine.work_bind_done]
    exact hk _ le_rfl _ _ h
  | @effect _ _ T _ _ h =>
    simp only [Routine.work_bind_effect]
    exact .fork (.andThen T h hk)
  | bind U h hnext ih ihnext =>
    simp only [Routine.work_bind_bind]
    exact ih fun j hij b b' hb => ihnext j hij b b' hb fun l hjl => hk l (hij.trans hjl)
  | malformed tag =>
    simp only [Routine.work_bind_malformed]
    exact .reject _
  | raise e =>
    simp only [Routine.work_bind_raise]
    exact .reject e

theorem work {p : Routine Unit W α} {p' : Routine Unit W' α} (h : p.Akin m i S p') :
    (p.work ()).Akin m i S (p'.work ()) := by
  induction h with
  | done h =>
    simp only [Routine.work_done]
    exact .answer h
  | effect h =>
    simp only [Routine.work_effect]
    exact h
  | bind T h hk _ ih => exact work_below h ih
  | malformed tag =>
    simp only [Routine.work_malformed]
    exact .reject _
  | raise e =>
    simp only [Routine.work_raise]
    exact .reject e

end Program.Akin

end Routines

section SelfContained

variable (held : Likeness Pairing V) (log : W → List E)

/-- The routine mentions no cell from outside, answers plainly and does not look at the log: it is like itself
where no cell stands for any other yet. -/
def Routine.SelfContained (p : Routine Unit W α) : Prop :=
  p.Akin (Pairing.matching held log) ⊥ (Likeness.plain Pairing α) p

variable {held log} {ρ : Pairing} [LawfulStore W V]
  (hlog : ∀ (g : Array V → Array V) (w : W), log (HasStore.modifyStore g w) = log w)

namespace Cell

variable {c d : Cell}

include hlog

theorem akin_ref {x y : V} (hxy : held ρ x y) :
    (ref x : Routine Unit W Cell).Akin (Pairing.matching held log) ρ Pairing.cell (ref y) :=
  .effect (.delay (acts_allocate hlog hxy))

omit hlog [LawfulStore W V] in
theorem akin_get (hcd : ρ.rel c d) :
    (get c : Routine Unit W V).Akin (Pairing.matching held log) ρ held (get d) :=
  .effect (.delay (acts_read hcd))

theorem akin_set (hcd : ρ.rel c d) {x y : V} (hxy : held ρ x y) :
    (set c x : Routine Unit W V).Akin (Pairing.matching held log) ρ held (set d y) :=
  .effect (.delay (acts_write hlog hcd hxy))

theorem akin_modify (hcd : ρ.rel c d) {f g : V → Unit → Outcome V}
    (hfg : ∀ σ, ρ ≤ σ → ∀ x y, held σ x y → held.outcome σ (f x ()) (g y ())) :
    (modify c f : Routine Unit W V).Akin (Pairing.matching held log) ρ held (modify d g) := by
  refine .bind held (akin_get hcd) fun σ hρσ x y hxy => ?_
  have hfg' := hfg σ hρσ x y hxy
  generalize f x () = z at hfg' ⊢
  generalize g y () = z' at hfg' ⊢
  cases hfg' with
  | ok h => exact akin_set hlog (hρσ _ _ hcd) h
  | error e => exact .raise e

end Cell

end SelfContained

end Effectful
