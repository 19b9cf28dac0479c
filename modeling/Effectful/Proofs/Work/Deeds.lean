import Effectful.Proofs.Work.Requests
/-!
# The deeds of work

What work does on its way to an outcome is accounted for by the shape of the work: every part that is started has
one outcome, every effect of it is performed once, and a continuation is applied once to an answer. The world
changes through these deeds only. Effects of callbacks that are called again may still be open when the outcome
is known.
-/
namespace Effectful

variable {R W α β γ : Type}

/-- Something that was done, and the world in which it was done. -/
structure Deed (W : Type) where
  effect : W → W
  world : W

namespace Deed

def act (t : Action W α) (w : W) : Deed W := ⟨fun w => (t w).2,w⟩

def call (answer : W → α × W) (w : W) : Deed W := ⟨fun w => (answer w).2,w⟩

/-- A continuation that was applied. It leaves the world as it is. -/
def look (w : W) : Deed W := ⟨id,w⟩

end Deed

/-- One after another, the deeds lead from the world `w` to the world `v`. -/
def Leads (w : W) : List (Deed W) → W → Prop
  | [], v => w = v
  | deed :: deeds, v => deed.world = w ∧ Leads (deed.effect w) deeds v

theorem Leads.append {w u v : W} {ds es : List (Deed W)} (h : Leads w ds u) (h' : Leads u es v) :
    Leads w (ds ++ es) v := by
  induction ds generalizing w with
  | nil =>
    obtain rfl := h
    exact h'
  | cons deed ds ih => exact ⟨h.1,ih h.2⟩

def Reply.effects (later : List (W → α × W)) : Multiset (W → W) := later.map fun answer w => (answer w).2

/-- Work comes to an outcome by the deeds `d`. The effects `s` of late calls are still open. -/
inductive Work.Comes [View W R] : {α : Type} → Work R W α → Outcome α → Multiset (Deed W) → Multiset (W → W) → Prop
  | answer {α : Type} (a : α) : Comes (.answer a) (.ok a) 0 0
  | reject {α : Type} (e : Failure) : Comes (.reject e : Work R W α) (.error e) 0 0
  | delay {α : Type} (t : Action W α) (w : W) : Comes (.delay t) (t w).1 {.act t w} 0
  | fork {α : Type} {work : Work R W α} {x : Outcome α} {d : Multiset (Deed W)} {s : Multiset (W → W)} :
      Comes work x d s → Comes (.fork work) x d s
  | callback_failed {α : Type} {register : Action W (Reply W α)} {w : W} {e : Failure} :
      (register w).1 = .error e → Comes (.callback register) (.error e) {.act register w} 0
  | callback_now {α : Type} {register : Action W (Reply W α)} {w : W} {a : α} {now : List α}
      {later : List (W → α × W)} {late : Multiset (Deed W)} {s : Multiset (W → W)} :
      (register w).1 = .ok ⟨a :: now,later⟩ → late.map Deed.effect + s = Reply.effects later →
      Comes (.callback register) (.ok a) (.act register w ::ₘ late) s
  | callback_later {α : Type} {register : Action W (Reply W α)} {w u : W} {first : W → α × W}
      {later : List (W → α × W)} {late : Multiset (Deed W)} {s : Multiset (W → W)} :
      (register w).1 = .ok ⟨[],first :: later⟩ → late.map Deed.effect + s = Reply.effects later →
      Comes (.callback register) (.ok (first u).1) (.act register w ::ₘ .call first u ::ₘ late) s
  | andThen {α β : Type} {work : Work R W β} {f : β → R → Work R W α} {b : β} {x : Outcome α}
      {d d' : Multiset (Deed W)} {s s' : Multiset (W → W)} (u : W) :
      Comes work (.ok b) d s → Comes (f b (View.look u)) x d' s' →
      Comes (.andThen work f) x (d + .look u ::ₘ d') (s + s')
  | andThen_failed {α β : Type} {work : Work R W β} {f : β → R → Work R W α} {e : Failure}
      {d : Multiset (Deed W)} {s : Multiset (W → W)} :
      Comes work (.error e) d s → Comes (.andThen work f) (.error e) d s
  | both {α β γ : Type} {left : Work R W β} {right : Work R W γ} {f : β → γ → R → Outcome α} {a : β} {b : γ}
      {d d' : Multiset (Deed W)} {s s' : Multiset (W → W)} (u : W) :
      Comes left (.ok a) d s → Comes right (.ok b) d' s' →
      Comes (.both left right f) (f a b (View.look u)) (.look u ::ₘ (d + d')) (s + s')
  | both_failed {α β γ : Type} {left : Work R W β} {right : Work R W γ} {f : β → γ → R → Outcome α}
      {x : Outcome β} {y : Outcome γ} {e : Failure} {d d' : Multiset (Deed W)} {s s' : Multiset (W → W)} :
      Comes left x d s → Comes right y d' s' → (x = .error e ∨ y = .error e) →
      Comes (.both left right f) (.error e) (d + d') (s + s')

/-- Started, the work has become a task by the deeds `d`. The effects `s` of late calls are still open. -/
inductive Work.Becomes [View W R] : {α : Type} → Work R W α → Task R W α → Multiset (Deed W) → Multiset (W → W) → Prop
  | settled {α : Type} {work : Work R W α} {x : Outcome α} {d : Multiset (Deed W)} {s : Multiset (W → W)} :
      work.Comes x d s → Becomes work (.settled x) d s
  | asleep {α : Type} (work : Work R W α) : Becomes (.fork work) (.asleep work) 0 0
  | awake {α : Type} {work : Work R W α} {t : Task R W α} {d : Multiset (Deed W)} {s : Multiset (W → W)} :
      Becomes work t d s → Becomes (.fork work) t d s
  | listening {α : Type} {register : Action W (Reply W α)} {w : W} {first : W → α × W}
      {later : List (W → α × W)} {late : Multiset (Deed W)} {s : Multiset (W → W)} :
      (register w).1 = .ok ⟨[],first :: later⟩ → late.map Deed.effect + s = Reply.effects later →
      Becomes (.callback register) (.listening first) (.act register w ::ₘ late) s
  | silent {α : Type} {register : Action W (Reply W α)} {w : W} :
      (register w).1 = .ok ⟨[],[]⟩ → Becomes (.callback register) .silent {.act register w} 0
  | chain {α β : Type} {work : Work R W β} {t : Task R W β} {f : β → R → Work R W α}
      {d : Multiset (Deed W)} {s : Multiset (W → W)} :
      Becomes work t d s → Becomes (.andThen work f) (.chain t f none) d s
  | chain_failed {α β : Type} {work : Work R W β} {t : Task R W β} {f : β → R → Work R W α} {e : Failure}
      {d : Multiset (Deed W)} {s : Multiset (W → W)} : t.outcome? = some (.error e) →
      Becomes work t d s → Becomes (.andThen work f) (.chain t f (some e)) d s
  | goneOn {α β : Type} {work : Work R W β} {f : β → R → Work R W α} {b : β} {t : Task R W α}
      {d d' : Multiset (Deed W)} {s s' : Multiset (W → W)} (u : W) :
      work.Comes (.ok b) d s → Becomes (f b (View.look u)) t d' s' →
      Becomes (.andThen work f) t (d + .look u ::ₘ d') (s + s')
  | relay {α : Type} {work : Work R W α} {t : Task R W α} {d : Multiset (Deed W)} {s : Multiset (W → W)}
      (steps : Nat) : Becomes work t d s → Becomes work (.relay t steps) d s
  | pair {α β γ : Type} {left : Work R W β} {right : Work R W γ} {f : β → γ → R → Outcome α}
      {t : Task R W β} {u : Task R W γ} {d d' : Multiset (Deed W)} {s s' : Multiset (W → W)} (steps : Nat) :
      Becomes left t d s → Becomes right u d' s' →
      Becomes (.both left right f) (.pair t u f none steps) (d + d') (s + s')
  | pair_failed {α β γ : Type} {left : Work R W β} {right : Work R W γ} {f : β → γ → R → Outcome α}
      {t : Task R W β} {u : Task R W γ} {e : Failure} {d d' : Multiset (Deed W)} {s s' : Multiset (W → W)}
      (steps : Nat) : (t.outcome? = some (.error e) ∨ u.outcome? = some (.error e)) →
      Becomes left t d s → Becomes right u d' s' →
      Becomes (.both left right f) (.pair t u f (some e) steps) (d + d') (s + s')

namespace Work

variable [View W R] {work : Work R W α} {d : Multiset (Deed W)} {s : Multiset (W → W)}

theorem Becomes.comes {x : Outcome α} (h : work.Becomes (.settled x) d s) : work.Comes x d s := by
  generalize ht : Task.settled x = t at h
  induction h with
  | settled h =>
    cases ht
    exact h
  | awake _ ih => exact .fork (ih ht)
  | goneOn u hwork _ ih => exact .andThen u hwork (ih ht)
  | _ => cases ht

private theorem open_cases {g : W → W} {s₀ s s' : Multiset (W → W)} (h : g ::ₘ s₀ = s + s') :
    (∃ t, s = g ::ₘ t ∧ s₀ = t + s') ∨ ∃ t, s' = g ::ₘ t ∧ s₀ = s + t := by
  have hmem : g ∈ s + s' := h ▸ Multiset.mem_cons_self ..
  rcases Multiset.mem_add.mp hmem with hleft | hright
  · obtain ⟨t,rfl⟩ := Multiset.exists_cons_of_mem hleft
    exact .inl ⟨t,rfl,by simpa using h⟩
  · obtain ⟨t,rfl⟩ := Multiset.exists_cons_of_mem hright
    exact .inr ⟨t,rfl,by simpa using h⟩

private theorem close_late {later : List (W → α × W)} {g : W → W} {late : Multiset (Deed W)} {s : Multiset (W → W)}
    (h : late.map Deed.effect + (g ::ₘ s) = Reply.effects later) (w : W) :
    ((⟨g,w⟩ : Deed W) ::ₘ late).map Deed.effect + s = Reply.effects later := by
  rw [← h]
  simp

theorem Comes.close {x : Outcome α} {g : W → W} (h : work.Comes x d (g ::ₘ s)) (w : W) :
    work.Comes x (⟨g,w⟩ ::ₘ d) s := by
  generalize hs : g ::ₘ s = r at h
  induction h generalizing s with
  | answer | reject | delay | callback_failed => cases Multiset.cons_ne_zero hs
  | fork _ ih => exact .fork (ih hs)
  | callback_now hreply hlate =>
    subst hs
    rw [Multiset.cons_swap]
    exact .callback_now hreply (close_late hlate w)
  | callback_later hreply hlate =>
    subst hs
    rw [Multiset.cons_swap (Deed.mk g w),Multiset.cons_swap (Deed.mk g w)]
    exact .callback_later hreply (close_late hlate w)
  | andThen u hwork hnext ihwork ihnext =>
    rcases open_cases hs with ⟨t,rfl,rfl⟩ | ⟨t,rfl,rfl⟩
    · rw [← Multiset.cons_add]
      exact .andThen u (ihwork rfl) hnext
    · rw [← Multiset.add_cons,Multiset.cons_swap]
      exact .andThen u hwork (ihnext rfl)
  | andThen_failed _ ih => exact .andThen_failed (ih hs)
  | both u hleft hright ihl ihr =>
    rw [Multiset.cons_swap]
    rcases open_cases hs with ⟨t,rfl,rfl⟩ | ⟨t,rfl,rfl⟩
    · rw [← Multiset.cons_add]
      exact .both u (ihl rfl) hright
    · rw [← Multiset.add_cons]
      exact .both u hleft (ihr rfl)
  | both_failed hleft hright he ihl ihr =>
    rcases open_cases hs with ⟨t,rfl,rfl⟩ | ⟨t,rfl,rfl⟩
    · rw [← Multiset.cons_add]
      exact .both_failed (ihl rfl) hright he
    · rw [← Multiset.add_cons]
      exact .both_failed hleft (ihr rfl) he

theorem Becomes.close {t : Task R W α} {g : W → W} (h : work.Becomes t d (g ::ₘ s)) (w : W) :
    work.Becomes t (⟨g,w⟩ ::ₘ d) s := by
  generalize hs : g ::ₘ s = r at h
  induction h generalizing s with
  | settled h =>
    subst hs
    exact .settled (h.close w)
  | asleep | silent => cases Multiset.cons_ne_zero hs
  | awake _ ih => exact .awake (ih hs)
  | listening hreply hlate =>
    subst hs
    rw [Multiset.cons_swap]
    exact .listening hreply (close_late hlate w)
  | chain _ ih => exact .chain (ih hs)
  | chain_failed he _ ih => exact .chain_failed he (ih hs)
  | goneOn u hwork hnext ih =>
    rcases open_cases hs with ⟨t,rfl,rfl⟩ | ⟨t,rfl,rfl⟩
    · rw [← Multiset.cons_add]
      exact .goneOn u (hwork.close w) hnext
    · rw [← Multiset.add_cons,Multiset.cons_swap]
      exact .goneOn u hwork (ih rfl)
  | relay steps _ ih => exact .relay steps (ih hs)
  | pair steps hleft hright ihl ihr =>
    rcases open_cases hs with ⟨t,rfl,rfl⟩ | ⟨t,rfl,rfl⟩
    · rw [← Multiset.cons_add]
      exact .pair steps (ihl rfl) hright
    · rw [← Multiset.add_cons]
      exact .pair steps hleft (ihr rfl)
  | pair_failed steps he hleft hright ihl ihr =>
    rcases open_cases hs with ⟨t,rfl,rfl⟩ | ⟨t,rfl,rfl⟩
    · rw [← Multiset.cons_add]
      exact .pair_failed steps he (ihl rfl) hright
    · rw [← Multiset.add_cons]
      exact .pair_failed steps he hleft (ihr rfl)

end Work

/-- The open effects of late calls that a queue holds. -/
def Queue.late (q : Queue W) : Multiset (W → W) :=
  (q.turns.filterMap fun turn => match turn with
    | .resume _ => none
    | .stray effect => some effect : List (W → W))

namespace Queue

variable (q : Queue W)

@[simp] theorem late_resume (path : Path) : (q.postTurn (.resume path)).late = q.late := by
  simp [late,postTurn]

@[simp] theorem late_postStrays (later : List (W → α × W)) :
    (q.postStrays later).late = q.late + Reply.effects later := by
  simp only [late,postStrays,Reply.effects,List.filterMap_append,List.filterMap_map,← Multiset.coe_add]
  congr 2
  simp only [Function.comp_def,List.filterMap_eq_map']

end Queue

namespace Task

private theorem above_keeps (t : Task R W β) (f : β → R → Work R W α) (path : Path) (q : Queue W) :
    (above t f path q).2.world = q.world ∧ (above t f path q).2.late = q.late := by
  unfold above
  split <;> exact ⟨rfl,rfl⟩

private theorem passOn_keeps (t : Task R W α) (steps : Nat) (path : Path) (q : Queue W) :
    (passOn t steps path q).2.world = q.world ∧ (passOn t steps path q).2.late = q.late := by
  rw [passOn_eq]
  dsimp only
  split <;> exact ⟨rfl,rfl⟩

private theorem beside_keeps (t : Task R W β) (u : Task R W γ) (f : β → γ → R → Outcome α) (path : Path)
    (q : Queue W) : (beside t u f path q).2.world = q.world ∧ (beside t u f path q).2.late = q.late := by
  rcases beside_queue t u f path q with h | h <;> rw [h] <;> exact ⟨rfl,rfl⟩

end Task

/-- Before, the work had done the deeds `d` and had the effects `s` open; what has been started or visited has
done some more, and has left their open effects in the queue. -/
def Work.Goes [View W R] (work : Work R W α) (d : Multiset (Deed W)) (s : Multiset (W → W)) (q : Queue W)
    (place : Task R W α × Queue W) : Prop :=
  ∃ (ds : List (Deed W)) (s' : Multiset (W → W)), work.Becomes place.1 (d + ds) (s + s') ∧
    Leads q.world ds place.2.world ∧ place.2.late = q.late + s'

namespace Work

variable [View W R] {work : Work R W α} {d : Multiset (Deed W)} {s : Multiset (W → W)} {q : Queue W}

theorem Becomes.stays {place : Task R W α × Queue W} (h : work.Becomes place.1 d s)
    (hworld : place.2.world = q.world) (hlate : place.2.late = q.late) : work.Goes d s q place :=
  ⟨[],0,by simpa using h,hworld.symm,by simpa using hlate⟩

theorem Goes.map {part : Work R W β} {d₀ : Multiset (Deed W)} {s₀ : Multiset (W → W)}
    {place : Task R W β × Queue W} {whole : Task R W α × Queue W} (h : part.Goes d₀ s₀ q place)
    (ht : ∀ ds s', part.Becomes place.1 (d₀ + ds) (s₀ + s') → work.Becomes whole.1 (d + ds) (s + s'))
    (hworld : whole.2.world = place.2.world) (hlate : whole.2.late = place.2.late) : work.Goes d s q whole := by
  obtain ⟨ds,s',hplace,hleads,hq⟩ := h
  exact ⟨ds,s',ht _ _ hplace,hworld ▸ hleads,hlate.trans hq⟩

theorem Goes.after {place : Task R W α × Queue W} {q' : Queue W} {ds : List (Deed W)} {r : Multiset (W → W)}
    (hleads : Leads q.world ds q'.world) (hq : q'.late = q.late + r) (h : work.Goes (d + ds) (s + r) q' place) :
    work.Goes d s q place := by
  obtain ⟨es,s',hplace,hleads',hq'⟩ := h
  refine ⟨ds ++ es,r + s',?_,hleads.append hleads',by rw [hq',hq,add_assoc]⟩
  rwa [← Multiset.coe_add,← add_assoc,← add_assoc]

theorem Becomes.beside {left : Work R W β} {right : Work R W γ} {t : Task R W β} {u : Task R W γ}
    {d' : Multiset (Deed W)} {s' : Multiset (W → W)} (hl : left.Becomes t d s) (hr : right.Becomes u d' s')
    (f : β → γ → R → Outcome α) (path : Path) (q : Queue W) :
    (both left right f).Becomes (Task.beside t u f path q).1 (d + d') (s + s') := by
  unfold Task.beside
  split
  case h_1 he => exact .pair_failed 2 (.inl he) hl hr
  case h_2 he _ => exact .pair_failed 2 (.inr he) hl hr
  case h_3 => exact .pair 2 hl hr
  case h_4 => exact .pair 2 hl hr

/-- Started work has done what stands before its first turn. -/
theorem start_goes (work : Work R W α) (here : Path) (q : Queue W) :
    work.Goes 0 0 q (Task.start work here q) := by
  induction work generalizing here q with
  | answer a => exact (Becomes.settled (.answer a)).stays rfl rfl
  | reject e => exact (Becomes.settled (.reject e)).stays rfl rfl
  | delay t =>
    obtain ⟨w,jobs,turns⟩ := q
    exact ⟨[.act t w],0,.settled (.delay t w),⟨rfl,rfl⟩,(add_zero _).symm⟩
  | fork work ih => exact (Becomes.asleep work).stays rfl (q.late_resume here)
  | callback register =>
    obtain ⟨w,jobs,turns⟩ := q
    rw [Task.start_callback]
    rcases hreg : register w with ⟨⟨now,later⟩ | e,w'⟩
    · have hperform : (Queue.mk w jobs turns).perform register = (.ok ⟨now,later⟩,⟨w',jobs,turns⟩) := by
        simp only [Queue.perform,hreg]
      have hleads : Leads w [.act register w] w' := ⟨rfl,congrArg Prod.snd hreg⟩
      have hreply : (register w).1 = .ok ⟨now,later⟩ := congrArg Prod.fst hreg
      have hnone : ∀ s : Multiset (W → W), (0 : Multiset (Deed W)).map Deed.effect + s = s := zero_add
      rw [hperform]
      cases now with
      | cons a now =>
        refine ⟨_,Reply.effects later,.settled ?_,hleads,Queue.late_postStrays ..⟩
        simpa using Comes.callback_now hreply (hnone _)
      | nil =>
        cases later with
        | nil => exact ⟨_,0,.silent hreply,hleads,(add_zero _).symm⟩
        | cons first later =>
          have hlistening := Becomes.listening (R := R) hreply (hnone _)
          have hlate := Queue.late_postStrays ((Queue.mk w' jobs turns).postTurn (.resume here)) later
          rw [Queue.late_resume] at hlate
          exact ⟨_,Reply.effects later,by rwa [zero_add,zero_add],hleads,hlate⟩
    · have hperform : (Queue.mk w jobs turns).perform register = (.error e,⟨w',jobs,turns⟩) := by
        simp only [Queue.perform,hreg]
      rw [hperform]
      exact ⟨_,0,.settled (.callback_failed (congrArg Prod.fst hreg)),⟨rfl,congrArg Prod.snd hreg⟩,(add_zero _).symm⟩
  | andThen work f ih => exact (ih here q).map (fun _ _ h => .chain h) (Task.above_keeps ..).1 (Task.above_keeps ..).2
  | both left right f ihl ihr =>
    obtain ⟨ds,s',hl,hleads,hq⟩ := ihl (here ++ [.left]) q
    have hright := ihr (here ++ [.right]) (Task.start left (here ++ [.left]) q).2
    refine .after hleads hq ?_
    refine hright.map (fun es r h => ?_) (Task.beside_keeps ..).1 (Task.beside_keeps ..).2
    rw [zero_add] at h
    rw [zero_add] at h
    exact hl.beside h f here _

theorem goOn_goes (work : Work R W α) (here : Path) (q : Queue W) : work.Goes 0 0 q (Task.goOn work here q) := by
  by_cases hwork : ∃ e, work = .reject e
  · obtain ⟨e,rfl⟩ := hwork
    exact (Becomes.settled (.reject e)).stays rfl rfl
  · rw [Task.goOn_eq (fun e he => hwork ⟨e,he⟩)]
    split
    · exact (start_goes work here q).map (fun _ _ h => .relay 1 h) rfl rfl
    · exact (start_goes work here q).map (fun _ _ h => .relay 0 h) rfl rfl

theorem Becomes.relay_steps {t : Task R W α} {steps : Nat} (h : work.Becomes (.relay t steps) d s) (more : Nat) :
    work.Becomes (.relay t more) d s := by
  generalize ht : Task.relay t steps = t' at h
  induction h with
  | awake _ ih => exact .awake (ih ht)
  | goneOn u hwork _ ih => exact .goneOn u hwork (ih ht)
  | relay _ h =>
    cases ht
    exact .relay more h
  | _ => cases ht

theorem Becomes.relayed {t : Task R W α} (h : work.Becomes t d s) (steps : Nat) :
    work.Becomes (t.relayed steps) d s := by
  cases t with
  | relay child more => exact h.relay_steps _
  | _ => exact .relay steps h

section Visit

/-! What a visit does to a part is known, and so what it does to the place above. -/

variable {part : Work R W β} {t : Task R W β} {here rest : Path} {q : Queue W}

private theorem Becomes.visit_chain (h : part.Becomes t d s) (hvisit : part.Goes d s q (t.visit here rest q))
    (f : β → R → Work R W α) : (andThen part f).Goes d s q ((Task.chain t f none).visit here rest q) := by
  cases hx : t.outcome? with
  | none =>
    rw [Task.visit_chain hx]
    exact hvisit.map (fun _ _ h => .chain h) (Task.above_keeps ..).1 (Task.above_keeps ..).2
  | some x =>
    cases x with
    | ok b =>
      obtain rfl := Task.eq_settled_of_ok hx
      simp only [Task.visit,hx]
      have hleads : Leads q.world [.look q.world] q.world := ⟨rfl,rfl⟩
      refine .after hleads (add_zero q.late).symm ?_
      refine (goOn_goes (f b (View.look q.world)) here q).map (fun ds s' hnext => ?_) rfl rfl
      simpa [add_assoc] using Becomes.goneOn q.world h.comes hnext
    | error e =>
      cases rest with
      | nil =>
        simp only [Task.visit,hx]
        exact (Becomes.chain_failed hx h).stays rfl rfl
      | cons side rest =>
        simp only [Task.visit,hx]
        exact hvisit.map (fun _ _ h => .chain h) rfl rfl

private theorem Becomes.visit_relay (h : part.Becomes t d s) (hvisit : part.Goes d s q (t.visit here rest q))
    (steps : Nat) : part.Goes d s q ((Task.relay t steps).visit here rest q) := by
  cases hx : t.outcome? with
  | none =>
    rw [Task.visit_relay hx]
    refine hvisit.map (fun _ _ h => ?_) (Task.passOn_keeps ..).1 (Task.passOn_keeps ..).2
    rw [Task.passOn_eq]
    exact h.relayed steps
  | some x =>
    cases rest with
    | nil =>
      simp only [Task.visit,hx]
      cases steps with
      | zero => exact h.stays rfl rfl
      | succ steps => exact (Becomes.relay steps h).stays rfl rfl
    | cons side rest =>
      simp only [Task.visit,hx]
      exact hvisit.map (fun _ _ h => .relay steps h) rfl rfl

variable {other : Work R W γ} {u : Task R W γ} {d' : Multiset (Deed W)} {s' : Multiset (W → W)}

private theorem Becomes.visit_pair (hl : part.Becomes t d s) (hr : other.Becomes u d' s')
    (hleft : ∀ here rest, part.Goes d s q (t.visit here rest q))
    (hright : ∀ here rest, other.Goes d' s' q (u.visit here rest q)) (f : β → γ → R → Outcome α) (steps : Nat) :
    (both part other f).Goes (d + d') (s + s') q ((Task.pair t u f none steps).visit here rest q) := by
  rcases rest with _ | ⟨side,rest⟩
  · rcases Nat.lt_or_ge steps 2 with hlast | hmore
    · rw [Task.visit_pair_joined t u f hlast]
      split
      case h_1 a b ha hb =>
        obtain rfl := Task.eq_settled_of_ok ha
        obtain rfl := Task.eq_settled_of_ok hb
        refine ⟨[.look q.world],0,.settled ?_,⟨rfl,rfl⟩,(add_zero _).symm⟩
        have hjoined := Comes.both q.world hl.comes hr.comes (f := f)
        rwa [add_zero,Multiset.coe_singleton,add_comm,Multiset.singleton_add]
      case h_2 => exact (Becomes.pair steps hl hr).stays rfl rfl
    · obtain ⟨more,rfl⟩ := Nat.exists_eq_add_of_le' hmore
      exact (Becomes.pair (more + 1) hl hr).stays rfl rfl
  · cases side with
    | left =>
      change Goes _ _ _ q (Task.beside (t.visit (here ++ [.left]) rest q).1 u f here (t.visit (here ++ [.left]) rest q).2)
      refine (hleft (here ++ [.left]) rest).map (fun ds r h => ?_) (Task.beside_keeps ..).1 (Task.beside_keeps ..).2
      rw [add_right_comm d,add_right_comm s]
      exact h.beside hr f here _
    | right =>
      change Goes _ _ _ q (Task.beside t (u.visit (here ++ [.right]) rest q).1 f here (u.visit (here ++ [.right]) rest q).2)
      refine (hright (here ++ [.right]) rest).map (fun ds r h => ?_) (Task.beside_keeps ..).1 (Task.beside_keeps ..).2
      rw [add_assoc d,add_assoc s]
      exact hl.beside h f here _

private theorem Becomes.visit_pair_failed (hl : part.Becomes t d s) (hr : other.Becomes u d' s')
    (hleft : ∀ here rest, part.Goes d s q (t.visit here rest q))
    (hright : ∀ here rest, other.Goes d' s' q (u.visit here rest q)) (f : β → γ → R → Outcome α) (steps : Nat)
    {e : Failure} (he : t.outcome? = some (.error e) ∨ u.outcome? = some (.error e)) :
    (both part other f).Goes (d + d') (s + s') q ((Task.pair t u f (some e) steps).visit here rest q) := by
  rcases rest with _ | ⟨side,rest⟩
  · rcases Nat.lt_or_ge steps 2 with hlast | hmore
    · rw [Task.visit_pair_failed t u f e hlast]
      exact (Becomes.pair_failed 0 he hl hr).stays rfl rfl
    · obtain ⟨more,rfl⟩ := Nat.exists_eq_add_of_le' hmore
      exact (Becomes.pair_failed (more + 1) he hl hr).stays rfl rfl
  · cases side with
    | left =>
      refine (hleft (here ++ [.left]) rest).map (fun ds r h => ?_) rfl rfl
      rw [add_right_comm d,add_right_comm s]
      exact .pair_failed steps (he.imp_left fun he => Task.outcome?_visit he ..) h hr
    | right =>
      refine (hright (here ++ [.right]) rest).map (fun ds r h => ?_) rfl rfl
      rw [add_assoc d,add_assoc s]
      exact .pair_failed steps (he.imp_right fun he => Task.outcome?_visit he ..) hl h

end Visit

/-- A visit does what comes next. -/
theorem Becomes.visit {t : Task R W α} (h : work.Becomes t d s) (here rest : Path) (q : Queue W) :
    work.Goes d s q (t.visit here rest q) := by
  induction h generalizing here rest q with
  | settled h => exact (Becomes.settled h).stays rfl rfl
  | asleep work => exact (start_goes work here q).map (fun _ _ h => .awake h) rfl rfl
  | awake _ ih => exact (ih here rest q).map (fun _ _ h => .awake h) rfl rfl
  | @listening _ register w first later late s hreply hlate =>
    refine ⟨[.call first q.world],0,.settled ?_,⟨rfl,rfl⟩,(add_zero _).symm⟩
    rw [add_zero,Multiset.coe_singleton,Multiset.cons_add,add_comm late,Multiset.singleton_add]
    exact .callback_later hreply hlate
  | silent hreply => exact (Becomes.silent hreply).stays rfl rfl
  | chain h ih => exact h.visit_chain (ih here rest q) _
  | chain_failed he _ ih =>
    exact (ih here rest q).map (fun _ _ h => .chain_failed (Task.outcome?_visit he ..) h) rfl rfl
  | goneOn u hwork _ ih =>
    exact (ih here rest q).map (fun ds s' h => by simpa [add_assoc] using Becomes.goneOn u hwork h) rfl rfl
  | relay steps h ih => exact h.visit_relay (ih here rest q) steps
  | pair steps hl hr ihl ihr => exact hl.visit_pair hr (fun here rest => ihl here rest q) (fun here rest => ihr here rest q) _ steps
  | pair_failed steps he hl hr ihl ihr =>
    exact hl.visit_pair_failed hr (fun here rest => ihl here rest q) (fun here rest => ihr here rest q) _ steps he

end Work

end Effectful
