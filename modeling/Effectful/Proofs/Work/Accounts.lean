import Effectful.Proofs.Work.Deeds
import Effectful.Proofs.Work.Rest
import Effectful.Proofs.Work.Settling
/-!
# Started work settles once

The executor keeps the account of the work that was started: what has changed the world are the deeds of its
parts, and what is left in the queues are late calls and places that wait. When nothing is left, every part has
come to its outcome, and each of its effects has been performed once.
-/
namespace Effectful

variable {R W α β γ : Type}

/-- Every callback is called, or its registration fails. -/
def Work.CallsBack {α : Type} : Work R W α → Prop
  | .answer _ | .reject _ | .delay _ => True
  | .fork work => CallsBack work
  | .callback register => ∀ w reply, (register w).1 = .ok reply → reply.now ≠ [] ∨ reply.later ≠ []
  | .andThen work f => CallsBack work ∧ ∀ b r, CallsBack (f b r)
  | .both left right _ => CallsBack left ∧ CallsBack right

theorem Task.sides_eq_zero {m k : Multiset Path} (h : sides m k = 0) : m = 0 ∧ k = 0 := by
  have hcard : (sides m k).card = 0 := by rw [h,Multiset.card_zero]
  simpa [sides] using hcard

variable [View W R]

theorem Work.Becomes.comes_of_awaits {work : Work R W α} {t : Task R W α} {d : Multiset (Deed W)}
    {s : Multiset (W → W)} (h : work.Becomes t d s) (hback : work.CallsBack) (hm : t.Awaits 0) :
    ∃ x, t.outcome? = some x ∧ work.Comes x d s := by
  -- A place that waits is in `m`, and a part that has come to its outcome lets the part above wait or be done.
  generalize hzero : (0 : Multiset Path) = m at hm
  induction h generalizing m with
  | settled h => exact ⟨_,rfl,h⟩
  | asleep work =>
    cases hm
    cases Multiset.singleton_ne_zero _ hzero.symm
  | awake _ ih =>
    obtain ⟨x,hx,hcomes⟩ := ih hback m hzero hm
    exact ⟨x,hx,.fork hcomes⟩
  | listening =>
    cases hm
    cases Multiset.singleton_ne_zero _ hzero.symm
  | silent hreply => exact absurd (hback _ _ hreply) (by simp)
  | chain h ih =>
    cases hm with
    | chain hnone hm =>
      obtain ⟨x,hx,-⟩ := ih hback.1 m hzero hm
      cases hnone.symm.trans hx
    | chain_ready => cases Multiset.zero_ne_cons hzero
  | chain_failed he _ ih =>
    cases hm with
    | chain_failed _ hm =>
      obtain ⟨x,hx,hcomes⟩ := ih hback.1 m hzero hm
      obtain rfl := Option.some.inj (hx.symm.trans he)
      exact ⟨_,rfl,.andThen_failed hcomes⟩
  | goneOn u hwork _ ih =>
    obtain ⟨x,hx,hcomes⟩ := ih (hback.2 _ _) m hzero hm
    exact ⟨x,hx,.andThen u hwork hcomes⟩
  | relay steps _ ih =>
    cases hm with
    | relay hnone hm =>
      obtain ⟨x,hx,-⟩ := ih hback m hzero hm
      cases hnone.symm.trans hx
    | relay_ready => cases Multiset.zero_ne_cons hzero
  | pair steps hl hr ihl ihr =>
    cases hm with
    | pair hopen hm hk =>
      obtain ⟨rfl,rfl⟩ := Task.sides_eq_zero hzero.symm
      obtain ⟨x,hx,-⟩ := ihl hback.1 0 rfl hm
      obtain ⟨y,hy,-⟩ := ihr hback.2 0 rfl hk
      rcases hopen.2.2 with hnone | hnone
      · cases hnone.symm.trans hx
      · cases hnone.symm.trans hy
    | pair_joining => cases Multiset.singleton_ne_zero _ hzero.symm
  | pair_failed steps he hl hr ihl ihr =>
    cases hm with
    | pair_failing => cases Multiset.zero_ne_cons hzero
    | pair_failed hm hk =>
      obtain ⟨rfl,rfl⟩ := Task.sides_eq_zero hzero.symm
      obtain ⟨x,hx,hleft⟩ := ihl hback.1 0 rfl hm
      obtain ⟨y,hy,hright⟩ := ihr hback.2 0 rfl hk
      refine ⟨_,rfl,.both_failed hleft hright ?_⟩
      exact he.imp (fun he => Option.some.inj (hx.symm.trans he)) fun he => Option.some.inj (hy.symm.trans he)

theorem Queue.Next.late_eq {q q' : Queue W} {path : Path} (h : q.Next path q') : q'.late = q.late := by
  cases h <;> rfl

namespace Executor

/-- The deeds of the work have led from the world `w` to where the executor is. -/
def Accounts (work : Work R W α) (w : W) (e : Executor R W α) : Prop :=
  ∃ ds : List (Deed W), Leads w ds e.queue.world ∧ work.Becomes e.task ds e.queue.late

variable {work : Work R W α} {w : W}

theorem accounts_start (work : Work R W α) (w : W) : Accounts work w (start work w) := by
  obtain ⟨ds,s,hplace,hleads,hlate⟩ := work.start_goes [] { world := w }
  rw [zero_add,zero_add] at hplace
  refine ⟨ds,hleads,?_⟩
  have hempty : (Queue.mk w [] []).late = 0 := rfl
  rw [hempty,zero_add] at hlate
  exact hlate ▸ hplace

theorem Accounts.advance {e : Executor R W α} (h : Accounts work w e) : Accounts work w e.advance := by
  obtain ⟨ds,hleads,hwork⟩ := h
  rcases e.advance_cases with ⟨path,q,hnext,he⟩ | ⟨v,effect,turns,hq,he⟩ | he
  · obtain ⟨es,s,hplace,hleads',hlate⟩ := hwork.visit [] path q
    rw [he]
    refine ⟨ds ++ es,hleads.append (hnext.world_eq ▸ hleads'),?_⟩
    rw [← Multiset.coe_add]
    dsimp only
    rw [hlate,hnext.late_eq]
    exact hplace
  · rw [hq] at hleads hwork
    rw [he]
    have hstray : Leads v [⟨effect,v⟩] (effect v) := ⟨rfl,rfl⟩
    have hlate : (Queue.mk v [] (.stray effect :: turns)).late = effect ::ₘ (Queue.mk (effect v) [] turns).late := rfl
    rw [hlate] at hwork
    refine ⟨ds ++ [⟨effect,v⟩],hleads.append hstray,?_⟩
    rw [← Multiset.coe_add,add_comm]
    exact hwork.close v
  · rw [he]
    exact ⟨ds,hleads,hwork⟩

theorem Accounts.reaches {e e' : Executor R W α} (h : Accounts work w e) (hr : e.Reaches e') : Accounts work w e' := by
  obtain ⟨n,rfl⟩ := hr
  exact Function.Iterate.rec (fun e => Accounts work w e) h (fun _ => Accounts.advance) n

theorem settled_since {e e' : Executor R W α} (hr : e.Reaches e') {x : Outcome α} (hx : e'.task.outcome? = some x) :
    ∃ n, ∀ k, (Executor.advance^[k] e).task.outcome? = if k < n then none else some x := by
  classical
  obtain ⟨m,rfl⟩ := hr
  have hknown : ∃ n, (Executor.advance^[n] e).task.outcome? ≠ none := ⟨m,by simp [hx]⟩
  refine ⟨Nat.find hknown,fun k => ?_⟩
  split
  case isTrue hk => exact not_not.mp (Nat.find_min hknown hk)
  case isFalse hk =>
    obtain ⟨y,hy⟩ := Option.ne_none_iff_exists'.mp (Nat.find_spec hknown)
    have hkeep : ∀ n, Nat.find hknown ≤ n → (Executor.advance^[n] e).task.outcome? = some y := by
      intro n hn
      obtain ⟨j,rfl⟩ := Nat.exists_eq_add_of_le' hn
      rw [Function.iterate_add_apply]
      exact outcome?_iterate hy j
    have hsame := hkeep m (Nat.find_min' hknown (by simp [hx]))
    rw [hx] at hsame
    rw [hkeep k (not_lt.mp hk),hsame]

end Executor

/-- Started work, whose callbacks are called, runs until nothing is left, and has then come to one outcome, as has
every part of it that was started. The world has changed by the deeds of its parts, each of which was done once.
The outcome was not known up to some round and has been known from then on, and no visit changes what is known of
any task. Starting is no exception to this: what fails on the caller's turn is the outcome of a part. -/
theorem Work.settles_once {work : Work R W α} (hback : work.CallsBack) (w : W) :
    (∃ (x : Outcome α) (v : W) (deeds : List (Deed W)), work.Ends w x v ∧ Leads w deeds v ∧ work.Comes x deeds 0 ∧
      ∃ n, ∀ k, (Executor.advance^[k] (Executor.start work w)).task.outcome? = if k < n then none else some x) ∧
    ∀ {β : Type} {t : Task R W β} {y : Outcome β}, t.outcome? = some y →
      ∀ here path q, (t.visit here path q).1.outcome? = some y := by
  refine ⟨?_,fun hy here path q => Task.outcome?_visit hy here path q⟩
  obtain ⟨e,hr,hidle,hm⟩ := work.rests w
  obtain ⟨deeds,hleads,hwork⟩ := (Executor.accounts_start work w).reaches hr
  have hlate : e.queue.late = 0 := by simp [Queue.late,(Executor.isIdle_iff.mp hidle).2]
  rw [hlate] at hwork
  obtain ⟨x,hx,hcomes⟩ := hwork.comes_of_awaits hback hm
  exact ⟨x,e.queue.world,deeds,⟨e,hr,hidle,hx,rfl⟩,hleads,hcomes,Executor.settled_since hr hx⟩

/-- One side fails while the other still waits for a callback, which is then called twice. -/
theorem Work.settles_once_twice :
    let say (s : String) : Action (List String) Nat := fun log => (.ok s.length,log ++ [s])
    let failing : Work Unit (List String) Nat := sequence (later (say "left")) fun _ _ => .error (.error "no")
    let twice : Work Unit (List String) Nat := callback fun log =>
      (.ok ⟨[],[fun log => (1,log ++ ["first"]),fun log => (2,log ++ ["second"])]⟩,log ++ ["right"])
    let work := both failing (map twice Nat.succ) fun a b _ => .ok (a + b)
    work.CallsBack ∧ ∃ deeds, Leads [] deeds ["right","first","second","left"] ∧
      work.Comes (.error (.error "no")) deeds 0 := by
  intro say failing twice work
  have htwice : twice.CallsBack := by
    intro log reply h
    cases h
    exact .inr (List.cons_ne_nil _ _)
  have hback : work.CallsBack := ⟨⟨trivial,fun _ _ => trivial⟩,htwice,fun _ _ => trivial⟩
  have hends : work.Ends [] (.error (.error "no")) ["right","first","second","left"] := ⟨_,⟨20,rfl⟩,rfl,rfl,rfl⟩
  obtain ⟨⟨x,v,deeds,hx,hleads,hcomes,-⟩,-⟩ := settles_once hback []
  obtain ⟨rfl,rfl⟩ := hx.unique hends
  exact ⟨hback,deeds,hleads,hcomes⟩

end Effectful
