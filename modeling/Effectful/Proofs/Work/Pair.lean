import Effectful.Proofs.Work.Sides
import Mathlib.Order.Bounds.Defs
/-!
# What a pair comes to

A pair whose sides share no part of the world leaves what each of them leaves alone, and logs their entries, each
side's in its own order, whatever comes of them. It is decided by both answers, or by the failure on the earlier
turn.
-/
namespace Effectful

variable {R W A B E α β γ : Type}

namespace Executor

variable [View W R]

def turnsBegun (e : Executor R W α) : Nat → Nat
  | 0 => 0
  | n + 1 => turnsBegun e n +
    if (advance^[n] e).queue.jobs.isEmpty && !(advance^[n] e).queue.turns.isEmpty then 1 else 0

theorem turnsBegun_mono (e : Executor R W α) : Monotone e.turnsBegun :=
  monotone_nat_of_le_succ fun _ => Nat.le_add_right _ _

/-- The rounds after which the failure of a side of the pair at the root is known. -/
def roundsFailed (e : Executor R W α) (side : Side) : Set Nat :=
  { n | (advance^[n] e).task.failureOn side ≠ none }

/-- The side of the pair at the root fails on the given turn. -/
def FailsOn (e : Executor R W α) (side : Side) (turn : Nat) : Prop :=
  ∃ n, IsLeast (e.roundsFailed side) n ∧ e.turnsBegun n = turn

theorem exists_failsOn (e : Executor R W α) (side : Side) {n : Nat} {x : Failure}
    (h : (advance^[n] e).task.failureOn side = some x) : ∃ turn, e.FailsOn side turn := by
  classical
  have hsome : ∃ n, n ∈ e.roundsFailed side := ⟨n,by simp [roundsFailed,h]⟩
  exact ⟨_,Nat.find hsome,⟨Nat.find_spec hsome,fun m hm => Nat.find_min' hsome hm⟩,rfl⟩

end Executor

namespace Joined

variable {left : Task Unit W β} {right : Task Unit W γ} {f : β → γ → Unit → Outcome α}
  {jobs : List Path} {task : Task Unit W α}

theorem failureOn_left (h : Joined left right f jobs task) : task.failureOn .left = left.failure? := by
  cases h with
  | settled hleft =>
    subst hleft
    rfl
  | _ => rfl

theorem failureOn_right (h : Joined left right f jobs task) : task.failureOn .right = right.failure? := by
  cases h with
  | settled hleft hright =>
    subst hright
    rfl
  | _ => rfl

theorem noted (h : Joined left right f jobs task) {side : Side} {e : Failure}
    (he : task.failureOn side = some e) (hother : task.failureOn side.opposite = none) :
    task.noted? = some e := by
  have hl := h.failureOn_left
  have hr := h.failureOn_right
  cases h with
  | waiting _ hleft hright =>
    cases side with
    | left => rw [hl,hleft] at he; cases he
    | right => rw [hr,hright] at he; cases he
  | failed _ hfailed =>
    cases side with
    | left =>
      rcases hfailed with h | h
      · exact h.symm.trans he
      · cases hother.symm.trans h
    | right =>
      rcases hfailed with h | h
      · cases hother.symm.trans h
      · exact h.symm.trans he
  | settled => cases he

theorem decided (h : Joined left right f [] task) {x : Outcome β} {y : Outcome γ}
    (hx : left.outcome? = some x) (hy : right.outcome? = some y) :
    (∃ a b, x = .ok a ∧ y = .ok b ∧ task.outcome? = some (f a b ())) ∨
      ∃ e, (x = .error e ∨ y = .error e) ∧ task.noted? = some e ∧ task.outcome? = some (.error e) := by
  cases h with
  | waiting _ _ _ hjobs => cases hjobs (by simp [hx]) (by simp [hy])
  | @failed steps e _ he hjobs =>
    rcases hjobs with rfl | hjobs
    · refine .inr ⟨e,he.imp (fun hl => ?_) (fun hr => ?_),rfl,rfl⟩
      · exact Option.some.inj (hx.symm.trans (Task.failure?_eq_some.mp hl))
      · exact Option.some.inj (hy.symm.trans (Task.failure?_eq_some.mp hr))
    · cases hjobs
  | settled hleft hright =>
    subst hleft
    subst hright
    cases hx
    cases hy
    exact .inl ⟨_,_,rfl,rfl,rfl⟩

end Joined

namespace Sides

variable [View W Unit] {s : Footprint W A B E} {base : List E} {f : β → γ → Unit → Outcome α}
  {e : Executor Unit W α} {l : Executor Unit W β} {r : Executor Unit W γ}

/-- Of two failures on different turns, the pair notes the one on the earlier turn, for good. -/
theorem noted_of_turn (h : Sides s base f e l r) (side : Side) {turn turn' : Nat}
    (hturn : e.FailsOn side turn) (hturn' : e.FailsOn side.opposite turn') (hless : turn < turn') {k : Nat}
    {x : Failure} (hx : (Executor.advance^[k] e).task.failureOn side = some x) :
    (Executor.advance^[k] e).task.noted? = some x := by
  obtain ⟨n,⟨hn,hfirst⟩,rfl⟩ := hturn
  obtain ⟨n',⟨-,hfirst'⟩,rfl⟩ := hturn'
  have hearlier : n < n' := by
    by_contra hnot
    exact absurd (e.turnsBegun_mono (Nat.le_of_not_lt hnot)) (Nat.not_le.mpr hless)
  obtain ⟨i,j,hsides⟩ := h.iterate n
  obtain ⟨y,hy⟩ := Option.ne_none_iff_exists'.mp hn
  have hother : (Executor.advance^[n] e).task.failureOn side.opposite = none := by
    by_contra hnot
    exact absurd (hfirst' hnot) (Nat.not_le.mpr hearlier)
  have hnoted := hsides.task.noted hy hother
  have hkn : n ≤ k := hfirst (by simp [Executor.roundsFailed,hx])
  obtain ⟨m,rfl⟩ := Nat.exists_eq_add_of_le' hkn
  rw [Function.iterate_add_apply] at hx ⊢
  have hy' := Executor.iterate_task (P := fun t => t.failureOn side = some y)
    (fun t path q ht => Task.failureOn_visit ht [] path q) hy m
  have hnoted' := Executor.iterate_task (P := fun t => t.noted? = some y)
    (fun t path q ht => Task.noted?_visit ht [] path q) hnoted m
  rw [hx] at hy'
  cases hy'
  exact hnoted'

theorem failures_decided (h : Sides s base f e l r) {k : Nat} {x y z : Failure}
    (hx : (Executor.advance^[k] e).task.failureOn .left = some x)
    (hy : (Executor.advance^[k] e).task.failureOn .right = some y)
    (hz : (Executor.advance^[k] e).task.noted? = some z) :
    ∃ turn turn', e.FailsOn .left turn ∧ e.FailsOn .right turn' ∧ (turn < turn' → z = x) ∧
      (turn' < turn → z = y) := by
  obtain ⟨turn,hturn⟩ := e.exists_failsOn .left hx
  obtain ⟨turn',hturn'⟩ := e.exists_failsOn .right hy
  refine ⟨turn,turn',hturn,hturn',fun hless => ?_,fun hless => ?_⟩
  · have hfirst := h.noted_of_turn .left hturn hturn' hless hx
    exact Option.some.inj (hz.symm.trans hfirst)
  · have hfirst := h.noted_of_turn .right hturn' hturn hless hy
    exact Option.some.inj (hz.symm.trans hfirst)

end Sides

namespace Work

variable [View W Unit]

/-- The sides of a pair do not interfere. Sides that share no part of the world and end alone end as a pair too,
when nothing is left to run of either. The log is an interleaving of what they log alone, and each part of the
world is left as its side leaves it alone. Two answers are joined, and are those of running the sides one after
the other; one failure is the outcome; and of two failures on different turns, the one on the earlier turn. -/
theorem both_ends (s : Footprint W A B E) {L : Work Unit W β} {R : Work Unit W γ} (hL : L.Within s)
    (hR : R.Within s.swap) (f : β → γ → Unit → Outcome α) {w wl wr : W} {x : Outcome β} {y : Outcome γ}
    (hl : L.Ends w x wl) (hr : R.Ends w y wr) :
    ∃ z v, (both L R f).Ends w z v ∧
      (∃ zs xs ys, s.log v = s.log w ++ zs ∧ s.log wl = s.log w ++ xs ∧ s.log wr = s.log w ++ ys ∧
        Interleaving xs ys zs) ∧
      s.own v = s.own wl ∧ s.other v = s.other wr ∧
      (∀ a b, x = .ok a → y = .ok b → z = f a b () ∧ ∃ v', R.Ends wl (.ok b) v') ∧
      (∀ e b, x = .error e → y = .ok b → z = .error e) ∧
      (∀ a e, x = .ok a → y = .error e → z = .error e) ∧
      ∀ e e', x = .error e → y = .error e' →
        ∃ turn turn', (Executor.start (both L R f) w).FailsOn .left turn ∧
          (Executor.start (both L R f) w).FailsOn .right turn' ∧
          (turn < turn' → z = .error e) ∧ (turn' < turn → z = .error e') := by
  have hseq : ∀ b, y = .ok b → ∃ v', R.Ends wl (.ok b) v' := by
    rintro b rfl
    obtain ⟨_,_,_,hmoved⟩ := hL.ends hl rfl
    have hother : s.swap.own w = s.swap.own wl := hmoved.other.symm
    obtain ⟨v',hends,_⟩ := hR.ends hr hother
    exact ⟨v',hends⟩
  obtain ⟨_,⟨n,rfl⟩,hidle,hx,rfl⟩ := hl
  obtain ⟨_,⟨m,rfl⟩,hidle',hy,rfl⟩ := hr
  have hstart := Sides.start hL hR f w
  obtain ⟨k,hk,hsides⟩ := hstart.reaches hidle hidle'
  have hjoined := hsides.task
  rw [(Executor.isIdle_iff.mp hk).1] at hjoined
  have hleft := hjoined.failureOn_left
  have hright := hjoined.failureOn_right
  have hdecided := hjoined.decided hx hy
  obtain ⟨z,hz⟩ : ∃ z, (Executor.advance^[k] (Executor.start (both L R f) w)).task.outcome? = some z := by
    rcases hdecided with ⟨a,b,-,-,hz⟩ | ⟨e,-,-,hz⟩
    · exact ⟨_,hz⟩
    · exact ⟨_,hz⟩
  refine ⟨z,_,⟨_,⟨k,rfl⟩,hk,hz,rfl⟩,hsides.queue.log,hsides.queue.own,hsides.queue.other,?_,?_,?_,?_⟩
  · rintro a b rfl rfl
    refine ⟨?_,hseq b rfl⟩
    rcases hdecided with ⟨a',b',ha,hb,hz'⟩ | ⟨e,he,-,-⟩
    · cases ha
      cases hb
      exact Option.some.inj (hz.symm.trans hz')
    · rcases he with he | he <;> cases he
  · rintro e b rfl rfl
    rcases hdecided with ⟨a',b',ha,-,-⟩ | ⟨e',he,-,hz'⟩
    · cases ha
    · rcases he with he | he
      · cases he
        exact Option.some.inj (hz.symm.trans hz')
      · cases he
  · rintro a e rfl rfl
    rcases hdecided with ⟨a',b',-,hb,-⟩ | ⟨e',he,-,hz'⟩
    · cases hb
    · rcases he with he | he
      · cases he
      · cases he
        exact Option.some.inj (hz.symm.trans hz')
  · rintro e e' rfl rfl
    have hfailed := hleft.trans (Task.failure?_eq_some.mpr hx)
    have hfailed' := hright.trans (Task.failure?_eq_some.mpr hy)
    rcases hdecided with ⟨a',b',ha,-,-⟩ | ⟨e'',-,hnoted,hz'⟩
    · cases ha
    · obtain ⟨turn,turn',hturn,hturn',hfirst,hsecond⟩ := hstart.failures_decided hfailed hfailed' hnoted
      have hz'' := Option.some.inj (hz.symm.trans hz')
      refine ⟨turn,turn',hturn,hturn',fun hless => ?_,fun hless => ?_⟩
      · rw [hz'',hfirst hless]
      · rw [hz'',hsecond hless]

/-- A side that counts and logs on a later turn, beside one that counts and logs at once. -/
theorem both_ends_counters :
    let s : Footprint (Nat × Nat × List String) Nat Nat String := ⟨fun w => w.1,fun w => w.2.1,fun w => w.2.2⟩
    let slow : Work Unit (Nat × Nat × List String) Nat :=
      later fun w => (.ok w.1,w.1 + 1,w.2.1,w.2.2 ++ ["slow"])
    let fast : Work Unit (Nat × Nat × List String) Nat :=
      delay fun w => (.ok w.2.1,w.1,w.2.1 + 1,w.2.2 ++ ["fast"])
    slow.Within s ∧ fast.Within s.swap ∧ slow.Ends (3,5,[]) (.ok 3) (4,5,["slow"]) ∧
      fast.Ends (3,5,[]) (.ok 5) (3,6,["fast"]) ∧
      ∃ z v, (both slow fast fun a b _ => .ok (a,b)).Ends (3,5,[]) z v ∧ z = .ok (3,5) ∧
        v.1 = 4 ∧ v.2.1 = 6 ∧ Interleaving ["slow"] ["fast"] v.2.2 := by
  intro s slow fast
  have hslow : slow.Within s := fun w w' hown =>
    ⟨congrArg Outcome.ok hown,congrArg Nat.succ hown,rfl,rfl,["slow"],rfl,rfl⟩
  have hfast : fast.Within s.swap := fun w w' hown =>
    ⟨congrArg Outcome.ok hown,congrArg Nat.succ hown,rfl,rfl,["fast"],rfl,rfl⟩
  have hends : slow.Ends (3,5,[]) (.ok 3) (4,5,["slow"]) := ⟨_,⟨1,rfl⟩,rfl,rfl,rfl⟩
  have hends' : fast.Ends (3,5,[]) (.ok 5) (3,6,["fast"]) := ⟨_,⟨0,rfl⟩,rfl,rfl,rfl⟩
  obtain ⟨z,v,hv,hlog,hown,hother,hboth,-⟩ :=
    both_ends s hslow hfast (fun a b _ => .ok (a,b)) hends hends'
  obtain ⟨zs,xs,ys,hz,hx,hy,hlogs⟩ := hlog
  obtain rfl : v.2.2 = zs := hz
  obtain rfl : ["slow"] = xs := hx
  obtain rfl : ["fast"] = ys := hy
  exact ⟨hslow,hfast,hends,hends',z,v,hv,(hboth 3 5 rfl rfl).1,hown,hother,hlogs⟩

end Work

end Effectful
