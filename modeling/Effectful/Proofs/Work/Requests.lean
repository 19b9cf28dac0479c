import Effectful.Proofs.Work.Sides
import Effectful.Proofs.Work.Stack
import Mathlib.Algebra.Order.Group.Multiset
import Mathlib.Tactic.Abel
/-!
# What a task waits for

The queues of an executor hold one request for each place of its task that waits, and no others. So nothing but
late effects is left in them when the work has answered: whatever is started next has the executor for itself.
-/
namespace Effectful

variable {R W α β γ : Type}

def Turn.path? : Turn W → Option Path
  | .resume path => some path
  | .stray _ => none

namespace Queue

/-- The paths that a queue asks to be visited, in any order. -/
def requests (q : Queue W) : Multiset Path := (q.jobs : Multiset Path) + (q.turns.filterMap Turn.path? : List Path)

def Quiet (q : Queue W) : Prop := q.jobs = [] ∧ ∀ turn ∈ q.turns, turn.path? = none

theorem quiet_iff (q : Queue W) : q.Quiet ↔ q.requests = 0 := by
  simp [Quiet,requests,List.filterMap_eq_nil_iff]

variable (q : Queue W)

@[simp] theorem requests_postJob (path : Path) : (q.postJob path).requests = q.requests + {path} := by
  simp only [requests,postJob,← Multiset.coe_add,Multiset.coe_singleton]
  exact add_right_comm ..

@[simp] theorem requests_resume (path : Path) :
    (q.postTurn (.resume path)).requests = q.requests + {path} := by
  simp [requests,postTurn,Turn.path?,← Multiset.coe_add,add_assoc]

@[simp] theorem requests_postStrays (effects : List (W → α × W)) :
    (q.postStrays effects).requests = q.requests := by
  have hnone : (effects.map fun effect => Turn.stray fun w => (effect w).2).filterMap Turn.path? = [] := by
    simp [List.filterMap_eq_nil_iff,Turn.path?]
  rw [requests,postStrays,List.filterMap_append,hnone,List.append_nil]
  rfl

end Queue

theorem Queue.Next.requests_eq {q q' : Queue W} {path : Path} (h : q.Next path q') :
    q.requests = path ::ₘ q'.requests := by
  cases h with
  | job => simp [requests]
  | turn => simp [requests,Turn.path?]

namespace Task

def sides (m k : Multiset Path) : Multiset Path := m.map (Side.left :: ·) + k.map (Side.right :: ·)

/-- No side has failed, and not both have answered. -/
def Undecided (left : Task R W β) (right : Task R W γ) : Prop :=
  left.failure? = none ∧ right.failure? = none ∧ (left.outcome? = none ∨ right.outcome? = none)

/-- The paths to the places that wait in a task: for a turn, or for a job of theirs. -/
inductive Awaits : {α : Type} → Task R W α → Multiset Path → Prop
  | settled {α : Type} (x : Outcome α) : Awaits (settled x) 0
  | silent {α : Type} : Awaits (silent : Task R W α) 0
  | asleep {α : Type} (work : Work R W α) : Awaits (asleep work) {[]}
  | listening {α : Type} (answer : W → α × W) : Awaits (listening answer) {[]}
  | chain {α β : Type} {child : Task R W β} {f : β → R → Work R W α} {m : Multiset Path} :
      child.outcome? = none → Awaits child m → Awaits (chain child f none) m
  | chain_ready {α β : Type} {child : Task R W β} {f : β → R → Work R W α} {m : Multiset Path}
      {x : Outcome β} :
      child.outcome? = some x → Awaits child m → Awaits (chain child f none) ([] ::ₘ m)
  | chain_failed {α β : Type} {child : Task R W β} {f : β → R → Work R W α} {m : Multiset Path}
      {x : Outcome β} {e : Failure} :
      child.outcome? = some x → Awaits child m → Awaits (chain child f (some e)) m
  | relay {α : Type} {child : Task R W α} {steps : Nat} {m : Multiset Path} :
      child.outcome? = none → Awaits child m → Awaits (relay child steps) m
  | relay_ready {α : Type} {child : Task R W α} {steps : Nat} {m : Multiset Path} {x : Outcome α} :
      child.outcome? = some x → Awaits child m → Awaits (relay child steps) ([] ::ₘ m)
  | pair {α β γ : Type} {left : Task R W β} {right : Task R W γ} {f : β → γ → R → Outcome α}
      {m k : Multiset Path} :
      Undecided left right → Awaits left m → Awaits right k → Awaits (pair left right f none 2) (sides m k)
  | pair_joining {α β γ : Type} {a : β} {b : γ} {f : β → γ → R → Outcome α} {steps : Nat} :
      steps < 2 → Awaits (pair (settled (.ok a) : Task R W β) (settled (.ok b)) f none (steps + 1)) {[]}
  | pair_failing {α β γ : Type} {left : Task R W β} {right : Task R W γ} {f : β → γ → R → Outcome α}
      {m k : Multiset Path} {e : Failure} {steps : Nat} : steps < 2 → Awaits left m → Awaits right k →
      Awaits (pair left right f (some e) (steps + 1)) ([] ::ₘ sides m k)
  | pair_failed {α β γ : Type} {left : Task R W β} {right : Task R W γ} {f : β → γ → R → Outcome α}
      {m k : Multiset Path} {e : Failure} :
      Awaits left m → Awaits right k → Awaits (pair left right f (some e) 0) (sides m k)

theorem cons_eq_sides {path : Path} {n m k : Multiset Path} (h : path ::ₘ n = sides m k) :
    (∃ rest m', path = .left :: rest ∧ m = rest ::ₘ m' ∧ n = sides m' k) ∨
      ∃ rest k', path = .right :: rest ∧ k = rest ::ₘ k' ∧ n = sides m k' := by
  have hmem : path ∈ sides m k := h ▸ Multiset.mem_cons_self ..
  rcases Multiset.mem_add.mp hmem with hleft | hright
  · obtain ⟨rest,hrest,rfl⟩ := Multiset.mem_map.mp hleft
    obtain ⟨m',rfl⟩ := Multiset.exists_cons_of_mem hrest
    refine .inl ⟨rest,m',rfl,rfl,?_⟩
    simpa [sides] using h
  · obtain ⟨rest,hrest,rfl⟩ := Multiset.mem_map.mp hright
    obtain ⟨k',rfl⟩ := Multiset.exists_cons_of_mem hrest
    refine .inr ⟨rest,k',rfl,rfl,?_⟩
    simpa [sides] using h

theorem Awaits.eq_zero {a : α} {m : Multiset Path} (h : (Task.settled (.ok a) : Task R W α).Awaits m) : m = 0 := by
  cases h
  rfl

/-- What has been started or visited at the place `here` has asked for the visits that it waits for, besides
those in `n`, which were asked for before. -/
def Owes (here : Path) (n : Multiset Path) (q : Queue W) (place : Task R W α × Queue W) : Prop :=
  ∃ m, place.1.Awaits (n + m) ∧ place.2.requests = q.requests + m.map (here ++ ·)

variable {here : Path} {n : Multiset Path} {q : Queue W}

theorem Owes.answered {place : Task R W α × Queue W} (h : place.1.Awaits n)
    (hq : place.2.requests = q.requests) : Owes here n q place :=
  ⟨0,by simpa using h,by simpa using hq⟩

theorem Owes.posted {place : Task R W β × Queue W} (h : Owes here n q place) {t : Task R W α}
    (ht : ∀ m, place.1.Awaits m → t.Awaits ([] ::ₘ m)) : Owes here n q (t,place.2.postJob here) := by
  obtain ⟨m,hm,hq⟩ := h
  refine ⟨[] ::ₘ m,?_,?_⟩
  · rw [Multiset.add_cons]
    exact ht _ hm
  · simp [hq,add_comm]

theorem Owes.kept {place : Task R W β × Queue W} (h : Owes here n q place) {t : Task R W α}
    (ht : ∀ m, place.1.Awaits m → t.Awaits m) : Owes here n q (t,place.2) := by
  obtain ⟨m,hm,hq⟩ := h
  exact ⟨m,ht _ hm,hq⟩

theorem Owes.above {place : Task R W β × Queue W} (h : Owes here n q place) (f : β → R → Work R W α) :
    Owes here n q (Task.above place.1 f here place.2) := by
  unfold Task.above
  cases hx : place.1.outcome? with
  | none => exact h.kept fun m hm => .chain hx hm
  | some x => exact h.posted fun m hm => .chain_ready hx hm

theorem awaits_relayed {t : Task R W α} {m : Multiset Path} (h : t.Awaits m) (hx : t.outcome? = none)
    (steps : Nat) : (t.relayed steps).Awaits m := by
  cases h with
  | relay hchild h => exact .relay hchild h
  | relay_ready hchild h => exact .relay_ready hchild h
  | settled x => cases hx
  | silent => exact .relay hx .silent
  | asleep work => exact .relay hx (.asleep work)
  | listening answer => exact .relay hx (.listening answer)
  | chain hchild h => exact .relay hx (.chain hchild h)
  | chain_ready hchild h => exact .relay hx (.chain_ready hchild h)
  | chain_failed hchild h => cases hx
  | pair hopen hleft hright => exact .relay hx (.pair hopen hleft hright)
  | pair_joining hsteps => exact .relay hx (.pair_joining hsteps)
  | pair_failing hsteps hleft hright => exact .relay hx (.pair_failing hsteps hleft hright)
  | pair_failed hleft hright => cases hx

theorem Owes.passOn {place : Task R W α × Queue W} (h : Owes here n q place) (steps : Nat) :
    Owes here n q (Task.passOn place.1 steps here place.2) := by
  rw [passOn_eq]
  cases hx : place.1.outcome? with
  | none => exact h.kept fun m hm => awaits_relayed hm hx steps
  | some x =>
    refine h.posted fun m hm => ?_
    rw [relayed_of_outcome hx]
    exact .relay_ready hx hm

theorem Owes.after {place : Task R W α × Queue W} {d : Multiset Path} {q' : Queue W}
    (h : Owes here (n + d) q' place) (hq : q'.requests = q.requests + d.map (here ++ ·)) :
    Owes here n q place := by
  obtain ⟨m,hm,hplace⟩ := h
  refine ⟨d + m,by rwa [← add_assoc],?_⟩
  rw [hplace,hq,Multiset.map_add,add_assoc]

private theorem undecided {left : Task R W β} {right : Task R W γ}
    (hleft : ∀ e, left.outcome? ≠ some (.error e)) (hright : ∀ e, right.outcome? ≠ some (.error e))
    (hboth : ∀ a b, left.outcome? = some (.ok a) → right.outcome? ≠ some (.ok b)) : Undecided left right := by
  refine ⟨?_,?_,?_⟩
  · rw [Option.eq_none_iff_forall_ne_some]
    exact fun e he => hleft e (failure?_eq_some.mp he)
  · rw [Option.eq_none_iff_forall_ne_some]
    exact fun e he => hright e (failure?_eq_some.mp he)
  · rcases hl : left.outcome? with _ | ⟨a | e⟩
    · exact .inl rfl
    · rcases hr : right.outcome? with _ | ⟨b | e⟩
      · exact .inr rfl
      · exact absurd hr (hboth a b hl)
      · exact absurd hr (hright e)
    · exact absurd hl (hleft e)

theorem owes_beside {left : Task R W β} {right : Task R W γ} {m k : Multiset Path} (hleft : left.Awaits m)
    (hright : right.Awaits k) (f : β → γ → R → Outcome α) (here : Path) (q : Queue W) :
    Owes here (sides m k) q (beside left right f here q) := by
  have hfailing : ∀ e, Owes here (sides m k) q (pair left right f (some e) 2,q.postJob here) := by
    intro e
    refine ⟨{[]},?_,by simp⟩
    rw [Multiset.add_comm]
    exact .pair_failing (by omega) hleft hright
  unfold beside
  split
  case h_1 => exact hfailing _
  case h_2 => exact hfailing _
  case h_3 hl hr =>
    obtain rfl := eq_settled_of_ok hl
    obtain rfl := eq_settled_of_ok hr
    obtain rfl := hleft.eq_zero
    obtain rfl := hright.eq_zero
    exact ⟨{[]},.pair_joining (by omega),by simp⟩
  case h_4 hl hr hboth => exact .answered (.pair (undecided hl hr hboth) hleft hright) rfl

theorem map_sides (m k : Multiset Path) (here : Path) :
    (sides m k).map (here ++ ·) =
      m.map ((here ++ [Side.left]) ++ ·) + k.map ((here ++ [Side.right]) ++ ·) := by
  simp [sides,Multiset.map_map]

/-- Started work has asked for the visits that it waits for. -/
theorem start_owes (work : Work R W α) (here : Path) (q : Queue W) : Owes here 0 q (start work here q) := by
  induction work generalizing here q with
  | answer a => exact .answered (.settled _) rfl
  | reject e => exact .answered (.settled _) rfl
  | delay t => exact .answered (.settled _) rfl
  | fork work ih => exact ⟨{[]},.asleep work,by simp [start]⟩
  | callback register =>
    rw [start_callback]
    rcases hreg : q.perform register with ⟨⟨now,later⟩ | e,q'⟩
    · have hq : q'.requests = q.requests := congrArg (Queue.requests ∘ Prod.snd) hreg.symm
      cases now with
      | cons a now => exact .answered (.settled _) (by simp [replied,hq])
      | nil =>
        cases later with
        | cons answer later => exact ⟨{[]},.listening answer,by simp [replied,hq]⟩
        | nil => exact .answered .silent hq
    · have hq : q'.requests = q.requests := congrArg (Queue.requests ∘ Prod.snd) hreg.symm
      exact .answered (.settled _) hq
  | andThen work f ih => exact (ih here q).above f
  | both left right f ihl ihr =>
    obtain ⟨m,hm,hq⟩ := ihl (here ++ [.left]) q
    obtain ⟨k,hk,hq'⟩ := ihr (here ++ [.right]) (start left (here ++ [.left]) q).2
    rw [zero_add] at hm hk
    have hpair := owes_beside hm hk f here (start right (here ++ [.right]) (start left (here ++ [.left]) q).2).2
    rw [← zero_add (sides m k)] at hpair
    exact hpair.after (by rw [hq',hq,map_sides,add_assoc])

theorem goOn_owes (work : Work R W α) (here : Path) (q : Queue W) : Owes here 0 q (goOn work here q) := by
  by_cases hwork : ∃ e, work = .reject e
  · obtain ⟨e,rfl⟩ := hwork
    exact .answered (.settled _) rfl
  · rw [goOn_eq (fun e he => hwork ⟨e,he⟩)]
    have hstart := start_owes work here q
    cases hx : (start work here q).1.outcome? with
    | none => exact hstart.kept fun m hm => .relay hx hm
    | some x => exact hstart.posted fun m hm => .relay_ready hx hm

theorem Owes.on_left {place : Task R W β × Queue W} {m k : Multiset Path}
    (h : Owes (here ++ [Side.left]) m q place) {whole : Task R W α × Queue W}
    (hwhole : ∀ m, place.1.Awaits m → Owes here (n + sides m k) place.2 whole) :
    Owes here (n + sides m k) q whole := by
  obtain ⟨d,hd,hq⟩ := h
  have hsides : n + sides (m + d) k = n + sides m k + sides d 0 := by
    simp only [sides,Multiset.map_add,Multiset.map_zero]
    abel
  have hafter := hwhole _ hd
  rw [hsides] at hafter
  exact hafter.after (by rw [hq,map_sides,Multiset.map_zero,add_zero])

theorem Owes.on_right {place : Task R W γ × Queue W} {m k : Multiset Path}
    (h : Owes (here ++ [Side.right]) k q place) {whole : Task R W α × Queue W}
    (hwhole : ∀ k, place.1.Awaits k → Owes here (n + sides m k) place.2 whole) :
    Owes here (n + sides m k) q whole := by
  obtain ⟨d,hd,hq⟩ := h
  have hsides : n + sides m (k + d) = n + sides m k + sides 0 d := by
    simp only [sides,Multiset.map_add,Multiset.map_zero]
    abel
  have hafter := hwhole _ hd
  rw [hsides] at hafter
  exact hafter.after (by rw [hq,map_sides,Multiset.map_zero,zero_add])

theorem Owes.waiting {place : Task R W β × Queue W} (h : Owes here n q place) {t : Task R W α}
    (ht : ∀ m, place.1.Awaits m → t.Awaits ([] ::ₘ m)) : Owes here ([] ::ₘ n) q (t,place.2) := by
  obtain ⟨m,hm,hq⟩ := h
  exact ⟨m,by rw [Multiset.cons_add]; exact ht _ hm,hq⟩

variable [View W R]

/-- A visit to a place that waits leaves the task waiting for the other places, and for what the visit has asked
for. -/
theorem visit_owes {t : Task R W α} {path : Path} {n : Multiset Path} (h : t.Awaits (path ::ₘ n)) (here : Path)
    (q : Queue W) : Owes here n q (visit here t path q) := by
  generalize hm : path ::ₘ n = m at h
  induction h generalizing path n here q with
  | settled | silent => cases Multiset.cons_ne_zero hm
  | asleep work =>
    obtain ⟨rfl,rfl⟩ := (Multiset.singleton_eq_cons_iff _).mp hm.symm
    exact start_owes work here q
  | listening answer =>
    obtain ⟨rfl,rfl⟩ := (Multiset.singleton_eq_cons_iff _).mp hm.symm
    exact .answered (.settled _) rfl
  | chain hx _ ih =>
    rw [visit_chain hx]
    exact (ih here q hm).above _
  | @chain_ready _ _ child f m x hx hchild ih =>
    rcases Multiset.cons_eq_cons.mp hm with ⟨rfl,rfl⟩ | ⟨hne,n',rfl,rfl⟩
    · cases x with
      | ok a =>
        obtain rfl := eq_settled_of_ok hx
        obtain rfl := hchild.eq_zero
        exact goOn_owes ..
      | error e =>
        simp only [visit,hx]
        exact .answered (.chain_failed hx hchild) rfl
    · obtain ⟨side,rest,rfl⟩ := List.exists_cons_of_ne_nil hne
      cases x with
      | ok a =>
        obtain rfl := eq_settled_of_ok hx
        cases Multiset.cons_ne_zero hchild.eq_zero
      | error e =>
        simp only [visit,hx]
        exact (ih here q rfl).waiting fun m hm => .chain_ready (outcome?_visit hx ..) hm
  | chain_failed hx hchild ih =>
    simp only [visit]
    exact (ih here q hm).kept fun m hm => .chain_failed (outcome?_visit hx ..) hm
  | relay hx _ ih =>
    rw [visit_relay hx]
    exact (ih here q hm).passOn _
  | @relay_ready _ child steps m x hx hchild ih =>
    rcases Multiset.cons_eq_cons.mp hm with ⟨rfl,rfl⟩ | ⟨hne,n',rfl,rfl⟩
    · simp only [visit,hx]
      cases steps with
      | zero => exact .answered hchild rfl
      | succ steps =>
        have hdone : Owes here n q (child,q) := .answered hchild rfl
        exact hdone.posted fun m hm => .relay_ready hx hm
    · obtain ⟨side,rest,rfl⟩ := List.exists_cons_of_ne_nil hne
      simp only [visit,hx]
      exact (ih here q rfl).waiting fun m hm => .relay_ready (outcome?_visit hx ..) hm
  | @pair _ _ _ left right f m k _ hleft hright ihl ihr =>
    rcases cons_eq_sides hm with ⟨rest,m',rfl,rfl,rfl⟩ | ⟨rest,k',rfl,rfl,rfl⟩
    · rw [← zero_add (sides m' k)]
      refine (ihl (here ++ [.left]) q rfl).on_left fun m hm => ?_
      rw [zero_add]
      exact owes_beside hm hright f here _
    · rw [← zero_add (sides m k')]
      refine (ihr (here ++ [.right]) q rfl).on_right fun k hk => ?_
      rw [zero_add]
      exact owes_beside hleft hk f here _
  | @pair_joining _ _ _ a b f steps hsteps =>
    obtain ⟨rfl,rfl⟩ := (Multiset.singleton_eq_cons_iff _).mp hm.symm
    obtain rfl | rfl : steps = 0 ∨ steps = 1 := by omega
    · exact .answered (.settled _) rfl
    · exact ⟨{[]},.pair_joining Nat.zero_lt_two,by simp [visit]⟩
  | @pair_failing _ _ _ left right f m k e steps hsteps hleft hright ihl ihr =>
    rcases Multiset.cons_eq_cons.mp hm with ⟨rfl,rfl⟩ | ⟨hne,n',rfl,hsides⟩
    · obtain rfl | rfl : steps = 0 ∨ steps = 1 := by omega
      · exact .answered (.pair_failed hleft hright) rfl
      · refine ⟨{[]},?_,by simp [visit]⟩
        rw [Multiset.add_comm]
        exact .pair_failing Nat.zero_lt_two hleft hright
    · rcases cons_eq_sides hsides.symm with ⟨rest,m',rfl,rfl,rfl⟩ | ⟨rest,k',rfl,rfl,rfl⟩ <;>
        rw [← Multiset.singleton_add]
      · exact (ihl (here ++ [.left]) q rfl).on_left fun m hm =>
          .answered (.pair_failing hsteps hm hright) rfl
      · exact (ihr (here ++ [.right]) q rfl).on_right fun k hk =>
          .answered (.pair_failing hsteps hleft hk) rfl
  | @pair_failed _ _ _ left right f m k e hleft hright ihl ihr =>
    rcases cons_eq_sides hm with ⟨rest,m',rfl,rfl,rfl⟩ | ⟨rest,k',rfl,rfl,rfl⟩
    · rw [← zero_add (sides m' k)]
      refine (ihl (here ++ [.left]) q rfl).on_left fun m hm => ?_
      rw [zero_add]
      exact .answered (.pair_failed hm hright) rfl
    · rw [← zero_add (sides m k')]
      refine (ihr (here ++ [.right]) q rfl).on_right fun k hk => ?_
      rw [zero_add]
      exact .answered (.pair_failed hleft hk) rfl

end Task

namespace Executor

/-- The queues ask for the visits that the task waits for, and for no others. -/
def Sound (e : Executor R W α) : Prop := e.task.Awaits e.queue.requests

theorem sound_start (work : Work R W α) {q : Queue W} (h : q.Quiet) :
    Sound ⟨(Task.start work [] q).1,(Task.start work [] q).2⟩ := by
  obtain ⟨m,hm,hq⟩ := Task.start_owes work [] q
  rw [q.quiet_iff.mp h] at hq
  have hrequests : (Task.start work [] q).2.requests = m := by simpa using hq
  unfold Sound
  rw [hrequests]
  simpa using hm

theorem Sound.quiet {e : Executor R W α} (h : e.Sound) {a : α} (ha : e.task.outcome? = some (.ok a)) :
    e.queue.Quiet := by
  rw [Queue.quiet_iff]
  unfold Sound at h
  rw [Task.eq_settled_of_ok ha] at h
  exact h.eq_zero

theorem Sound.advance [View W R] {e : Executor R W α} (h : e.Sound) : e.advance.Sound := by
  unfold Sound at h
  rcases e.advance_cases with ⟨path,q,hnext,he⟩ | ⟨w,effect,turns,hq,he⟩ | he
  · rw [hnext.requests_eq] at h
    obtain ⟨m,hm,hq⟩ := Task.visit_owes h [] q
    rw [he]
    unfold Sound
    rw [hq]
    simpa using hm
  · have hrequests : e.queue.requests = (Queue.mk (effect w) [] turns).requests := by
      rw [hq,Queue.requests,Queue.requests,List.filterMap_cons_none rfl]
    rw [he]
    unfold Sound
    rwa [← hrequests]
  · rwa [he]

end Executor

end Effectful
