import Effectful.Proofs.Work.Correspondence
import Effectful.Proofs.Work.Pair
import Effectful.Proofs.Work.Stack
/-!
# The turns of an executor

In a world that is kept with notes, a clock beside the executor counts the turns and enters each note with the turn on
which it was made. The turn of the caller counts as zero. Jobs run on the turn that is running.
-/
namespace Effectful

open Filter

theorem Executor.Related.turnsBegun_eq {R W W' α : Type} {s : Correspondence W W'} [View W R] [View W' R]
    (hlook : ∀ w w', s.between w w' → (View.look w : R) = View.look w') {e : Executor R W α} {e' : Executor R W' α}
    (h : e.Related s e') (n : Nat) : e.turnsBegun n = e'.turnsBegun n := by
  induction n with
  | zero => rfl
  | succ n ih =>
    have hqueue := (h.iterate hlook n).queue
    rw [turnsBegun,turnsBegun,ih,hqueue.jobs,hqueue.isEmpty_turns]

/-- An executor of a world with notes, the turn that is running, and the notes so far, each with its turn. -/
structure Clock (R W E α : Type) : Type 1 where
  executor : Executor R (W × List E) α
  turn : Nat
  entries : List (Nat × E)

namespace Clock

variable {R W E α β γ : Type}

/-- A clock with the notes entered that have not been entered before. -/
def stamped (turn : Nat) (entries : List (Nat × E)) (executor : Executor R (W × List E) α) : Clock R W E α where
  executor := executor
  turn := turn
  entries := entries ++ (executor.queue.world.2.drop entries.length).map (turn,·)

theorem stamped_eq {turn : Nat} {entries : List (Nat × E)} {executor : Executor R (W × List E) α} {fresh : List E}
    (h : executor.queue.world.2.drop entries.length = fresh) :
    stamped turn entries executor = ⟨executor,turn,entries ++ fresh.map (turn,·)⟩ := by
  rw [stamped,h]

/-- Notes are entered once, with the turn that is running when they are made. -/
theorem stamped_executor {s : Task.Stack R (W × List E) α γ} {turn : Nat} {entries : List (Nat × E)} {w : W}
    {notes : List E} {place : Task R (W × List E) α × Queue (W × List E)} (fresh : List E)
    (hentered : entries.length = notes.length) (hworld : place.2.world = (w,notes ++ fresh)) :
    stamped turn entries (s.executor place) = ⟨s.executor place,turn,entries ++ fresh.map (turn,·)⟩ := by
  refine stamped_eq ?_
  change (s.notify place.1 place.2).world.2.drop _ = fresh
  rw [s.notify_world,hworld,hentered,List.drop_left]

theorem stamped_executor_nil {s : Task.Stack R (W × List E) α γ} {turn : Nat} {entries : List (Nat × E)} {w : W}
    {notes : List E} {place : Task R (W × List E) α × Queue (W × List E)}
    (hentered : entries.length = notes.length) (hworld : place.2.world = (w,notes)) :
    stamped turn entries (s.executor place) = ⟨s.executor place,turn,entries⟩ := by
  rw [stamped_executor [] hentered (hworld.trans (by rw [List.append_nil])),List.map_nil,List.append_nil]

variable [View (W × List E) R]

def start (work : Work R (W × List E) α) (w : W) : Clock R W E α := stamped 0 [] (Executor.start work (w,[]))

/-- One round of the executor. It begins a turn where no job is left. -/
def tick (c : Clock R W E α) : Clock R W E α :=
  stamped (if c.executor.queue.jobs.isEmpty && !c.executor.queue.turns.isEmpty then c.turn + 1 else c.turn) c.entries
    c.executor.advance

theorem executor_iterate (c : Clock R W E α) (n : Nat) : (tick^[n] c).executor = Executor.advance^[n] c.executor := by
  induction n with
  | zero => rfl
  | succ n ih => rw [Function.iterate_succ_apply',Function.iterate_succ_apply',← ih]; rfl

theorem turn_iterate (c : Clock R W E α) (n : Nat) : (tick^[n] c).turn = c.turn + c.executor.turnsBegun n := by
  induction n with
  | zero => rfl
  | succ n ih =>
    rw [Function.iterate_succ_apply']
    change (if _ then _ else _) = _
    rw [executor_iterate,ih,Executor.turnsBegun]
    generalize ((Executor.advance^[n] c.executor).queue.jobs.isEmpty &&
      !(Executor.advance^[n] c.executor).queue.turns.isEmpty) = begins
    cases begins <;> rfl

def Reaches (c c' : Clock R W E α) : Prop := ∃ n, tick^[n] c = c'

namespace Reaches

variable {c c' c'' : Clock R W E α}

theorem refl (c : Clock R W E α) : c.Reaches c := ⟨0,rfl⟩

theorem head (h : c.tick.Reaches c') : c.Reaches c' := by
  obtain ⟨n,hn⟩ := h
  exact ⟨n + 1,by rw [Function.iterate_succ_apply,hn]⟩

theorem trans (h : c.Reaches c') (h' : c'.Reaches c'') : c.Reaches c'' := by
  obtain ⟨n,hn⟩ := h
  obtain ⟨m,hm⟩ := h'
  exact ⟨m + n,by rw [Function.iterate_add_apply,hn,hm]⟩

theorem eventually_iterate (h : c.Reaches c') (hidle : c'.executor.isIdle = true)
    (hentered : c'.executor.queue.world.2.length ≤ c'.entries.length) : ∀ᶠ n in atTop, tick^[n] c = c' := by
  obtain ⟨n,hn⟩ := h
  obtain ⟨hjobs,hturns⟩ := Executor.isIdle_iff.mp hidle
  have hstill : tick c' = c' := by
    rw [tick,Executor.advance_of_isIdle hidle,stamped_eq (List.drop_eq_nil_of_le hentered),hturns]
    simp
  filter_upwards [eventually_ge_atTop n] with m hm
  obtain ⟨k,rfl⟩ := Nat.exists_eq_add_of_le' hm
  rw [Function.iterate_add_apply,hn,Function.iterate_fixed hstill]

end Reaches

section Stack

variable {s : Task.Stack R (W × List E) α γ} {turn : Nat} {entries : List (Nat × E)} {w : W} {notes : List E}

theorem tick_of_job {e : Executor R (W × List E) α} (h : e.queue.jobs ≠ []) :
    tick ⟨e,turn,entries⟩ = stamped turn entries e.advance := by
  have hjobs : e.queue.jobs.isEmpty = false := by simpa using h
  simp only [tick,hjobs,Bool.false_and,Bool.false_eq_true,if_false]

theorem tick_of_turn {e : Executor R (W × List E) α} (hjobs : e.queue.jobs = []) (hturns : e.queue.turns ≠ []) :
    tick ⟨e,turn,entries⟩ = stamped (turn + 1) entries e.advance := by
  have hturns' : e.queue.turns.isEmpty = false := by simpa using hturns
  simp only [tick,hjobs,hturns',List.isEmpty_nil,Bool.not_false,Bool.and_self,if_true]

theorem tick_chain_ok {t : Task R (W × List E) β} {b : β} (h : t.outcome? = some (.ok b))
    (f : β → R → Work R (W × List E) α) :
    tick ⟨(Task.Stack.chain f s).executor (t,{ world := (w,notes) }),turn,entries⟩ =
      stamped turn entries (s.executor (Task.goOn (f b (View.look (w,notes))) [] { world := (w,notes) })) := by
  rw [tick_of_job,s.advance_chain_ok h]
  rw [s.executor_chain h]
  exact List.cons_ne_nil _ _

theorem tick_chain_error {t : Task R (W × List E) β} {e : Failure} (h : t.outcome? = some (.error e))
    (f : β → R → Work R (W × List E) α) (hentered : entries.length = notes.length) :
    tick ⟨(Task.Stack.chain f s).executor (t,{ world := (w,notes) }),turn,entries⟩ =
      ⟨s.executor (.chain t f (some e),{ world := (w,notes) }),turn,entries⟩ := by
  rw [tick_of_job,s.advance_chain_error h,stamped_executor_nil hentered rfl]
  rw [s.executor_chain h]
  exact List.cons_ne_nil _ _

theorem relay_reaches {t : Task R (W × List E) α} {x : Outcome α} (h : t.outcome? = some x)
    (hentered : entries.length = notes.length) (steps : Nat) :
    Reaches ⟨(Task.Stack.relay steps s).executor (t,{ world := (w,notes) }),turn,entries⟩
      ⟨s.executor (t,{ world := (w,notes) }),turn,entries⟩ := by
  have hjob : ∀ steps, tick ⟨(Task.Stack.relay steps s).executor (t,{ world := (w,notes) }),turn,entries⟩ =
      stamped turn entries ((Task.Stack.relay steps s).executor (t,{ world := (w,notes) })).advance := fun steps =>
    tick_of_job (by rw [s.executor_relay h]; exact List.cons_ne_nil _ _)
  induction steps with
  | zero =>
    refine .head ?_
    rw [hjob,s.advance_relay_zero h,stamped_executor_nil hentered rfl]
    exact .refl _
  | succ steps ih =>
    refine .head ?_
    rw [hjob,s.advance_relay_succ h,stamped_executor_nil hentered rfl]
    exact ih

end Stack

end Clock

end Effectful
