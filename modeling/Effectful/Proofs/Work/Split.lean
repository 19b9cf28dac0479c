import Effectful.Proofs.Work.Footprint
import Mathlib.Data.List.Basic
/-!
# The queue of two sides

A pair that runs at the root has one queue for both of its sides. Seen from one side, with the requests of the
other side left out, it is the queue on which that side would run alone; and what a side does on it next is
what it would do next alone.
-/
namespace Effectful

/-- The third list is made of the first two, each in its own order. -/
inductive Interleaving {T : Type} : List T → List T → List T → Prop
  | nil : Interleaving [] [] []
  | left (x : T) {xs ys zs : List T} : Interleaving xs ys zs → Interleaving (x :: xs) ys (x :: zs)
  | right (y : T) {xs ys zs : List T} : Interleaving xs ys zs → Interleaving xs (y :: ys) (y :: zs)

namespace Interleaving

variable {T : Type} {xs ys zs : List T}

theorem swap (h : Interleaving xs ys zs) : Interleaving ys xs zs := by
  induction h with
  | nil => exact .nil
  | left x _ ih => exact .right x ih
  | right y _ ih => exact .left y ih

theorem append_left (h : Interleaving xs ys zs) (more : List T) :
    Interleaving (xs ++ more) ys (zs ++ more) := by
  induction h with
  | nil =>
    induction more with
    | nil => exact .nil
    | cons x more ih => exact .left x ih
  | left x _ ih => exact .left x ih
  | right y _ ih => exact .right y ih

end Interleaving

def Side.opposite : Side → Side
  | .left => .right
  | .right => .left

@[simp] theorem Side.opposite_opposite (side : Side) : side.opposite.opposite = side := by
  cases side <;> rfl

theorem Side.opposite_ne (side : Side) : side ≠ side.opposite := by
  cases side <;> decide

theorem Side.eq_or_opposite (side other : Side) : side = other ∨ side = other.opposite := by
  cases side <;> cases other <;> decide

/-- The way from the top of a side, if the way leads to that side. -/
def Path.onSide (side : Side) : Path → Option Path
  | [] => none
  | first :: rest => if first = side then some rest else none

def Path.onSides (side : Side) (paths : List Path) : List Path := paths.filterMap (onSide side)

namespace Path

@[simp] theorem onSides_own (side : Side) (path : Path) (paths : List Path) :
    onSides side ((side :: path) :: paths) = path :: onSides side paths := by
  simp [onSides,onSide]

@[simp] theorem onSides_opposite (side : Side) (path : Path) (paths : List Path) :
    onSides side.opposite ((side :: path) :: paths) = onSides side.opposite paths := by
  simp [onSides,onSide,side.opposite_ne]

@[simp] theorem onSides_append (side : Side) (paths more : List Path) :
    onSides side (paths ++ more) = onSides side paths ++ onSides side more :=
  List.filterMap_append

@[simp] theorem onSides_map_own (side : Side) (paths : List Path) :
    onSides side (paths.map ([side] ++ ·)) = paths := by
  induction paths with
  | nil => rfl
  | cons path paths ih => simpa using ih

@[simp] theorem onSides_map_opposite (side : Side) (paths : List Path) :
    onSides side.opposite (paths.map ([side] ++ ·)) = [] := by
  induction paths with
  | nil => rfl
  | cons path paths ih => simpa using ih

theorem root_mem_of_count {paths paths' : List Path} (h : paths'.count [] = paths.count [])
    (hroot : [] ∈ paths) : [] ∈ paths' := by
  rw [← List.count_pos_iff] at hroot ⊢
  omega

end Path

variable {W A B E : Type}

theorem Turn.under_nil (turn : Turn W) : turn.under [] = turn := by
  cases turn <;> rfl

/-- The queue `q` of a pair at the root, seen as the queues on which its sides run alone: `near` is that of the
given side, and `far` that of the other. The log began with the entries `base`. -/
structure Split (s : Footprint W A B E) (side : Side) (base : List E) (q near far : Queue W) :
    Prop where
  own : s.own q.world = s.own near.world
  other : s.other q.world = s.other far.world
  log : ∃ zs xs ys, s.log q.world = base ++ zs ∧ s.log near.world = base ++ xs ∧
    s.log far.world = base ++ ys ∧ Interleaving xs ys zs
  jobs : Path.onSides side q.jobs = near.jobs
  jobs' : Path.onSides side.opposite q.jobs = far.jobs
  turns : Interleaving (near.turns.map (Turn.under [side])) (far.turns.map (Turn.under [side.opposite]))
    q.turns
  within : ∀ turn ∈ near.turns, turn.Within s
  within' : ∀ turn ∈ far.turns, turn.Within s.swap

namespace Split

universe u

variable {s : Footprint W A B E} {side : Side} {base : List E} {q near far : Queue W} {X : Type u}

theorem swap (h : Split s side base q near far) :
    Split s.swap side.opposite base q far near := by
  obtain ⟨zs,xs,ys,hz,hx,hy,hlog⟩ := h.log
  exact {
    own := h.other
    other := h.own
    log := ⟨zs,ys,xs,hz,hy,hx,hlog.swap⟩
    jobs := h.jobs'
    jobs' := by rw [side.opposite_opposite,h.jobs]
    turns := by rw [side.opposite_opposite]; exact h.turns.swap
    within := h.within'
    within' := h.within }

private theorem under_under (turns : List (Turn W)) :
    (turns.map (Turn.under [])).map (Turn.under [side]) = turns.map (Turn.under [side]) := by
  rw [List.map_map]
  exact List.map_congr_left fun turn _ => congrArg _ turn.under_nil

private theorem step {P : X → Prop} {g : Queue W → X × Queue W} (hg : s.Confines P g) {w w' : W}
    {jobs jobs' : List Path} {turns turns' : List (Turn W)}
    (h : Split s side base ⟨w,jobs,turns⟩ ⟨w',jobs',turns'⟩ far) :
    (g ⟨w,[],[]⟩).1 = (g ⟨w',[],[]⟩).1 ∧ P (g ⟨w,[],[]⟩).1 ∧
      Split s side base ((g ⟨w,[],[]⟩).2.behind [side] jobs turns)
        ((g ⟨w',[],[]⟩).2.behind [] jobs' turns') far := by
  obtain ⟨hresult,hP,hqueue,hmoved⟩ := hg ⟨w,[],[]⟩ ⟨w',[],[]⟩ ⟨h.own,rfl,rfl,nofun⟩
  obtain ⟨zs,xs,ys,hz,hx,hy,hlog⟩ := h.log
  obtain ⟨es,hes,hes'⟩ := hmoved.log
  refine ⟨hresult,hP,{
    own := hqueue.own
    other := hmoved.other.trans h.other
    log := ⟨zs ++ es,xs ++ es,ys,?_,?_,hy,hlog.append_left es⟩
    jobs := ?_
    jobs' := ?_
    turns := ?_
    within := ?_
    within' := h.within' }⟩
  · exact hes.trans (by rw [hz,List.append_assoc])
  · exact hes'.trans (by rw [hx,List.append_assoc])
  · have hjobs := h.jobs
    simp only [Queue.behind,Path.onSides_append,Path.onSides_map_own,hjobs,hqueue.jobs]
    simp
  · have hjobs := h.jobs'
    simp only [Queue.behind,Path.onSides_append,Path.onSides_map_opposite,hjobs]
    simp
  · simp only [Queue.behind,List.map_append,under_under,← hqueue.turns]
    exact h.turns.append_left _
  · intro turn hturn
    rcases List.mem_append.mp hturn with hturn | hturn
    · exact h.within turn hturn
    · obtain ⟨turn,hmem,rfl⟩ := List.mem_map.mp hturn
      rw [turn.under_nil]
      exact hqueue.within turn (hqueue.turns ▸ hmem)

/-- What a side does next alone, it does in the same way at its place below the pair. -/
private theorem below {P : X → Prop} {g : Path → Queue W → X × Queue W} (hg : s.Confines P (g []))
    (hbehind : ∀ here jobs turns q, g here (q.behind here jobs turns) =
      ((g [] q).1,(g [] q).2.behind here jobs turns)) {w w' : W} {jobs jobs' : List Path}
    {turns turns' : List (Turn W)} (h : Split s side base ⟨w,jobs,turns⟩ ⟨w',jobs',turns'⟩ far) :
    (g [side] ⟨w,jobs,turns⟩).1 = (g [] ⟨w',jobs',turns'⟩).1 ∧ P (g [] ⟨w',jobs',turns'⟩).1 ∧
      Split s side base (g [side] ⟨w,jobs,turns⟩).2 (g [] ⟨w',jobs',turns'⟩).2 far ∧
      (g [side] ⟨w,jobs,turns⟩).2.jobs.count [] = jobs.count [] := by
  have hjoint := hbehind [side] jobs turns ⟨w,[],[]⟩
  have halone := hbehind [] jobs' turns' ⟨w',[],[]⟩
  rw [Queue.behind_empty] at hjoint halone
  obtain ⟨hresult,hP,hsplit⟩ := h.step hg
  rw [hjoint,halone]
  refine ⟨hresult,hresult ▸ hP,hsplit,?_⟩
  simp [Queue.behind,List.count_append,List.count_eq_zero]

variable {α : Type} {w w' : W} {jobs jobs' : List Path} {turns turns' : List (Turn W)}

theorem start {work : Work Unit W α} (hwork : work.Within s)
    (h : Split s side base ⟨w,jobs,turns⟩ ⟨w',jobs',turns'⟩ far) :
    (Task.start work [side] ⟨w,jobs,turns⟩).1 = (Task.start work [] ⟨w',jobs',turns'⟩).1 ∧
      (Task.start work [] ⟨w',jobs',turns'⟩).1.Within s ∧
      Split s side base (Task.start work [side] ⟨w,jobs,turns⟩).2
        (Task.start work [] ⟨w',jobs',turns'⟩).2 far := by
  obtain ⟨hresult,hwithin,hsplit,-⟩ := h.below (g := Task.start work)
    (Task.confines_start hwork []) fun here jobs turns q => by
      simpa using Task.start_behind here jobs turns work [] q
  exact ⟨hresult,hwithin,hsplit⟩

theorem visit [View W Unit] {t : Task Unit W α} (ht : t.Within s) (path : Path)
    (h : Split s side base ⟨w,jobs,turns⟩ ⟨w',jobs',turns'⟩ far) :
    (t.visit [side] path ⟨w,jobs,turns⟩).1 = (t.visit [] path ⟨w',jobs',turns'⟩).1 ∧
      (t.visit [] path ⟨w',jobs',turns'⟩).1.Within s ∧
      Split s side base (t.visit [side] path ⟨w,jobs,turns⟩).2 (t.visit [] path ⟨w',jobs',turns'⟩).2
        far ∧
      (t.visit [side] path ⟨w,jobs,turns⟩).2.jobs.count [] = jobs.count [] :=
  h.below (g := fun here => t.visit here path) (Task.confines_visit ht [] path)
    fun here jobs turns q => by simpa using Task.visit_behind here jobs turns t [] path q

theorem stray {effect : W → W} (heffect : (Turn.stray effect).Within s)
    (h : Split s side base ⟨w,[],turns⟩ ⟨w',[],turns'⟩ far) :
    Split s side base ⟨effect w,[],turns⟩ ⟨effect w',[],turns'⟩ far := by
  have hperform : s.Confines (fun _ => True) fun q : Queue W => ((),{ q with world := effect q.world }) := by
    intro q q' hq
    obtain ⟨-,hown,hmoved⟩ := heffect _ _ hq.own
    exact ⟨rfl,trivial,⟨hown,hq.jobs,hq.turns,hq.within⟩,hmoved⟩
  have hsplit := (h.step hperform).2.2
  simp only [Queue.behind_empty] at hsplit
  exact hsplit

theorem side_job {path : Path}
    (h : Split s side base ⟨w,(side :: path) :: jobs,turns⟩ near far) :
    near.jobs = path :: Path.onSides side jobs ∧
      Split s side base ⟨w,jobs,turns⟩ ⟨near.world,Path.onSides side jobs,near.turns⟩ far := by
  have hjobs := h.jobs
  have hjobs' := h.jobs'
  simp only [Path.onSides_own] at hjobs
  simp only [Path.onSides_opposite] at hjobs'
  exact ⟨hjobs.symm,⟨h.own,h.other,h.log,rfl,hjobs',h.turns,h.within,h.within'⟩⟩

theorem root_job (h : Split s side base ⟨w,[] :: jobs,turns⟩ near far) :
    Split s side base ⟨w,jobs,turns⟩ near far :=
  ⟨h.own,h.other,h.log,h.jobs,h.jobs',h.turns,h.within,h.within'⟩

theorem postJob (h : Split s side base q near far) : Split s side base (q.postJob []) near far := by
  refine ⟨h.own,h.other,h.log,?_,?_,h.turns,h.within,h.within'⟩
  · rw [← h.jobs]
    simp [Queue.postJob,Path.onSides,Path.onSide]
  · rw [← h.jobs']
    simp [Queue.postJob,Path.onSides,Path.onSide]

theorem posted {q' : Queue W} (h : Split s side base q near far) (hq : q' = q ∨ q' = q.postJob []) :
    Split s side base q' near far ∧ q'.jobs.count [] ≤ q.jobs.count [] + 1 := by
  obtain rfl | rfl := hq
  · exact ⟨h,Nat.le_succ _⟩
  · exact ⟨h.postJob,by simp [Queue.postJob,List.count_append]⟩

theorem first_turn {turn : Turn W}
    (h : Split s side base ⟨w,[],turn :: turns⟩ near far) :
    (∃ own rest, near = ⟨near.world,[],own :: rest⟩ ∧ turn = own.under [side] ∧ own.Within s ∧
        Split s side base ⟨w,[],turns⟩ ⟨near.world,[],rest⟩ far) ∨
      ∃ own rest, far = ⟨far.world,[],own :: rest⟩ ∧ turn = own.under [side.opposite] ∧
        own.Within s.swap ∧ Split s side base ⟨w,[],turns⟩ near ⟨far.world,[],rest⟩ := by
  obtain ⟨nearWorld,nearJobs,nearTurns⟩ := near
  obtain ⟨farWorld,farJobs,farTurns⟩ := far
  obtain rfl : [] = nearJobs := h.jobs
  obtain rfl : [] = farJobs := h.jobs'
  have hturns := h.turns
  generalize hn : nearTurns.map (Turn.under [side]) = xs at hturns
  generalize hf : farTurns.map (Turn.under [side.opposite]) = ys at hturns
  cases hturns with
  | left _ hrest =>
    obtain ⟨own,rest,rfl,rfl,rfl⟩ := List.map_eq_cons_iff.mp hn
    obtain ⟨hown,hwithin⟩ := List.forall_mem_cons.mp h.within
    exact .inl ⟨own,rest,rfl,rfl,hown,
      ⟨h.own,h.other,h.log,rfl,rfl,hf ▸ hrest,hwithin,h.within'⟩⟩
  | right _ hrest =>
    obtain ⟨own,rest,rfl,rfl,rfl⟩ := List.map_eq_cons_iff.mp hf
    obtain ⟨hown,hwithin⟩ := List.forall_mem_cons.mp h.within'
    exact .inr ⟨own,rest,rfl,rfl,hown,
      ⟨h.own,h.other,h.log,rfl,rfl,hn ▸ hrest,h.within,hwithin⟩⟩

theorem empty (h : Split s side base q near far) (hjobs : q.jobs = []) (hturns : q.turns = []) :
    (near.jobs = [] ∧ near.turns = []) ∧ far.jobs = [] ∧ far.turns = [] := by
  have hn := h.jobs
  have hf := h.jobs'
  have hrest := h.turns
  rw [hjobs] at hn hf
  rw [hturns] at hrest
  generalize hx : near.turns.map (Turn.under [side]) = xs at hrest
  generalize hy : far.turns.map (Turn.under [side.opposite]) = ys at hrest
  cases hrest
  exact ⟨⟨hn.symm,List.map_eq_nil_iff.mp hx⟩,hf.symm,List.map_eq_nil_iff.mp hy⟩

end Split

end Effectful
