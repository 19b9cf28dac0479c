import Effectful.Proofs.Work.Split
/-!
# The sides of a pair

A pair started at the root does, round by round, what one of its sides does next when it runs alone, or a job of
its own. So it leaves what its sides leave, logs what they log, and is decided by their outcomes: by both
answers, or by the failure that came first.
-/
namespace Effectful

variable {R W A B E α β γ : Type}

namespace Task

def failure? (t : Task R W α) : Option Failure :=
  match t.outcome? with
  | some (.error e) => some e
  | _ => none

def failureOn (side : Side) : Task R W α → Option Failure
  | pair left right _ _ _ =>
    match side with
    | .left => left.failure?
    | .right => right.failure?
  | _ => none

def noted? : Task R W α → Option Failure
  | pair _ _ _ failure _ => failure
  | _ => none

theorem failure?_eq_some {t : Task R W α} {e : Failure} :
    t.failure? = some e ↔ t.outcome? = some (.error e) := by
  unfold failure?
  split
  case h_1 e' h => simp [h]
  case h_2 h =>
    constructor
    · intro he
      cases he
    · intro he
      exact absurd he (h e)

theorem beside_pair (left : Task R W β) (right : Task R W γ) (f : β → γ → R → Outcome α) (path : Path)
    (q : Queue W) : ∃ failure, (beside left right f path q).1 = pair left right f failure 2 := by
  unfold beside
  split
  · exact ⟨_,rfl⟩
  · exact ⟨_,rfl⟩
  · exact ⟨_,rfl⟩
  · exact ⟨_,rfl⟩

theorem beside_queue (left : Task R W β) (right : Task R W γ) (f : β → γ → R → Outcome α) (path : Path)
    (q : Queue W) :
    (beside left right f path q).2 = q ∨ (beside left right f path q).2 = q.postJob path := by
  unfold beside
  split
  · exact .inr rfl
  · exact .inr rfl
  · exact .inr rfl
  · exact .inl rfl

/-- The jobs that a pair has to go once it is decided. -/
def steps : Task R W α → Nat
  | pair _ _ _ _ steps => steps
  | _ => 0

theorem eq_settled_of_ok {t : Task R W α} {a : α} (h : t.outcome? = some (.ok a)) :
    t = settled (.ok a) := by
  unfold outcome? at h
  split at h <;> cases h
  rfl

theorem failure?_eq_none {t : Task R W α} {x : Outcome α} (h : t.failure? = none)
    (hx : t.outcome? = some x) : ∃ a, t = settled (.ok a) := by
  cases x with
  | ok a => exact ⟨a,eq_settled_of_ok hx⟩
  | error e =>
    rw [failure?_eq_some.mpr hx] at h
    cases h

section Visits

variable [View W R]

theorem outcome?_visit {t : Task R W α} {x : Outcome α} (h : t.outcome? = some x) (here rest : Path)
    (q : Queue W) : (visit here t rest q).1.outcome? = some x := by
  cases t with
  | settled result => exact h
  | chain child f failure =>
    cases failure with
    | none => cases h
    | some e => exact h
  | pair left right f failure steps =>
    rcases failure with _ | e
    · cases h
    · rcases steps with _ | steps
      · rcases rest with _ | ⟨side,rest⟩
        · exact h
        · cases side <;> exact h
      · cases h
  | _ => cases h

theorem failure?_visit {t : Task R W α} {e : Failure} (h : t.failure? = some e) (here rest : Path)
    (q : Queue W) : (visit here t rest q).1.failure? = some e :=
  failure?_eq_some.mpr (outcome?_visit (failure?_eq_some.mp h) here rest q)

theorem noted?_visit {t : Task R W α} {e : Failure} (h : t.noted? = some e) (here rest : Path)
    (q : Queue W) : (visit here t rest q).1.noted? = some e := by
  cases t with
  | pair left right f failure steps =>
    obtain rfl : failure = some e := h
    rcases rest with _ | ⟨side,rest⟩
    · rcases steps with _ | _ | steps <;> rfl
    · cases side <;> rfl
  | _ => cases h

theorem visit_pair_left (left : Task R W β) (right : Task R W γ) (f : β → γ → R → Outcome α)
    (failure : Option Failure) (steps : Nat) (here rest : Path) (q : Queue W) :
    ∃ failure' steps', (visit here (pair left right f failure steps) (.left :: rest) q).1 =
      pair (visit (here ++ [.left]) left rest q).1 right f failure' steps' := by
  cases failure with
  | some e => exact ⟨_,_,rfl⟩
  | none =>
    obtain ⟨failure,hbeside⟩ := beside_pair (visit (here ++ [.left]) left rest q).1 right f here
      (visit (here ++ [.left]) left rest q).2
    exact ⟨_,_,hbeside⟩

theorem visit_pair_right (left : Task R W β) (right : Task R W γ) (f : β → γ → R → Outcome α)
    (failure : Option Failure) (steps : Nat) (here rest : Path) (q : Queue W) :
    ∃ failure' steps', (visit here (pair left right f failure steps) (.right :: rest) q).1 =
      pair left (visit (here ++ [.right]) right rest q).1 f failure' steps' := by
  cases failure with
  | some e => exact ⟨_,_,rfl⟩
  | none =>
    obtain ⟨failure,hbeside⟩ := beside_pair left (visit (here ++ [.right]) right rest q).1 f here
      (visit (here ++ [.right]) right rest q).2
    exact ⟨_,_,hbeside⟩

theorem failureOn_visit {side : Side} {t : Task R W α} {e : Failure} (h : t.failureOn side = some e)
    (here rest : Path) (q : Queue W) : (visit here t rest q).1.failureOn side = some e := by
  cases t with
  | pair left right f failure steps =>
    rcases rest with _ | ⟨first,rest⟩
    · rcases Nat.lt_or_ge steps 2 with hlast | hmore
      · rcases failure with _ | e'
        · rw [visit_pair_joined left right f hlast]
          split
          case h_1 a b hl hr =>
            rw [eq_settled_of_ok hl,eq_settled_of_ok hr] at h
            cases side <;> cases h
          case h_2 => exact h
        · rw [visit_pair_failed left right f e' hlast]
          exact h
      · obtain ⟨more,rfl⟩ := Nat.exists_eq_add_of_le' hmore
        exact h
    · cases first with
      | left =>
        obtain ⟨failure',steps',hvisit⟩ := visit_pair_left left right f failure steps here rest q
        rw [hvisit]
        cases side with
        | left => exact failure?_visit h _ _ _
        | right => exact h
      | right =>
        obtain ⟨failure',steps',hvisit⟩ := visit_pair_right left right f failure steps here rest q
        rw [hvisit]
        cases side with
        | left => exact h
        | right => exact failure?_visit h _ _ _
  | _ => cases h

end Visits

end Task

/-- How the task of a pair at the root follows from the tasks of its sides, with the jobs that are waiting. -/
inductive Joined (left : Task Unit W β) (right : Task Unit W γ) (f : β → γ → Unit → Outcome α)
    (jobs : List Path) : Task Unit W α → Prop
  | waiting {steps : Nat} (hsteps : steps ≤ 2) (hleft : left.failure? = none)
      (hright : right.failure? = none)
      (hjobs : left.outcome?.isSome → right.outcome?.isSome → [] ∈ jobs) :
      Joined left right f jobs (.pair left right f none steps)
  | failed {steps : Nat} {e : Failure} (hsteps : steps ≤ 2)
      (he : left.failure? = some e ∨ right.failure? = some e) (hjobs : steps = 0 ∨ [] ∈ jobs) :
      Joined left right f jobs (.pair left right f (some e) steps)
  | settled {a : β} {b : γ} (hleft : left = .settled (.ok a)) (hright : right = .settled (.ok b)) :
      Joined left right f jobs (.settled (f a b ()))

namespace Joined

variable {left left' : Task Unit W β} {right right' : Task Unit W γ} {f : β → γ → Unit → Outcome α}
  {jobs : List Path} {task : Task Unit W α}

theorem beside (left : Task Unit W β) (right : Task Unit W γ) (f : β → γ → Unit → Outcome α)
    (q : Queue W) :
    Joined left right f (Task.beside left right f [] q).2.jobs (Task.beside left right f [] q).1 := by
  have hposted : [] ∈ (q.postJob []).jobs := by simp [Queue.postJob]
  rcases hl : left.outcome? with _ | ⟨a | e⟩
  case some.error =>
    simp only [Task.beside,hl]
    exact .failed le_rfl (.inl (Task.failure?_eq_some.mpr hl)) (.inr hposted)
  all_goals
    rcases hr : right.outcome? with _ | ⟨b | e⟩
    case some.error =>
      simp only [Task.beside,hl,hr]
      exact .failed le_rfl (.inr (Task.failure?_eq_some.mpr hr)) (.inr hposted)
    all_goals
      simp only [Task.beside,hl,hr]
      refine .waiting le_rfl (by simp [Task.failure?,hl]) (by simp [Task.failure?,hr]) ?_
      simp [hl,hr,hposted]

theorem steps_le (h : Joined left right f jobs task) : task.steps ≤ 2 := by
  cases h with
  | waiting hsteps => exact hsteps
  | failed hsteps => exact hsteps
  | settled => exact Nat.zero_le 2

variable [View W Unit]

theorem visit_left (h : Joined left right f jobs task) (path : Path) (q : Queue W)
    (hjobs : [] ∈ jobs → [] ∈ (left.visit [.left] path q).2.jobs) :
    Joined (left.visit [.left] path q).1 right f (task.visit [] (.left :: path) q).2.jobs
        (task.visit [] (.left :: path) q).1 ∧
      ((task.visit [] (.left :: path) q).2 = (left.visit [.left] path q).2 ∨
        (task.visit [] (.left :: path) q).2 = (left.visit [.left] path q).2.postJob []) := by
  cases h with
  | waiting => exact ⟨.beside _ right f _,Task.beside_queue ..⟩
  | failed hsteps he hroot =>
    refine ⟨.failed hsteps ?_ (hroot.imp_right hjobs),.inl rfl⟩
    exact he.imp_left fun h => Task.failure?_visit h _ _ _
  | settled hleft hright =>
    subst hleft
    exact ⟨.settled rfl hright,.inl rfl⟩

theorem visit_right (h : Joined left right f jobs task) (path : Path) (q : Queue W)
    (hjobs : [] ∈ jobs → [] ∈ (right.visit [.right] path q).2.jobs) :
    Joined left (right.visit [.right] path q).1 f (task.visit [] (.right :: path) q).2.jobs
        (task.visit [] (.right :: path) q).1 ∧
      ((task.visit [] (.right :: path) q).2 = (right.visit [.right] path q).2 ∨
        (task.visit [] (.right :: path) q).2 = (right.visit [.right] path q).2.postJob []) := by
  cases h with
  | waiting => exact ⟨.beside left _ f _,Task.beside_queue ..⟩
  | failed hsteps he hroot =>
    refine ⟨.failed hsteps ?_ (hroot.imp_right hjobs),.inl rfl⟩
    exact he.imp_right fun h => Task.failure?_visit h _ _ _
  | settled hleft hright =>
    subst hright
    exact ⟨.settled hleft rfl,.inl rfl⟩

theorem visit_root (w : W) (turns : List (Turn W)) (h : Joined left right f ([] :: jobs) task) :
    Joined left right f (task.visit [] [] ⟨w,jobs,turns⟩).2.jobs (task.visit [] [] ⟨w,jobs,turns⟩).1 ∧
      ((task.visit [] [] ⟨w,jobs,turns⟩).2 = ⟨w,jobs,turns⟩ ∧
          (task.visit [] [] ⟨w,jobs,turns⟩).1.steps ≤ task.steps ∨
        (task.visit [] [] ⟨w,jobs,turns⟩).2 = (Queue.mk w jobs turns).postJob [] ∧
          (task.visit [] [] ⟨w,jobs,turns⟩).1.steps < task.steps) := by
  have hposted : [] ∈ ((Queue.mk w jobs turns).postJob []).jobs := by simp [Queue.postJob]
  cases h with
  | @waiting steps hsteps hleft hright hjobs =>
    obtain rfl | hlast : steps = 2 ∨ steps < 2 := by omega
    · exact ⟨.waiting (Nat.le_succ 1) hleft hright fun _ _ => hposted,.inr ⟨rfl,Nat.lt_succ_self 1⟩⟩
    · rw [Task.visit_pair_joined left right f hlast]
      split
      case h_1 a b hl hr =>
        exact ⟨.settled (Task.eq_settled_of_ok hl) (Task.eq_settled_of_ok hr),.inl ⟨rfl,Nat.zero_le _⟩⟩
      case h_2 hboth =>
        refine ⟨.waiting hsteps hleft hright fun hl hr => ?_,.inl ⟨rfl,le_rfl⟩⟩
        obtain ⟨x,hx⟩ := Option.isSome_iff_exists.mp hl
        obtain ⟨y,hy⟩ := Option.isSome_iff_exists.mp hr
        obtain ⟨a,rfl⟩ := Task.failure?_eq_none hleft hx
        obtain ⟨b,rfl⟩ := Task.failure?_eq_none hright hy
        exact (hboth a b rfl rfl).elim
  | @failed steps e hsteps he hjobs =>
    obtain rfl | hlast : steps = 2 ∨ steps < 2 := by omega
    · exact ⟨.failed (Nat.le_succ 1) he (.inr hposted),.inr ⟨rfl,Nat.lt_succ_self 1⟩⟩
    · rw [Task.visit_pair_failed left right f e hlast]
      exact ⟨.failed (by omega) he (.inl rfl),.inl ⟨rfl,Nat.zero_le _⟩⟩
  | settled hleft hright => exact ⟨.settled hleft hright,.inl ⟨rfl,le_rfl⟩⟩

end Joined

/-- A pair `e` at the root, and its sides `l` and `r` as they are when they run alone. -/
structure Sides (s : Footprint W A B E) (base : List E) (f : β → γ → Unit → Outcome α)
    (e : Executor Unit W α) (l : Executor Unit W β) (r : Executor Unit W γ) : Prop where
  task : Joined l.task r.task f e.queue.jobs e.task
  queue : Split s .left base e.queue l.queue r.queue
  left : l.task.Within s
  right : r.task.Within s.swap

def Executor.ownRounds (e : Executor R W α) : Nat := e.queue.jobs.count [] + e.task.steps

namespace Sides

variable {s : Footprint W A B E} {base : List E} {f : β → γ → Unit → Outcome α}
  {e : Executor Unit W α} {l : Executor Unit W β} {r : Executor Unit W γ}

theorem start {L : Work Unit W β} {R : Work Unit W γ} (hL : L.Within s) (hR : R.Within s.swap)
    (f : β → γ → Unit → Outcome α) (w : W) :
    Sides s (s.log w) f (Executor.start (.both L R f) w) (Executor.start L w) (Executor.start R w) := by
  have hempty : Split s .left (s.log w) ⟨w,[],[]⟩ ⟨w,[],[]⟩ ⟨w,[],[]⟩ :=
    ⟨rfl,rfl,⟨[],[],[],by simp,by simp,by simp,.nil⟩,rfl,rfl,.nil,nofun,nofun⟩
  obtain ⟨hl,hwithin,hsplit⟩ := hempty.start hL
  have hswap : Split s.swap .right (s.log w) _ ⟨w,[],[]⟩ _ := hsplit.swap
  obtain ⟨hr,hwithin',hsplit'⟩ := hswap.start hR
  have hback : Split s .left (s.log w) _ _ _ := hsplit'.swap
  have hjoined := Joined.beside (Task.start L [] ⟨w,[],[]⟩).1 (Task.start R [] ⟨w,[],[]⟩).1 f
    (Task.start R [.right] (Task.start L [.left] ⟨w,[],[]⟩).2).2
  have hstart : Task.start (.both L R f) [] ⟨w,[],[]⟩ =
      Task.beside (Task.start L [] ⟨w,[],[]⟩).1 (Task.start R [] ⟨w,[],[]⟩).1 f []
        (Task.start R [.right] (Task.start L [.left] ⟨w,[],[]⟩).2).2 := by
    rw [← hl,← hr]
    rfl
  unfold Executor.start
  rw [hstart]
  exact ⟨hjoined,(hback.posted (Task.beside_queue ..)).1,hwithin,hwithin'⟩

theorem isIdle (h : Sides s base f e l r) (hidle : e.isIdle = true) :
    l.isIdle = true ∧ r.isIdle = true := by
  obtain ⟨hjobs,hturns⟩ := Executor.isIdle_iff.mp hidle
  obtain ⟨hl,hr⟩ := h.queue.empty hjobs hturns
  exact ⟨Executor.isIdle_iff.mpr hl,Executor.isIdle_iff.mpr hr⟩

variable [View W Unit]

private def visited (task : Task Unit W α) (path : Path) (q : Queue W) : Executor Unit W α :=
  ⟨(task.visit [] path q).1,(task.visit [] path q).2⟩

private theorem visit_left (r : Executor Unit W γ) (path : Path) {task : Task Unit W α}
    {left : Task Unit W β} {w w' : W} {jobs waiting jobs' : List Path} {turns turns' : List (Turn W)}
    (htask : Joined left r.task f waiting task) (hwaiting : [] ∈ waiting → [] ∈ jobs)
    (hqueue : Split s .left base ⟨w,jobs,turns⟩ ⟨w',jobs',turns'⟩ r.queue)
    (hleft : left.Within s) (hright : r.task.Within s.swap) :
    Sides s base f (visited task (.left :: path) ⟨w,jobs,turns⟩)
        (visited left path ⟨w',jobs',turns'⟩) r ∧
      (visited task (.left :: path) ⟨w,jobs,turns⟩).ownRounds ≤ jobs.count [] + 3 := by
  obtain ⟨hsame,hwithin,hsplit,hcount⟩ := hqueue.visit hleft path
  obtain ⟨hjoined,hposted⟩ := htask.visit_left path ⟨w,jobs,turns⟩ fun h =>
    Path.root_mem_of_count hcount (hwaiting h)
  obtain ⟨hsplit,hrounds⟩ := hsplit.posted hposted
  rw [hsame] at hjoined
  refine ⟨⟨hjoined,hsplit,hwithin,hright⟩,?_⟩
  have hsteps := hjoined.steps_le
  simp only [Executor.ownRounds,visited]
  omega

private theorem visit_right (l : Executor Unit W β) (path : Path) {task : Task Unit W α}
    {right : Task Unit W γ} {w w' : W} {jobs waiting jobs' : List Path} {turns turns' : List (Turn W)}
    (htask : Joined l.task right f waiting task) (hwaiting : [] ∈ waiting → [] ∈ jobs)
    (hqueue : Split s .left base ⟨w,jobs,turns⟩ l.queue ⟨w',jobs',turns'⟩)
    (hleft : l.task.Within s) (hright : right.Within s.swap) :
    Sides s base f (visited task (.right :: path) ⟨w,jobs,turns⟩) l
        (visited right path ⟨w',jobs',turns'⟩) ∧
      (visited task (.right :: path) ⟨w,jobs,turns⟩).ownRounds ≤ jobs.count [] + 3 := by
  have hswap : Split s.swap .right base ⟨w,jobs,turns⟩ ⟨w',jobs',turns'⟩ l.queue := hqueue.swap
  obtain ⟨hsame,hwithin,hsplit,hcount⟩ := hswap.visit hright path
  obtain ⟨hjoined,hposted⟩ := htask.visit_right path ⟨w,jobs,turns⟩ fun h =>
    Path.root_mem_of_count hcount (hwaiting h)
  obtain ⟨hsplit,hrounds⟩ := hsplit.posted hposted
  rw [hsame] at hjoined
  refine ⟨⟨hjoined,hsplit.swap,hleft,hwithin⟩,?_⟩
  have hsteps := hjoined.steps_le
  simp only [Executor.ownRounds,visited]
  omega

/-- A round of the pair is a round of one of its sides, or does a job of its own. -/
theorem advance (h : Sides s base f e l r) (hidle : e.isIdle = false) :
    (l.isIdle = false ∧ Sides s base f e.advance l.advance r ∧
        e.advance.ownRounds ≤ e.ownRounds + 3) ∨
      (r.isIdle = false ∧ Sides s base f e.advance l r.advance ∧
        e.advance.ownRounds ≤ e.ownRounds + 3) ∨
      Sides s base f e.advance l r ∧ e.advance.ownRounds < e.ownRounds := by
  obtain ⟨task,⟨w,jobs,turns⟩⟩ := e
  obtain ⟨left,⟨lw,ljobs,lturns⟩⟩ := l
  obtain ⟨right,⟨rw,rjobs,rturns⟩⟩ := r
  obtain ⟨htask,hqueue,hleft,hright⟩ := h
  dsimp only at htask hqueue hleft hright
  rcases jobs with _ | ⟨_ | ⟨side,path⟩,jobs⟩
  · rcases turns with _ | ⟨turn,turns⟩
    · cases hidle
    · rcases hqueue.first_turn with ⟨own,rest,hnear,rfl,hown,hrest⟩ | ⟨own,rest,hfar,rfl,hown,hrest⟩
      · cases hnear
        refine .inl ⟨rfl,?_⟩
        cases own with
        | resume path =>
          obtain ⟨hsides,hrounds⟩ := visit_left ⟨right,⟨rw,rjobs,rturns⟩⟩ path
            htask id hrest hleft hright
          refine ⟨hsides,hrounds.trans ?_⟩
          simp only [Executor.ownRounds]
          omega
        | stray effect => exact ⟨⟨htask,hrest.stray hown,hleft,hright⟩,Nat.le_add_right _ _⟩
      · cases hfar
        refine .inr (.inl ⟨rfl,?_⟩)
        cases own with
        | resume path =>
          obtain ⟨hsides,hrounds⟩ := visit_right ⟨left,⟨lw,ljobs,lturns⟩⟩ path
            htask id hrest hleft hright
          refine ⟨hsides,hrounds.trans ?_⟩
          simp only [Executor.ownRounds]
          omega
        | stray effect =>
          exact ⟨⟨htask,(hrest.swap.stray hown).swap,hleft,hright⟩,Nat.le_add_right _ _⟩
  · obtain ⟨hjoined,⟨hposted,hsteps⟩ | ⟨hposted,hsteps⟩⟩ := htask.visit_root w turns
    · refine .inr (.inr ⟨⟨hjoined,?_,hleft,hright⟩,?_⟩)
      · exact (hqueue.root_job.posted (.inl hposted)).1
      · simp only [Executor.advance,Executor.ownRounds,hposted,List.count_cons_self]
        omega
    · refine .inr (.inr ⟨⟨hjoined,?_,hleft,hright⟩,?_⟩)
      · exact (hqueue.root_job.posted (.inr hposted)).1
      · simp only [Executor.advance,Executor.ownRounds,hposted,Queue.postJob,List.count_append,
          List.count_cons_self,List.count_nil]
        omega
  · cases side with
    | left =>
      obtain ⟨hjobs,hrest⟩ := hqueue.side_job
      dsimp only at hjobs
      subst hjobs
      obtain ⟨hsides,hrounds⟩ := visit_left ⟨right,⟨rw,rjobs,rturns⟩⟩ path
        htask (by simp) hrest hleft hright
      refine .inl ⟨rfl,hsides,hrounds.trans ?_⟩
      simp only [Executor.ownRounds,List.count_cons]
      omega
    | right =>
      obtain ⟨hjobs,hrest⟩ := Split.side_job (hqueue.swap : Split s.swap .right base _ _ _)
      dsimp only at hjobs
      subst hjobs
      obtain ⟨hsides,hrounds⟩ := visit_right ⟨left,⟨lw,ljobs,lturns⟩⟩ path
        htask (by simp) hrest.swap hleft hright
      refine .inr (.inl ⟨rfl,hsides,hrounds.trans ?_⟩)
      simp only [Executor.ownRounds,List.count_cons]
      omega

theorem iterate (h : Sides s base f e l r) (k : Nat) :
    ∃ i j, Sides s base f (Executor.advance^[k] e) (Executor.advance^[i] l) (Executor.advance^[j] r) := by
  induction k with
  | zero => exact ⟨0,0,h⟩
  | succ k ih =>
    obtain ⟨i,j,hk⟩ := ih
    rw [Function.iterate_succ_apply']
    cases hidle : (Executor.advance^[k] e).isIdle with
    | true =>
      rw [Executor.advance_of_isIdle hidle]
      exact ⟨i,j,hk⟩
    | false =>
      rcases hk.advance hidle with ⟨-,hl,-⟩ | ⟨-,hr,-⟩ | ⟨hown,-⟩
      · rw [← Function.iterate_succ_apply' Executor.advance i] at hl
        exact ⟨i + 1,j,hl⟩
      · rw [← Function.iterate_succ_apply' Executor.advance j] at hr
        exact ⟨i,j + 1,hr⟩
      · exact ⟨i,j,hown⟩

/-- If both sides come to their ends alone, so does the pair, when both have. Each round of a side pays for
itself and for three rounds of the pair's own. -/
theorem reaches (h : Sides s base f e l r) {n m : Nat}
    (hn : (Executor.advance^[n] l).isIdle = true) (hm : (Executor.advance^[m] r).isIdle = true) :
    ∃ k, (Executor.advance^[k] e).isIdle = true ∧
      Sides s base f (Executor.advance^[k] e) (Executor.advance^[n] l) (Executor.advance^[m] r) := by
  induction hbudget : 4 * (n + m) + e.ownRounds using Nat.strong_induction_on generalizing e l r n m with
  | _ budget ih =>
    cases hidle : e.isIdle with
    | true =>
      obtain ⟨hl,hr⟩ := h.isIdle hidle
      refine ⟨0,hidle,?_⟩
      rwa [Function.iterate_fixed (Executor.advance_of_isIdle hl),
        Function.iterate_fixed (Executor.advance_of_isIdle hr)]
    | false =>
      have hround : ∀ {n' m' : Nat} {l' : Executor Unit W β} {r' : Executor Unit W γ},
          Sides s base f e.advance l' r' → Executor.advance^[n'] l' = Executor.advance^[n] l →
          Executor.advance^[m'] r' = Executor.advance^[m] r →
          4 * (n' + m') + e.advance.ownRounds < budget →
          ∃ k, (Executor.advance^[k] e).isIdle = true ∧
            Sides s base f (Executor.advance^[k] e) (Executor.advance^[n] l)
              (Executor.advance^[m] r) := by
        intro n' m' l' r' hnext hl hr hless
        obtain ⟨k,hk,hsides⟩ := ih _ hless hnext (hl ▸ hn) (hr ▸ hm) rfl
        rw [hl,hr] at hsides
        exact ⟨k + 1,hk,hsides⟩
      rcases h.advance hidle with ⟨hl,hnext,hrounds⟩ | ⟨hr,hnext,hrounds⟩ | ⟨hnext,hrounds⟩
      · cases n with
        | zero => exact absurd hn (by simp [hl])
        | succ n => exact hround hnext rfl rfl (by omega)
      · cases m with
        | zero => exact absurd hm (by simp [hr])
        | succ m => exact hround hnext rfl rfl (by omega)
      · exact hround hnext rfl rfl (by omega)

end Sides

end Effectful
