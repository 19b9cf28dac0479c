import Effectful.Work.Executor
/-!
# Visits below a place

Starting work and visiting a task only add to the queues, and they address what they ask for from the place
where the task stands. So a task that stands below a pair asks for the same jobs and turns as at the root,
at the end of the queues and with the way to it in front.
-/
namespace Effectful

variable {R W α β γ : Type}

/-- A request that was made at the root, made at a place. -/
def Turn.under (here : Path) : Turn W → Turn W
  | .resume path => .resume (here ++ path)
  | .stray effect => .stray effect

namespace Queue

/-- The queue of a task that stands at a place, after older jobs and turns. -/
def behind (here : Path) (jobs : List Path) (turns : List (Turn W)) (q : Queue W) : Queue W where
  world := q.world
  jobs := jobs ++ q.jobs.map (here ++ ·)
  turns := turns ++ q.turns.map (Turn.under here)

variable (here : Path) (jobs : List Path) (turns : List (Turn W)) (q : Queue W)

theorem behind_empty (w : W) : (Queue.mk w [] []).behind here jobs turns = ⟨w,jobs,turns⟩ := by
  simp [behind]

@[simp] theorem behind_postJob (path : Path) :
    (q.behind here jobs turns).postJob (here ++ path) = (q.postJob path).behind here jobs turns := by
  simp [behind,postJob]

@[simp] theorem behind_resume (path : Path) :
    (q.behind here jobs turns).postTurn (.resume (here ++ path)) =
      (q.postTurn (.resume path)).behind here jobs turns := by
  simp [behind,postTurn,Turn.under]

@[simp] theorem behind_postStrays (effects : List (W → α × W)) :
    (q.behind here jobs turns).postStrays effects = (q.postStrays effects).behind here jobs turns := by
  simp [behind,postStrays,Turn.under]

@[simp] theorem behind_perform (t : Action W α) :
    (q.behind here jobs turns).perform t = ((q.perform t).1,(q.perform t).2.behind here jobs turns) :=
  rfl

end Queue

namespace Task

/-- A callback that is registered, once its reply is known. -/
def replied (path : Path) : Outcome (Reply W α) → Queue W → Task R W α × Queue W
  | .error e, q => (settled (.error e),q)
  | .ok ⟨a :: _,later⟩, q => (settled (.ok a),q.postStrays later)
  | .ok ⟨[],answer :: later⟩, q => (listening answer,(q.postTurn (.resume path)).postStrays later)
  | .ok ⟨[],[]⟩, q => (silent,q)

theorem start_callback (register : Action W (Reply W α)) (path : Path) (q : Queue W) :
    start (.callback register : Work R W α) path q =
      replied path (q.perform register).1 (q.perform register).2 := by
  simp only [start]
  rcases q.perform register with ⟨⟨_ | ⟨a,now⟩,_ | ⟨answer,later⟩⟩ | e,q⟩ <;> rfl

variable (here : Path) (jobs : List Path) (turns : List (Turn W))

private theorem above_behind (child : Task R W β) (f : β → R → Work R W α) (path : Path) (q : Queue W) :
    above child f (here ++ path) (q.behind here jobs turns) =
      ((above child f path q).1,(above child f path q).2.behind here jobs turns) := by
  unfold above
  split <;> simp

private theorem passOn_behind (child : Task R W α) (steps : Nat) (path : Path) (q : Queue W) :
    passOn child steps (here ++ path) (q.behind here jobs turns) =
      ((passOn child steps path q).1,(passOn child steps path q).2.behind here jobs turns) := by
  unfold passOn
  split
  · rfl
  · split <;> simp

private theorem beside_behind (left : Task R W β) (right : Task R W γ) (f : β → γ → R → Outcome α)
    (path : Path) (q : Queue W) :
    beside left right f (here ++ path) (q.behind here jobs turns) =
      ((beside left right f path q).1,(beside left right f path q).2.behind here jobs turns) := by
  unfold beside
  split <;> simp

theorem start_behind (work : Work R W α) (path : Path) (q : Queue W) :
    start work (here ++ path) (q.behind here jobs turns) =
      ((start work path q).1,(start work path q).2.behind here jobs turns) := by
  induction work generalizing path q with
  | answer | reject | delay => rfl
  | fork work ih => simp [start]
  | callback register =>
    simp only [start,Queue.behind_perform]
    rcases q.perform register with ⟨⟨now,later⟩ | e,q'⟩
    · cases now <;> cases later <;> simp
    · rfl
  | andThen work f ih =>
    simp only [start,ih]
    exact above_behind ..
  | both left right f ihl ihr =>
    simp only [start,List.append_assoc,ihl,ihr]
    exact beside_behind ..

private theorem goOn_behind (work : Work R W α) (path : Path) (q : Queue W) :
    goOn work (here ++ path) (q.behind here jobs turns) =
      ((goOn work path q).1,(goOn work path q).2.behind here jobs turns) := by
  cases work with
  | reject e => rfl
  | _ =>
    simp only [goOn,start_behind]
    split <;> simp

/-- What a visit does at a place, it does at every other. -/
theorem visit_behind [View W R] (task : Task R W α) (path rest : Path) (q : Queue W) :
    visit (here ++ path) task rest (q.behind here jobs turns) =
      ((visit path task rest q).1,(visit path task rest q).2.behind here jobs turns) := by
  induction task generalizing path rest q with
  | settled | silent | listening => rfl
  | asleep work => exact start_behind ..
  | chain child f failure ih =>
    cases failure with
    | none =>
      simp only [visit]
      split
      · exact goOn_behind ..
      · rfl
      · simp only [ih]
      · simp only [ih]
        exact above_behind ..
    | some e => simp only [visit,ih]
  | relay child steps ih =>
    simp only [visit]
    split
    · split <;> simp
    · simp only [ih]
    · simp only [ih]
      exact passOn_behind ..
  | pair left right f failure steps ihl ihr =>
    cases rest with
    | nil =>
      simp only [visit]
      split
      · simp
      · rfl
      · split <;> rfl
    | cons side rest =>
      cases side <;> simp only [visit,List.append_assoc,ihl,ihr] <;> split <;>
        first | rfl | exact beside_behind ..

section Visits

variable [View W R]

theorem visit_chain {t : Task R W β} (h : t.outcome? = none) (f : β → R → Work R W α)
    (here rest : Path) (q : Queue W) :
    visit here (chain t f none) rest q =
      above (visit here t rest q).1 f here (visit here t rest q).2 := by
  simp only [visit,h]

theorem visit_relay {t : Task R W α} (h : t.outcome? = none) (steps : Nat) (here rest : Path)
    (q : Queue W) :
    visit here (relay t steps) rest q =
      passOn (visit here t rest q).1 steps here (visit here t rest q).2 := by
  simp only [visit,h]

theorem visit_pair_failed (left : Task R W β) (right : Task R W γ) (f : β → γ → R → Outcome α)
    (e : Failure) {steps : Nat} (hsteps : steps < 2) (here : Path) (q : Queue W) :
    visit here (pair left right f (some e) steps) [] q = (pair left right f (some e) 0,q) := by
  obtain rfl | rfl : steps = 0 ∨ steps = 1 := by omega
  all_goals rfl

theorem visit_pair_joined (left : Task R W β) (right : Task R W γ) (f : β → γ → R → Outcome α)
    {steps : Nat} (hsteps : steps < 2) (here : Path) (q : Queue W) :
    visit here (pair left right f none steps) [] q =
      match left.outcome?, right.outcome? with
      | some (.ok a), some (.ok b) => (settled (f a b (View.look q.world)),q)
      | _, _ => (pair left right f none steps,q) := by
  obtain rfl | rfl : steps = 0 ∨ steps = 1 := by omega
  all_goals rfl

end Visits

end Task

end Effectful
