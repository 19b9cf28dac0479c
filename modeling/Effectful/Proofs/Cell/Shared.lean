import Effectful.Proofs.Cell.Protocol
/-!
# A cell that two sides share

Two programs that modify a cell run side by side. Jobs of one side only are waiting at a time, and they all run
before the next turn; so a modify whose write is a job of the turn of its read is not disturbed, while one whose
write waits for a turn of its own may be. The history of the cell is that of the reads and writes of both programs.
-/
namespace Effectful

variable {R W V α β γ : Type}

/-- Only jobs of one side and of the pair itself are waiting. A modify that is the last thing its side does is under
way on that side only, and a job of the side is waiting then. -/
structure OnTurn (side : Side) (begun : Side → Option (Begun V)) (jobs : List Path) : Prop where
  sided : ∀ path ∈ jobs, path.head? ≠ some side.opposite
  free : ∀ m, begun side.opposite = some m → m.last = false
  held : ∀ m, begun side = some m → m.last = true → ∃ path ∈ jobs, path.head? = some side

namespace OnTurn

variable {side : Side} {begun : Side → Option (Begun V)} {q q' : Queue W}

/-- A side that is visited next finds no modify of the other side that must not be disturbed. -/
theorem next {turn : Side} (h : OnTurn turn begun q.jobs) {path : Path} (hnext : q.Next (side :: path) q') :
    (∀ m, begun side.opposite = some m → m.last = false) ∧
      ∀ path ∈ q'.jobs, path.head? ≠ some side.opposite := by
  cases hnext with
  | job w path jobs turns =>
    obtain ⟨hfirst,hrest⟩ := List.forall_mem_cons.mp h.sided
    rcases side.eq_or_opposite turn with rfl | rfl
    · exact ⟨h.free,hrest⟩
    · exact (hfirst rfl).elim
  | turn w path turns =>
    have hheld : ∀ m, begun turn = some m → m.last = false := by
      intro m hm
      by_contra hlast
      obtain ⟨_,hmem,-⟩ := h.held m hm (Bool.eq_true_of_not_eq_false hlast)
      cases hmem
    refine ⟨?_,nofun⟩
    rcases side.eq_or_opposite turn with rfl | rfl
    · exact h.free
    · rw [turn.opposite_opposite]
      exact hheld

theorem next_root (h : OnTurn side begun q.jobs) (hnext : q.Next [] q') : OnTurn side begun q'.jobs := by
  cases hnext with
  | job w jobs turns =>
    refine ⟨(List.forall_mem_cons.mp h.sided).2,h.free,fun m hm hlast => ?_⟩
    obtain ⟨path,hmem,hhead⟩ := h.held m hm hlast
    rcases List.mem_cons.mp hmem with rfl | hmem
    · cases hhead
    · exact ⟨path,hmem,hhead⟩
  | turn => exact h

theorem postJob (h : OnTurn side begun q.jobs) : OnTurn side begun (q.postJob []).jobs := by
  refine ⟨fun path hmem => ?_,h.free,fun m hm hlast => ?_⟩
  · rcases List.mem_append.mp hmem with hmem | hmem
    · exact h.sided path hmem
    · rw [List.mem_singleton.mp hmem]
      exact nofun
  · obtain ⟨path,hmem,hhead⟩ := h.held m hm hlast
    exact ⟨path,List.mem_append_left _ hmem,hhead⟩

end OnTurn

variable [HasStore W V] (c : Cell) (v : V)

/-- Two sides on one queue, seen from one of them. Unless a side fails, what has been done to the cell is recorded,
and both sides keep to their protocols. -/
inductive Shared (side : Side) (near : Task R (W × List (Access V)) β) (far : Task R (W × List (Access V)) γ)
    (q : Queue (W × List (Access V))) : Prop
  | failed (h : near.Failed ∨ far.Failed)
  | apart (hn : near.Apart c) (hf : far.Apart c) (hr : Recorded c v q.world fun _ => none)
      (hturns : ∀ turn ∈ q.turns, turn.Apart c)
  | running {begun : Side → Option (Begun V)} {turn : Side} (hn : near.Protocol c side (begun side))
      (hf : far.Protocol c side.opposite (begun side.opposite)) (hr : Recorded c v q.world begun)
      (hturns : ∀ turn ∈ q.turns, turn.Apart c) (hjobs : OnTurn turn begun q.jobs)

variable {c v}

theorem Turn.Apart.under {turn : Turn (W × List (Access V))} (h : turn.Apart c) (here : Path) :
    (turn.under here).Apart c := by
  obtain ⟨_,h⟩ := h
  cases h with
  | resume path => exact ⟨_,.resume _⟩
  | stray h => exact ⟨_,.stray h⟩

namespace Shared

variable {side : Side} {near : Task R (W × List (Access V)) β} {far : Task R (W × List (Access V)) γ}
  {q q' : Queue (W × List (Access V))}

theorem swap (h : Shared c v side near far q) : Shared c v side.opposite far near q := by
  cases h with
  | failed h => exact .failed h.symm
  | apart hn hf hr hturns => exact .apart hf hn hr hturns
  | running hn hf hr hturns hjobs =>
    refine .running hf ?_ hr hturns hjobs
    rw [side.opposite_opposite]
    exact hn

theorem next_root (h : Shared c v side near far q) (hnext : q.Next [] q') : Shared c v side near far q' := by
  cases h with
  | failed h => exact .failed h
  | apart hn hf hr hturns =>
    exact .apart hn hf (hnext.world_eq ▸ hr) fun turn hmem => hturns turn (hnext.turns_subset hmem)
  | running hn hf hr hturns hjobs =>
    exact .running hn hf (hnext.world_eq ▸ hr) (fun turn hmem => hturns turn (hnext.turns_subset hmem))
      (hjobs.next_root hnext)

theorem posted (h : Shared c v side near far q) (hq : q' = q ∨ q' = q.postJob []) :
    Shared c v side near far q' := by
  obtain rfl | rfl := hq
  · exact h
  · cases h with
    | failed h => exact .failed h
    | apart hn hf hr hturns => exact .apart hn hf hr hturns
    | running hn hf hr hturns hjobs => exact .running hn hf hr hturns hjobs.postJob

private theorem turns_behind {turns : List (Turn (W × List (Access V)))}
    (hturns : ∀ turn ∈ turns, turn.Apart c) (hq : ∀ turn ∈ q.turns, turn.Apart c) (here : Path) (jobs : List Path) :
    ∀ turn ∈ (q.behind here jobs turns).turns, turn.Apart c := by
  intro turn hmem
  rcases List.mem_append.mp hmem with hmem | hmem
  · exact hturns turn hmem
  · obtain ⟨own,hown,rfl⟩ := List.mem_map.mp hmem
    exact (hq own hown).under here

private theorem sided_behind (side : Side) {q : Queue W} {jobs : List Path}
    (hjobs : ∀ path ∈ jobs, path.head? ≠ some side.opposite) (turns : List (Turn W)) :
    ∀ path ∈ (q.behind [side] jobs turns).jobs, path.head? ≠ some side.opposite := by
  intro path hmem
  rcases List.mem_append.mp hmem with hmem | hmem
  · exact hjobs path hmem
  · obtain ⟨path,-,rfl⟩ := List.mem_map.mp hmem
    simpa using side.opposite_ne

private theorem held_behind {q : Queue W} (hq : q.jobs ≠ []) (jobs : List Path) (turns : List (Turn W)) :
    ∃ path ∈ (q.behind [side] jobs turns).jobs, path.head? = some side := by
  obtain ⟨path,hmem⟩ := List.exists_mem_of_ne_nil _ hq
  exact ⟨[side] ++ path,List.mem_append_right _ (List.mem_map_of_mem hmem),rfl⟩

private theorem fresh (turn : Side) (hn : near.Protocol c side none) (hf : far.Protocol c side.opposite none)
    (hr : Recorded c v q.world fun _ => none) (hturns : ∀ turn ∈ q.turns, turn.Apart c)
    (hsided : ∀ path ∈ q.jobs, path.head? ≠ some turn.opposite) : Shared c v side near far q := by
  have hjobs : OnTurn turn (V := V) (fun _ => none) q.jobs := ⟨hsided,fun _ => nofun,fun _ => nofun⟩
  exact .running hn hf hr hturns hjobs

attribute [local instance] View.first in
/-- A visit to one side leaves what has been done to the cell recorded. -/
theorem visit [LawfulStore W V] [View W R] (h : Shared c v side near far q) {path : Path}
    (hnext : q.Next (side :: path) q') :
    Shared c v side (near.visit [side] path q').1 far (near.visit [side] path q').2 := by
  obtain ⟨w,jobs,turns⟩ := q'
  have hvisit : near.visit [side] path ⟨w,jobs,turns⟩ = ((near.visit [] path ⟨w,[],[]⟩).1,
      (near.visit [] path ⟨w,[],[]⟩).2.behind [side] jobs turns) := by
    simpa [Queue.behind_empty] using Task.visit_behind [side] jobs turns near [] path ⟨w,[],[]⟩
  obtain rfl : w = q.world := hnext.world_eq
  have hrest : turns ⊆ q.turns := hnext.turns_subset
  rw [hvisit]
  cases h with
  | failed h =>
    rcases h with h | h
    · exact .failed (.inl (h.visit ..))
    · exact .failed (.inr h)
  | apart hn hf hr hturns =>
    obtain ⟨hn',hchange,hturns'⟩ := hn.visit path q.world
    exact .apart hn' hf (hr.kept hchange) (turns_behind (fun turn hmem => hturns turn (hrest hmem)) hturns' _ _)
  | @running begun turn hn hf hr hturns hjobs =>
    obtain ⟨hfree,hsided⟩ := hjobs.next hnext
    rcases Continues.visit hn hr hfree path with h | ⟨begun',hother,hr',hn',hturns',hheld⟩
    · exact .failed (.inl h)
    · refine .running hn' (by rw [hother]; exact hf) hr'
        (turns_behind (fun turn hmem => hturns turn (hrest hmem)) hturns' _ _)
        ⟨sided_behind side hsided turns,by rw [hother]; exact hfree,fun m hm hlast =>
          held_behind (hheld m hm hlast) jobs turns⟩

theorem stray {w : W × List (Access V)} {effect : W × List (Access V) → W × List (Access V)}
    {turns : List (Turn (W × List (Access V)))} (h : Shared c v side near far ⟨w,[],.stray effect :: turns⟩) :
    Shared c v side near far ⟨effect w,[],turns⟩ := by
  have hchange : (Turn.stray effect).Apart c → (c.keeping V (Access V)).change w (effect w) := by
    rintro ⟨_,h⟩
    cases h with
    | stray h => exact (h w w.1 rfl).2.2
  cases h with
  | failed h => exact .failed h
  | apart hn hf hr hturns =>
    obtain ⟨hstray,hturns⟩ := List.forall_mem_cons.mp hturns
    exact .apart hn hf (hr.kept (hchange hstray)) hturns
  | running hn hf hr hturns hjobs =>
    obtain ⟨hstray,hturns⟩ := List.forall_mem_cons.mp hturns
    exact .running hn hf (hr.kept (hchange hstray)) hturns hjobs

end Shared

private theorem Work.Protocol.start {side : Side} {work : Work R (W × List (Access V)) α}
    (h : work.Protocol c side none) (w : W × List (Access V)) :
    (Task.start work [] ⟨w,[],[]⟩).1.Failed ∨
      (c.keeping V (Access V)).change w (Task.start work [] ⟨w,[],[]⟩).2.world ∧
        (Task.start work [] ⟨w,[],[]⟩).1.Protocol c side none ∧
        (∀ turn ∈ (Task.start work [] ⟨w,[],[]⟩).2.turns, turn.Apart c) ∧
        ((Task.start work [] ⟨w,[],[]⟩).1.Apart c ∨ (Task.start work [] ⟨w,[],[]⟩).2.jobs = []) := by
  have hasleep : ∀ {work : Work R (W × List (Access V)) α}, (Work.fork work).Protocol c side none →
      (c.keeping V (Access V)).change w w ∧ (Task.asleep work).Protocol c side none ∧
        (∀ turn ∈ ([.resume []] : List (Turn (W × List (Access V)))), turn.Apart c) ∧
        ((Task.asleep work).Apart c ∨ [] = ([] : List Path)) := by
    intro work h
    refine ⟨(c.keeping V (Access V)).refl w,.asleep h,?_,.inr rfl⟩
    intro turn hmem
    obtain rfl := List.mem_singleton.mp hmem
    exact ⟨_,.resume []⟩
  cases h with
  | reject e => exact .inl (.known rfl)
  | apart h =>
    obtain ⟨ht,hchange,hturns⟩ := h.start w
    exact .inr ⟨hchange,.apart ht,hturns,.inl ht⟩
  | effect h hk => exact .inr (hasleep (.effect h hk))
  | read last f hk => exact .inr (hasleep (.read last f hk))

/-- A pair at the root whose sides share the cell. -/
def Sharing (c : Cell) (v : V) (f : β → γ → R → Outcome α) (e : Executor R (W × List (Access V)) α) : Prop :=
  ∃ left right, Paired left right f e.task ∧ Shared c v .left left right e.queue

namespace Sharing

variable {f : β → γ → R → Outcome α} {e : Executor R (W × List (Access V)) α}

theorem start {L : Work R (W × List (Access V)) β} {K : Work R (W × List (Access V)) γ}
    (hL : L.Protocol c .left none) (hK : K.Protocol c .right none) (f : β → γ → R → Outcome α) {w : W}
    (hv : c.content w = some v) : Sharing c v f (Executor.start (.both L K f) (w,[])) := by
  have hplace : ∀ {δ : Type} (work : Work R (W × List (Access V)) δ) (side : Side)
      (q : Queue (W × List (Access V))), Task.start work [side] q =
        ((Task.start work [] ⟨q.world,[],[]⟩).1,
          (Task.start work [] ⟨q.world,[],[]⟩).2.behind [side] q.jobs q.turns) := by
    intro δ work side q
    simpa [Queue.behind_empty] using Task.start_behind [side] q.jobs q.turns work [] ⟨q.world,[],[]⟩
  have hshared : Shared c v .left (Task.start L [.left] ⟨(w,[]),[],[]⟩).1
      (Task.start K [.right] (Task.start L [.left] ⟨(w,[]),[],[]⟩).2).1
      (Task.start K [.right] (Task.start L [.left] ⟨(w,[]),[],[]⟩).2).2 := by
    rw [hplace K,hplace L]
    have hr : Recorded c v (w,[]) fun _ => none := ⟨v,hv,.nil⟩
    rcases hL.start (w,[]) with hfailed | ⟨hchange,hn,hturns,hl⟩
    · exact .failed (.inl hfailed)
    rcases hK.start (Task.start L [] ⟨(w,[]),[],[]⟩).2.world with hfailed | ⟨hchange',hf,hturns',hk⟩
    · exact .failed (.inr hfailed)
    have hr' := (hr.kept hchange).kept hchange'
    have hall := Shared.turns_behind
      (Shared.turns_behind (List.forall_mem_nil _) hturns [.left] []) hturns' [.right]
      ((Task.start L [] ⟨(w,[]),[],[]⟩).2.behind [.left] [] []).jobs
    rcases hl with hl | hl
    · rcases hk with hk | hk
      · exact .apart hl hk hr' hall
      · refine Shared.fresh .left hn hf hr' hall fun path hmem => ?_
        simp only [Queue.behind,hk,List.map_nil,List.append_nil] at hmem
        exact Shared.sided_behind .left (List.forall_mem_nil _) [] path hmem
    · refine Shared.fresh .right hn hf hr' hall (Shared.sided_behind .right ?_ _)
      simp [Queue.behind,hl]
  exact ⟨_,_,.beside _ _ f [] _,hshared.posted (Task.beside_queue ..)⟩

attribute [local instance] View.first

theorem advance [LawfulStore W V] [View W R] (h : Sharing c v f e) : Sharing c v f e.advance := by
  obtain ⟨left,right,htask,hqueue⟩ := h
  rcases e.advance_cases with ⟨path,q,hnext,heq⟩ | ⟨w,effect,turns,hq,heq⟩ | heq
  · rw [heq]
    rcases path with _ | ⟨side,path⟩
    · obtain ⟨hpaired,hposted⟩ := htask.visit_root q
      exact ⟨left,right,hpaired,(hqueue.next_root hnext).posted hposted⟩
    · cases side with
      | left =>
        obtain ⟨hpaired,hposted⟩ := htask.visit_left path q
        exact ⟨_,right,hpaired,(hqueue.visit hnext).posted hposted⟩
      | right =>
        obtain ⟨hpaired,hposted⟩ := htask.visit_right path q
        have hvisit : Shared c v .right _ left _ := hqueue.swap.visit hnext
        exact ⟨left,_,hpaired,Shared.posted hvisit.swap hposted⟩
  · rw [heq]
    rw [hq] at hqueue
    exact ⟨left,right,htask,hqueue.stray⟩
  · rw [heq]
    exact ⟨left,right,htask,hqueue⟩

theorem iterate [LawfulStore W V] [View W R] (h : Sharing c v f e) (n : Nat) :
    Sharing c v f (Executor.advance^[n] e) :=
  Function.Iterate.rec (Sharing c v f) h (fun _ => advance) n

theorem answered (h : Sharing c v f e) {x : α} (hx : e.task.outcome? = some (.ok x)) :
    Recorded c v e.queue.world fun _ => none := by
  obtain ⟨left,right,htask,hqueue⟩ := h
  obtain ⟨a,b,rfl,rfl⟩ := htask.answered hx
  cases hqueue with
  | failed h =>
    rcases h with h | h
    · exact (h.not_answered rfl).elim
    · exact (h.not_answered rfl).elim
  | apart _ _ hr => exact hr
  | @running begun _ hn hf hr =>
    have hnone : begun = fun _ => none := by
      funext side
      cases side with
      | left => exact (hn.of_answered rfl).1
      | right => exact (hf.of_answered rfl).1
    rwa [hnone] at hr

end Sharing

attribute [local instance] View.first in
/-- The history of a cell that two programs modify side by side. If both answer, the content of the cell comes of the
reads and writes of their modifies, each program's in its own order, as they are noted by a run that does the same and
notes them: each modify writes, and answers, what its function makes of the value that it read, and this is the
content then. Nothing comes between the read and the write of a modify that is the last thing its program does; if all
are, the content comes of all the functions, applied one after another. -/
theorem Cell.modifies_interleave [LawfulStore W V] [View W R] (p : Program R (c.Use R W V) α)
    (q : Program R (c.Use R W V) β) (r : R) {w w' : W} {a : α} {b : β} (hv : c.content w = some v)
    (hends : (Work.both (p.routine.work r) (q.routine.work r) fun a b _ => .ok (a,b)).Ends w (.ok (a,b)) w') :
    ∃ hs v', (Work.both ((p.noted .left).work r) ((q.noted .right).work r) fun a b _ => .ok (a,b)).Ends
        (w,[]) (.ok (a,b)) (w',hs) ∧
      c.content w' = some v' ∧ History v hs v' (fun _ => none) ∧
      (∀ before side f x after, hs = before ++ .read side true f x :: after →
        ∃ y rest, after = .write side y :: rest ∧ f x = .ok y) ∧
      ((∀ side f x, .read side false f x ∉ hs) →
        ∃ calls, hs = calls.flatMap Call.accesses ∧ Serial v calls v') := by
  have hrelated := Work.Related.both (p.related_noted .left r) (q.related_noted .right r) fun a b _ => .ok (a,b)
  have hlook := Cell.look_keeping (R := R) (W := W) (V := V) (E := Access V) (c := c)
  obtain ⟨⟨_,hs⟩,hnoted,rfl⟩ :=
    hrelated.ends (s := (c.keeping V (Access V)).lax) hlook (w := (w,[])) rfl hends
  -- The invariant speaks of the noted run, so its rounds are counted and not those of the run without notes.
  have hrun := hnoted
  obtain ⟨_,⟨n,rfl⟩,-,hx,hworld⟩ := hrun
  have hsharing := Sharing.start (p.protocol_noted r) (q.protocol_noted r)
    (fun a b (_ : R) => Outcome.ok (a,b)) hv
  obtain ⟨v',hv',hhistory⟩ := (hsharing.iterate n).answered hx
  rw [hworld] at hv' hhistory
  refine ⟨hs,v',hnoted,hv',hhistory,fun before side f x after hhs => ?_,fun hlast => ?_⟩
  · rcases hhistory.after_read hhs with ⟨-,hbegun⟩ | hwritten
    · cases hbegun
    · exact hwritten
  · obtain ⟨calls,hserial,⟨-,hhs⟩ | ⟨side,f,hbegun,-⟩⟩ := hhistory.serial hlast
    · exact ⟨calls,hhs,hserial⟩
    · have hside := congrFun hbegun side
      rw [Function.update_self] at hside
      cases hside

section Bare

attribute [local instance] HasStore.bare LawfulStore.bare View.first

/-- Beside a modify, another cell is written and then the same cell is modified. -/
theorem Cell.modifies_interleave_counters :
    let c : Cell := ⟨0⟩
    let p : Program Unit (c.Use Unit (Array Nat) Nat) Nat := .effect (.modify fun x => .ok (x + 1))
    let q : Program Unit (c.Use Unit (Array Nat) Nat) Nat :=
      .bind (.effect (.other _ (Work.spares_write ⟨1⟩ (by decide) 7))) fun _ _ =>
        .effect (.modify fun x => .ok (x + 10))
    c.content #[0,5] = some 0 ∧
      (Work.both (p.routine.work ()) (q.routine.work ()) fun a b _ => .ok (a,b)).Ends
        #[0,5] (.ok (1,11)) #[11,7] ∧
      ∃ hs, (Work.both ((p.noted .left).work ()) ((q.noted .right).work ()) fun a b _ => .ok (a,b)).Ends
          (#[0,5],[]) (.ok (1,11)) (#[11,7],hs) ∧
        History 0 hs 11 fun _ => none := by
  intro c p q
  have hp : p.routine.work () = .fork (.andThen (.delay c.read) fun x _ => .delay (c.write (x + 1))) := by
    simp [p,Program.routine,Program.expand,Use.routine,modify,get,set,Routine.act,Program.ofOutcome]
  have hq : q.routine.work () = .fork (.andThen (.delay (write ⟨1⟩ 7)) fun _ _ =>
      .fork (.andThen (.delay c.read) fun x _ => .delay (c.write (x + 10)))) := by
    simp [q,Program.routine,Program.expand,Use.routine,modify,get,set,Routine.act,Program.ofOutcome]
  have hends : (Work.both (p.routine.work ()) (q.routine.work ()) fun a b _ => .ok (a,b)).Ends
      #[0,5] (.ok (1,11)) #[11,7] := by
    rw [hp,hq]
    exact ⟨_,⟨16,rfl⟩,rfl,rfl,rfl⟩
  obtain ⟨hs,v',hnoted,hv',hhistory,-⟩ := modifies_interleave p q () rfl hends
  obtain rfl : 11 = v' := Option.some.inj hv'
  exact ⟨rfl,hends,hs,hnoted,hhistory⟩

/-- Beside each other, each of two modifies that something comes after reads before the other writes. -/
theorem Cell.modify_loses_update :
    let c : Cell := ⟨0⟩
    let add (n : Nat) : Routine Unit (Array Nat) Nat := (c.modify fun x _ => .ok (x + n)).map id
    (Work.both ((add 1).work ()) ((add 10).work ()) fun a b _ => .ok (a,b)).Ends #[0] (.ok (1,10)) #[10] ∧
      ¬∃ fs, Interleaving [(· + 1)] [(· + 10)] fs ∧ fs.foldl (fun x f => f x) 0 = 10 := by
  intro c add
  have hadd : ∀ n, (add n).work () = .fork (.andThen (.delay c.read) fun x _ =>
      .fork (.andThen (.delay (c.write (x + n))) fun y _ => .answer y)) := by
    intro n
    simp [add,Program.map,modify,get,set,Routine.act,Program.ofOutcome]
  rw [hadd,hadd]
  refine ⟨⟨_,⟨16,rfl⟩,rfl,rfl,rfl⟩,?_⟩
  rintro ⟨fs,hfs,hfold⟩
  cases hfs with
  | left _ h =>
    cases h with
    | right _ h =>
      cases h
      cases hfold
  | right _ h =>
    cases h with
    | left _ h =>
      cases h
      cases hfold

end Bare

end Effectful
