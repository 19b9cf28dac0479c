import Effectful.Proofs.Routine.Succession
import Effectful.Proofs.Target.Agreement
/-!
# A fork changes when, and not what

Work without pairs has one thread: at any time one part of it runs or waits for its turn, and the parts after it have
not been started. So a turn of its own only lets a part wait for what the caller does meanwhile. The work comes to what
reading it from left to right says, however many forks it has and wherever they stand.
-/
namespace Effectful

variable {R W A B E α β γ : Type}

namespace Work

/-- Work without pairs, whose callbacks are called. Calls that do not count do nothing else. -/
def Sequential {α : Type} : Work R W α → Prop
  | .answer _ | .reject _ | .delay _ => True
  | .fork work => Sequential work
  | .callback register => ∀ w reply, (register w).1 = .ok reply →
      reply.Plain ∧ (reply.now ≠ [] ∨ reply.later ≠ [])
  | .andThen work f => Sequential work ∧ ∀ b r, Sequential (f b r)
  | .both .. => False

/-- The same work, with nothing on a turn of its own but callbacks that are called later. -/
def unforked {α : Type} : Work R W α → Work R W α
  | .answer a => .answer a
  | .reject e => .reject e
  | .delay t => .delay t
  | .fork work => unforked work
  | .callback register => .callback register
  | .andThen work f => .andThen (unforked work) fun b r => unforked (f b r)
  | .both left right f => .both (unforked left) (unforked right) f

theorem Sequential.tidy {work : Work R W α} (h : work.Sequential) : work.Tidy := by
  induction work with
  | answer | reject | delay => trivial
  | fork work ih => exact ih h
  | callback register => exact fun w reply hreply => (h w reply hreply).1
  | andThen work f ihw ihf => exact ⟨ihw h.1,fun b r => ihf b r (h.2 b r)⟩
  | both => exact h.elim

theorem Sequential.callsBack {work : Work R W α} (h : work.Sequential) : work.CallsBack := by
  induction work with
  | answer | reject | delay => trivial
  | fork work ih => exact ih h
  | callback register => exact fun w reply hreply => (h w reply hreply).2
  | andThen work f ihw ihf => exact ⟨ihw h.1,fun b r => ihf b r (h.2 b r)⟩
  | both => exact h.elim

theorem sequential_unforked {work : Work R W α} : work.unforked.Sequential ↔ work.Sequential := by
  induction work with
  | answer | reject | delay | callback | both => rfl
  | fork work ih => exact ih
  | andThen work f ihw ihf => exact and_congr ihw (forall₂_congr ihf)

theorem within_unforked {s : Footprint W A B E} {work : Work Unit W α} : work.unforked.Within s ↔ work.Within s := by
  induction work with
  | answer | reject | delay | callback => rfl
  | fork work ih => exact ih
  | andThen work f ihw ihf => exact and_congr ihw (forall₂_congr ihf)
  | both left right f ihl ihr => exact and_congr ihl ihr

variable [View W R]

theorem eval_unforked (work : Work R W α) : work.unforked.eval = work.eval := by
  induction work with
  | answer | reject | delay | callback => rfl
  | fork work ih => exact ih
  | andThen work f ihw ihf => simp only [unforked,eval,ihw,ihf]
  | both left right f ihl ihr => simp only [unforked,eval,ihl,ihr]

theorem Sequential.finish_eq_eval {work : Work R W α} (h : work.Sequential) : work.finish = work.eval := by
  induction work with
  | answer a => exact finish_answer a
  | reject e => exact finish_reject e
  | delay t => exact finish_delay t
  | fork work ih => rw [finish_fork,ih h]; rfl
  | callback register => exact finish_callback register
  | andThen work f ihw ihf =>
    have hnext : ∀ b r, (f b r).finish = (f b r).eval := fun b r => ihf b r (h.2 b r)
    rw [finish_andThen h.1.tidy.concludes,ihw h.1]
    simp only [hnext]
    rfl
  | both => exact h.elim

end Work

/-- The executor runs until nothing is left to run, and then the outcome `x` is known and the world is `v`. -/
def Executor.Ends [View W R] (e : Executor R W α) (x : Outcome α) (v : W) : Prop :=
  ∃ e' : Executor R W α, e.Reaches e' ∧ e'.isIdle = true ∧ e'.task.outcome? = some x ∧ e'.queue.world = v

theorem Work.CallsBack.ends [View W R] {work : Work R W α} (h : work.CallsBack) (w : W) :
    work.Ends w (work.finish w).1 (work.finish w).2 := by
  obtain ⟨e,hr,hidle,hawaits⟩ := work.rests w
  obtain ⟨deeds,-,hwork⟩ := (Executor.accounts_start work w).reaches hr
  obtain ⟨x,hx,-⟩ := hwork.comes_of_awaits h hawaits
  have hfinish : work.finish w = (x,e.queue.world) :=
    Work.finish_eq ⟨e,hr,hidle,by rw [Executor.outcome,hx]; rfl,rfl⟩
  rw [hfinish]
  exact ⟨e,hr,hidle,hx,rfl⟩

namespace Work

variable [View W Unit]

/-- Started in any world, the work ends as the action says. What its caller logs right after the start stands
somewhere between the entries of the work, which keep their order, and changes nothing else. -/
structure Follows (work : Work Unit W α) (t : Action W α) : Prop where
  ends : ∀ w, work.Ends w (t w).1 (t w).2
  meanwhile : ∀ {A B E : Type} {s : Footprint W A B E} {entry : W → W} {entries : List E}, work.Within s →
    (∀ u, s.own (entry u) = s.own u ∧ s.log (entry u) = s.log u ++ entries) → ∀ w, ∃ before after v,
      s.log (t w).2 = before ++ after ∧ s.log v = before ++ entries ++ after ∧ s.own v = s.own (t w).2 ∧
      ((Executor.start work w).mapWorld entry).Ends (t w).1 v

/-- Two pieces of work that do the same, and perhaps on other turns. -/
def Agrees (work work' : Work Unit W α) : Prop := ∃ t, work.Follows t ∧ work'.Follows t

theorem Sequential.follows {work : Work Unit W α} (h : work.Sequential) {t : Action W α} (ht : work.finish = t) :
    work.Follows t := by
  have hends : ∀ w, work.Ends w (t w).1 (t w).2 := by
    intro w
    have hw := h.callsBack.ends w
    rwa [ht] at hw
  refine ⟨hends,fun hwithin hentry w => ?_⟩
  obtain ⟨e,hr,hidle,hx,hv⟩ := hends w
  obtain ⟨before,after,e',hlog,hlog',hown,hr',hidle',htask⟩ := hwithin.reaches_meanwhile hentry hr hidle
  rw [hv] at hlog hown
  exact ⟨before,after,_,hlog,hlog',hown,e',hr',hidle',by rw [htask,hx],rfl⟩

/-- Work that differs from sequential work by forks alone does the same. -/
theorem Sequential.reforked {work work' : Work Unit W α} (h : work.Sequential) (heq : work'.unforked = work.unforked) :
    work'.Sequential ∧ work'.Follows work.eval ∧
      ∀ {A B E : Type} {s : Footprint W A B E}, work.Within s → work'.Within s := by
  have h' : work'.Sequential := sequential_unforked.mp (heq ▸ sequential_unforked.mpr h)
  have heval : work'.eval = work.eval := by rw [← eval_unforked,heq,eval_unforked]
  refine ⟨h',h'.follows (h'.finish_eq_eval.trans heval),fun hwithin => ?_⟩
  exact within_unforked.mp (heq ▸ within_unforked.mpr hwithin)

theorem Sequential.agrees {work work' : Work Unit W α} (h : work.Sequential) (h' : work'.Sequential)
    (heval : work.eval = work'.eval) : work.Agrees work' :=
  ⟨work'.eval,h.follows (h.finish_eq_eval.trans heval),h'.follows h'.finish_eq_eval⟩

end Work

namespace Routine

def unforked {α : Type} : Routine R W α → Routine R W α
  | .done a => .done a
  | .effect work => .effect work.unforked
  | .bind sub k => .bind (unforked sub) fun b r => unforked (k b r)
  | .malformed tag => .malformed tag
  | .raise e => .raise e

open Program

theorem wellFormed_unforked {p : Routine R W α} (hp : p.WellFormed) : p.unforked.WellFormed := by
  induction p with
  | done | effect | raise => trivial
  | malformed => exact hp.elim
  | bind sub k ihs ihk => exact ⟨ihs hp.1,fun b r => ihk b r (hp.2 b r)⟩

theorem unforked_interpret {c : Context R (Work R W)} (hc : c = Work.context ∨ c = Work.eagerContext) (driver : String)
    (p : Routine R W α) (r : R) :
    (Work.ofOutcome (p.interpret driver Translator.id c r)).unforked =
      Work.ofOutcome (p.unforked.interpret driver Translator.id Work.eagerContext r) := by
  induction p using induct_next generalizing r with
  | done a =>
    rw [unforked,interpret_done,interpret_done]
    obtain rfl | rfl := hc <;> rfl
  | effect work =>
    rw [unforked,interpret_effect,interpret_effect]
    rfl
  | malformed tag =>
    rw [unforked,interpret_malformed,interpret_malformed]
    rfl
  | raise e =>
    rw [unforked,interpret_raise,interpret_raise]
    rfl
  | bind_done a k ih =>
    rw [unforked,unforked,interpret_bind_done,interpret_bind_done]
    exact ih r r
  | bind_effect work k ih =>
    have hrest : ∀ b r', (Work.ofOutcome (interpret driver Translator.id c (k b r') r')).unforked =
        Work.ofOutcome (interpret driver Translator.id Work.eagerContext (unforked (k b r')) r') :=
      fun b r' => ih b r' r'
    have hchain : (Work.ofOutcome (interpret driver Translator.id c (.bind (.effect work) k) r)).unforked =
        .andThen work.unforked fun b r' =>
          (Work.ofOutcome (interpret driver Translator.id c (k b r') r')).unforked := by
      rw [interpret_bind_effect]
      obtain rfl | rfl := hc <;> rfl
    rw [hchain,unforked,unforked,interpret_bind_effect]
    simp only [hrest]
    rfl
  | bind_bind y g k ih =>
    have hturned := ih r
    rw [unforked] at hturned
    rw [interpret_bind_bind,hturned,unforked,unforked,interpret_bind_bind]
    rfl
  | bind_malformed tag k =>
    rw [unforked,unforked,interpret_bind_malformed,interpret_bind_malformed]
    rfl
  | bind_raise e k =>
    rw [unforked,unforked,interpret_bind_raise,interpret_bind_raise]
    rfl

theorem uses_id {P : {α : Type} → Work R W α → Prop} {p : Routine R W α} (hp : p.Uses P) :
    p.Uses fun op => ∀ work, Translator.id.apply op = .ok work → P work := by
  refine hp.mono fun op hop work h => ?_
  cases h
  exact hop

theorem sequential_ofProgram {p : Routine R W α} (hp : p.Uses Work.Sequential) (r : R) :
    (Work.ofOutcome (Work.ofProgram p r)).Sequential :=
  Work.holds_interpret "runFree" (.inl rfl) (Work.Sequential (R := R) (W := W)) (fun _ => trivial) (fun _ => trivial) id
    And.intro (uses_id hp) r

theorem eval_ofProgram [View W Unit] (p : Routine Unit W α) :
    (Work.ofOutcome (Work.ofProgram p ())).eval = Work.evalProgram p := by
  funext w
  rw [Work.eval_ofOutcome]
  exact (Work.reading Unit W).interpret_eq_eval (fun _ => rfl) "runFree" Translator.id Work.directly
    (fun _ _ => rfl) p w

theorem unforked_built {p q : Routine Unit W α} (hp : p.WellFormed) (hpq : q.unforked = p.unforked)
    {built : Work Unit W α}
    (hbuilt : built ∈ [Work.ofOutcome (Work.ofProgram q ()),Work.ofOutcome (Work.ofSuspended q ())]) :
    built.unforked = (Work.ofOutcome (Work.ofProgram p ())).unforked := by
  have hprogram : ∀ q : Routine Unit W α, (Work.ofOutcome (Work.ofProgram q ())).unforked = _ :=
    fun q => unforked_interpret (.inl rfl) "runFree" q ()
  rcases List.mem_pair.mp hbuilt with rfl | rfl
  · rw [hprogram,hprogram,hpq]
  · have hsuspended : (Work.ofOutcome (Work.ofSuspended q ())).unforked = _ :=
      unforked_interpret (.inr rfl) "async run" q ()
    rw [hsuspended,hprogram,hpq,interpret_driver (wellFormed_unforked hp) "async run" "runFree"]

end Routine

namespace Work

variable (W) [View W Unit]

/-- Work without pairs ends as it reads from left to right, in whatever way its forks are erased or others are put in.
A program of such work is the same up to forks, chained on the executor or on the caller's turn, and ends as it reads
from left to right. As far as that tells, chaining obeys the laws of a monad. -/
theorem forks_only_defer :
    (∀ {α : Type} {work work' : Work Unit W α}, work.Sequential → work'.unforked = work.unforked →
      work'.Sequential ∧ work'.Follows work.eval ∧
        ∀ {A B E : Type} {s : Footprint W A B E}, work.Within s → work'.Within s) ∧
    (∀ {α : Type} {p q : Routine Unit W α}, p.WellFormed → p.Uses Sequential → q.unforked = p.unforked →
      ∀ built ∈ [ofOutcome (ofProgram q ()),ofOutcome (ofSuspended q ())],
        built.unforked = (ofOutcome (ofProgram p ())).unforked ∧ built.Sequential ∧ built.Follows (evalProgram p) ∧
          ∀ {A B E : Type} {s : Footprint W A B E}, p.Uses (Within s) → built.Within s) ∧
    (∀ {α β : Type} (a : α) {f : α → Unit → Work Unit W β}, (∀ a r, (f a r).Sequential) →
      (andThen (answer a) f).Agrees (f a ())) ∧
    (∀ {α : Type} {work : Work Unit W α}, work.Sequential → (andThen work fun a _ => answer a).Agrees work) ∧
    ∀ {α β γ : Type} {work : Work Unit W α} {f : α → Unit → Work Unit W β} {g : β → Unit → Work Unit W γ},
      work.Sequential → (∀ a r, (f a r).Sequential) → (∀ b r, (g b r).Sequential) →
      (andThen (andThen work f) g).Agrees (andThen work fun a r => andThen (f a r) g) := by
  refine ⟨fun h heq => h.reforked heq,?_,?_,?_,?_⟩
  · intro α p q hp huses hpq built hbuilt
    have heq := Routine.unforked_built hp hpq hbuilt
    obtain ⟨hseq,hfollows,hwithin⟩ := (Routine.sequential_ofProgram huses ()).reforked heq
    rw [Routine.eval_ofProgram] at hfollows
    exact ⟨heq,hseq,hfollows,fun h => hwithin (within_interpret "runFree" (.inl rfl) (Routine.uses_id h) ())⟩
  · intro α β a f hf
    have hchain : (andThen (answer a) f).Sequential := ⟨trivial,hf⟩
    exact hchain.agrees (hf a ()) (Action.answer_andThen ..)
  · intro α work h
    have hchain : (andThen work fun a _ => answer a).Sequential := ⟨h,fun _ _ => trivial⟩
    exact hchain.agrees h (Action.andThen_answer _)
  · intro α β γ work f g h hf hg
    have hleft : (andThen (andThen work f) g).Sequential := ⟨⟨h,hf⟩,hg⟩
    have hright : (andThen work fun a r => andThen (f a r) g).Sequential := ⟨h,fun a r => ⟨hf a r,hg⟩⟩
    exact hleft.agrees hright (Action.andThen_assoc ..)

/-- A callback that is called twice on later turns, below a continuation that fails, with forks and without. The caller
logs an entry of its own after the start. -/
theorem forks_only_defer_callback :
    let say (s : String) : Action (List String) Nat := fun log => (.ok s.length,log ++ [s])
    let twice : Work Unit (List String) Nat := callback fun log =>
      (.ok ⟨[],[fun log => (1,log ++ ["call"]),fun log => (2,log)]⟩,log ++ ["register"])
    let stop (n : Nat) : Work Unit (List String) Nat := if n = 1 then reject (.error "stop") else delay (say "no")
    let work := andThen (map (delay (say "first")) Nat.succ) fun _ _ => andThen twice fun n _ => stop n
    let forked := fork (andThen (map (later (say "first")) Nat.succ) fun _ _ =>
      andThen (fork twice) fun n _ => fork (fork (stop n)))
    let p : Routine Unit (List String) Nat := .bind (.effect (later (say "first"))) fun _ _ => .effect forked
    work.eval [] = (.error (.error "stop"),["first","register","call"]) ∧
      forked.Ends [] (.error (.error "stop")) ["first","register","call"] ∧
      (∃ before after, ["first","register","call"] = before ++ after ∧
        ((Executor.start forked []).mapWorld (· ++ ["caller"])).Ends (.error (.error "stop"))
          (before ++ ["caller"] ++ after)) ∧
      (ofOutcome (ofProgram p ())).Ends [] (.error (.error "stop")) ["first","first","register","call"] ∧
      (andThen (answer 2) fun n _ => stop n).Agrees (stop 2) ∧
      (andThen forked fun n _ => answer n).Agrees forked ∧
      (andThen (andThen forked fun n _ => stop n) fun n _ => stop n).Agrees
        (andThen forked fun n _ => andThen (stop n) fun n _ => stop n) := by
  intro say twice stop work forked p
  have htwice : twice.Sequential := by
    intro log reply h
    cases h
    refine ⟨fun answer hanswer log => ?_,.inr nofun⟩
    rw [List.mem_singleton.mp hanswer]
  have hstop : ∀ n (_ : Unit), (stop n).Sequential := by
    intro n _
    simp only [stop]
    split <;> trivial
  have hwork : work.Sequential := ⟨⟨trivial,fun _ _ => trivial⟩,fun _ _ => ⟨htwice,hstop⟩⟩
  have heval : work.eval [] = (.error (.error "stop"),["first","register","call"]) := rfl
  obtain ⟨hforks,hprograms,hleft,hright,hassoc⟩ := forks_only_defer (List String)
  obtain ⟨hforked,hfollows,hwithin⟩ := hforks hwork (rfl : forked.unforked = work.unforked)
  let s : Footprint (List String) Unit Unit String := ⟨fun _ => (),fun _ => (),id⟩
  have hlocal : ∀ {X : Type} (x : X) (entry : String), s.Local fun log => (x,log ++ [entry]) := by
    intro X x entry log log' _
    exact ⟨rfl,rfl,rfl,rfl,[entry],rfl,rfl⟩
  have htwice' : twice.Within s := by
    refine ⟨hlocal _ "register",fun log reply h answer hanswer => ?_⟩
    cases h
    rcases List.mem_pair.mp hanswer with rfl | rfl
    · exact hlocal 1 "call"
    · exact fun log log' _ => ⟨rfl,rfl,.refl⟩
  have hstop' : ∀ n (_ : Unit), (stop n).Within s := by
    intro n _
    simp only [stop]
    split
    · trivial
    · exact hlocal _ "no"
  have hwork' : work.Within s := ⟨⟨hlocal _ "first",fun _ _ => trivial⟩,fun _ _ => ⟨htwice',hstop'⟩⟩
  have hends := hfollows.ends []
  let caller : List String → List String := (· ++ ["caller"])
  have hcaller : ∀ u, s.own (caller u) = s.own u ∧ s.log (caller u) = s.log u ++ ["caller"] := fun u => ⟨rfl,rfl⟩
  obtain ⟨before,after,v,hlog,hlog',-,hcalled⟩ := hfollows.meanwhile (hwithin hwork') hcaller []
  rw [heval] at hends hlog hcalled
  obtain rfl : v = before ++ ["caller"] ++ after := hlog'
  have hp : p.Uses Sequential := ⟨trivial,fun _ _ => hforked⟩
  have hprogram := (hprograms (p := p) (q := p) ⟨trivial,fun _ _ => trivial⟩ hp rfl _ (List.mem_cons_self ..)).2.2.1
  exact ⟨heval,hends,⟨before,after,hlog,hcalled⟩,hprogram.ends [],hleft 2 hstop,hright hforked,
    hassoc hforked hstop hstop⟩

end Work

end Effectful
