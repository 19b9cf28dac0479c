import Effectful.Proofs.Console.Refusal
import Effectful.Proofs.Target.Replacement
/-!
# Result witnesses are natural

A witness is applied where its operation is performed: inside the action, after a read that failed was caught; in the
job that continues the work; in the transition, next to the buffers. It makes no difference to apply it afterwards, in a
continuation, to the answer of the plain operation, and a witness that fails is never taken for a read that failed.
-/
namespace Effectful.Console

open Filter

universe v

/-- The operation with its own answer, and the witness in a continuation of it. -/
def apart {R α : Type} : Console R α → ConsoleProgram R α
  | read result => .bind readLine fun line r => .ofOutcome ((result line r).map .done)
  | print line result => .bind (printLine line) fun _ r => .ofOutcome ((result r).map .done)
  | other op => .effect (other op)

/-- For a witness that cannot fail, this is the operation and a map after it. -/
example {R α : Type} (f : Option String → α) :
    apart (read fun line _ => .ok (f line) : Console R α) = readLine.map f := rfl

/-- The operations run as those with their own answers, whose answers the witnesses are given then. -/
structure Cases.Natural {R W I : Type} {G : Type → Type v} {O : Type → Type} [View W R] {c : Context R G}
    (cases : Cases R G) (P : c.Runner W I O) : Prop where
  read : ∀ {α : Type} (result : Option String → R → Outcome α) (i : I),
    P.run (cases.readLine result) i = (P.run (cases.readLine fun line _ => .ok line) i).conclude fun o r =>
      (result (P.next o i).1 r).map fun a => P.pack a (P.next o i).2
  print : ∀ {α : Type} (line : String) (result : R → Outcome α) (i : I),
    P.run (cases.printLine line result) i = (P.run (cases.printLine line fun _ => .ok ()) i).conclude fun o r =>
      (result r).map fun a => P.pack a (P.next o i).2

variable {R W I : Type} {G : Type → Type v} {O : Type → Type} [View W R] {α : Type}

/-- Translators of natural cases run an operation and its parts alike. -/
theorem Cases.Natural.interpreted_apart {c : Context R G} {cases : Cases R G} {P : c.Runner W I O}
    (h : cases.Natural P) (driver : String) (op : Console R α) (i : I) :
    P.interpreted driver cases.translator (.effect op) i = P.interpreted driver cases.translator (apart op) i := by
  cases op with
  | read result =>
    have hread : P.interpreted driver cases.translator Console.readLine i =
        P.run (cases.readLine fun line _ => .ok line) i :=
      P.interpreted_effect driver rfl i
    rw [P.interpreted_effect driver rfl,h.read,apart,P.interpreted_bind,hread,Action.conclude_eq_andThen]
    simp only [P.interpreted_ofOutcome_done]
  | print line result =>
    have hprint : P.interpreted driver cases.translator (Console.printLine line) i =
        P.run (cases.printLine line fun _ => .ok ()) i := P.interpreted_effect driver rfl i
    rw [P.interpreted_effect driver rfl,h.print,apart,P.interpreted_bind,hprint,Action.conclude_eq_andThen]
    simp only [P.interpreted_ofOutcome_done]
  | other op => rfl

/-- The cases, each as a program of the one operation that it reads its own as. -/
def Cases.suspended (cases : Cases R G) : Cases R (Program R G) where
  readLine result := .effect (cases.readLine result)
  printLine line result := .effect (cases.printLine line result)

theorem Cases.translator_suspended (cases : Cases R G) :
    cases.suspended.translator = ⟨fun op => (cases.translator.apply op).map .effect⟩ := by
  unfold translator
  congr 1
  funext β op
  cases op <;> rfl

private theorem conclude_apart (t : Action W α) {β : Type} (f : α → R → Outcome β) :
    t.conclude f = (t.conclude fun a (_ : R) => .ok a).conclude fun a r => (f a r).map fun b => b := by
  funext w
  unfold Action.conclude
  rcases t w with ⟨a | e,w'⟩
  · dsimp only
    cases f a (View.look w') <;> rfl
  · rfl

theorem natural_onTerminal [Terminal W] : (onTerminal : Cases R (Action W)).Natural (Target.performing R W) where
  read result _ := conclude_apart Terminal.readLine.attempt result
  print line result _ := conclude_apart (Terminal.writeLine line) fun _ => result

theorem natural_suspended [Terminal W] :
    (onTerminal : Cases R (Action W)).suspended.Natural (Program.executing R W) where
  read result i := by
    simp only [Cases.suspended,Program.executing_run_effect]
    exact natural_onTerminal.read result i
  print line result i := by
    simp only [Cases.suspended,Program.executing_run_effect]
    exact natural_onTerminal.print line result i

theorem natural_onExecutor [Terminal W] : (onExecutor : Cases R (Work R W)).Natural (Work.reading R W) where
  read result i := by
    have hread : ∀ {β : Type} (result : Option String → R → Outcome β),
        (Work.reading R W).run (onExecutor.readLine result) i = Terminal.awaitLine.attempt.conclude result :=
      fun result => eval_onExecutor (.read result)
    rw [hread,hread]
    exact conclude_apart Terminal.awaitLine.attempt result
  print line result _ := conclude_apart (Terminal.writeLine line) fun _ => result

theorem natural_onBuffers : (onBuffers : Cases R (Transition R W)).Natural (Target.simulating R W) where
  read result buffers := by
    rw [Target.simulating_run_eq_eval,Target.simulating_run_eq_eval]
    funext w
    obtain ⟨_ | ⟨line,rest⟩,output⟩ := buffers
    · change _ = ((result none (View.look w)).map fun a => (a,(⟨[],output⟩ : Buffers)),w)
      simp only [onBuffers]
      cases result none (View.look w) <;> rfl
    · change _ = ((result (some line) (View.look w)).map fun a => (a,(⟨rest,output⟩ : Buffers)),w)
      simp only [onBuffers]
      cases result (some line) (View.look w) <;> rfl
  print line result buffers := by
    rw [Target.simulating_run_eq_eval,Target.simulating_run_eq_eval]
    funext w
    change _ = ((result (View.look w)).map fun a => (a,(⟨buffers.input,buffers.output.push line⟩ : Buffers)),w)
    simp only [onBuffers]
    cases result (View.look w) <;> rfl

theorem natural_onLine : (onLine : Cases R (Replay R W)).Natural (Target.replaying R W) where
  read result line := by
    rw [Target.replaying_run_eq_eval,Target.replaying_run_eq_eval]
    funext w
    change _ = ((result (some line) (View.look w)).map fun a => a,w)
    simp only [onLine]
    cases result (some line) (View.look w) <;> rfl
  print text result line := by
    rw [Target.replaying_run_eq_eval,Target.replaying_run_eq_eval]
    funext w
    change _ = ((result (View.look w)).map fun a => a,w)
    simp only [onLine]
    cases result (View.look w) <;> rfl

/-- Witnesses are natural: a program that has, anywhere in it, plain operations with the witnesses in continuations of
them in the place of operations with witnesses, does the same in every interpreter. It comes to the same answer or
failure, and to the same world, at once, as nested actions and as work; to the same answer and buffers, or failure,
from any buffers; and to the same on every line. Of programs that need not end, this holds for each cut-off. -/
theorem witnesses_natural [Terminal W] {p q : ConsoleProgram R α} (h : p.Replaced apart q) (w : W) :
    let nested (p : ConsoleProgram R α) := runBuilt (Target.performing R W).run (toAction p (View.look w)) () w
    let work (p : ConsoleProgram R α) (fuel : Nat) := (Work.ofOutcome (toWork p (View.look w))).run fuel w
    let transition (p : ConsoleProgram R α) (buffers : Buffers) :=
      runBuilt (Target.simulating R W).run (toTransition p (View.look w)) buffers w
    let replay (p : ConsoleProgram R α) (line : String) :=
      runBuilt (Target.replaying R W).run (toReplay p (View.look w)) line w
    run p w = run q w ∧ nested p = nested q ∧
      (∃ x v, ∀ᶠ fuel in atTop, work p fuel = (x,v) ∧ work q fuel = (x,v)) ∧
      (∀ lines, simulate p lines w = simulate q lines w) ∧
      (∀ buffers, transition p buffers = transition q buffers) ∧
      ∀ line, replay p line = replay q line := by
  intro nested work transition replay
  have hnested : nested p = nested q :=
    congrFun ((Target.performing R W).interpreted_replaced (natural_onTerminal.interpreted_apart "runFree") h ()) w
  have htransition : ∀ buffers, transition p buffers = transition q buffers := fun buffers =>
    congrFun ((Target.simulating R W).interpreted_replaced (natural_onBuffers.interpreted_apart "runFree") h buffers) w
  have hreplay : ∀ line, replay p line = replay q line := fun line =>
    congrFun ((Target.replaying R W).interpreted_replaced (natural_onLine.interpreted_apart "runFree") h line) w
  let reading (p : ConsoleProgram R α) := runBuilt (Work.reading R W).run (toWork p (View.look w)) () w
  have hreading : reading p = reading q :=
    congrFun ((Work.reading R W).interpreted_replaced (natural_onExecutor.interpreted_apart "runFree") h ()) w
  refine ⟨?_,hnested,⟨(reading p).1,(reading p).2,?_⟩,fun lines => ?_,htransition,hreplay⟩
  · have hexecuted := congrFun
      ((Program.executing R W).interpreted_replaced (natural_suspended.interpreted_apart "translate") h ()) w
    rw [Cases.translator_suspended] at hexecuted
    rw [run_eq_runBuilt,run_eq_runBuilt]
    exact hexecuted
  · filter_upwards [run_toWork p (View.look w) w,run_toWork q (View.look w) w] with fuel hp hq
    exact ⟨hp,hq.trans hreading.symm⟩
  · rw [simulate_eq_runBuilt,simulate_eq_runBuilt]
    exact htransition _

/-- Both witnesses of a dialogue taken out of its operations; the second one fails, after its line was written. -/
theorem witnesses_natural_dialogue :
    let missing : Failure := .error "no line"
    let refusal : Failure := .error "refused"
    let text (line : Option String) : Outcome String := line.elim (.error missing) .ok
    let p : ConsoleProgram Unit Unit :=
      .bind (.effect (read fun line _ => text line)) fun line _ => .effect (print line fun _ => .error refusal)
    let q : ConsoleProgram Unit Unit :=
      .bind (.bind readLine fun line _ => .ofOutcome ((text line).map .done)) fun line _ =>
        .bind (printLine line) fun _ _ => .raise refusal
    let d : Desk := { unread := ["a","b"] }
    p.Replaced apart q ∧ run q d = (.error refusal,{ unread := ["b"], sink := { written := #["a"], calls := 1 } }) ∧
      simulate q ["a"] d = (.error refusal,d) ∧ simulate q [] d = (.error missing,d) := by
  intro missing refusal text p q d
  have h : p.Replaced apart q :=
    .bind (.effect (read fun line _ => text line)) fun line _ => .effect (print line fun _ => .error refusal)
  obtain ⟨hrun,-,-,hsimulate,-,-⟩ := witnesses_natural h d
  refine ⟨h,hrun.symm.trans ?_,(hsimulate ["a"]).symm.trans ?_,(hsimulate []).symm.trans ?_⟩
  · rw [run_eq_eval]
    rfl
  · exact simulate_eq_eval p { unread := ["a"] } rfl rfl d
  · exact simulate_eq_eval p { unread := [] } rfl rfl d

end Effectful.Console
