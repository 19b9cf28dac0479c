import Effectful.CommandLine.Session
import Effectful.Proofs.Console.Prediction
import Effectful.Proofs.Text.Lines
/-!
# Demos on the standard streams

The standard input is bytes, and a demo takes lines off it one by one. On the bytes of lines it does what its
simulation does on these lines, by each of the interpreters: it writes the same, answers the same, and leaves the
bytes of the lines that the simulation leaves.
-/
namespace Effectful.CommandLine

open Filter

/-- Streams that hold the bytes of the unread lines, each of which is read back as it is. -/
def Streams.Shows (s : Streams) (buffers : Buffers) : Prop :=
  (∀ line ∈ buffers.input, Text.IsLine line) ∧
    s = { unread := Text.lineBytes buffers.input, written := buffers.output }

theorem Streams.serves : Terminal.Serves Streams.readLine Streams.Shows where
  line s line rest output h := by
    obtain ⟨hlines,rfl⟩ := h
    have hnext := Text.nextLine?_lineBytes_cons (hlines line List.mem_cons_self) rest
    have hrest : ∀ line ∈ rest, Text.IsLine line := fun line hline => hlines line (List.mem_cons_of_mem _ hline)
    simp only [Streams.readLine,hnext]
    exact ⟨trivial,hrest,rfl⟩
  ended s output h := by
    obtain ⟨hlines,rfl⟩ := h
    simp only [Streams.readLine,Text.nextLine?_lineBytes_nil]
    exact ⟨⟨_,rfl⟩,hlines,rfl⟩
  write line s buffers h := by
    obtain ⟨hlines,rfl⟩ := h
    exact ⟨rfl,hlines,rfl⟩

section Interpreters

variable {p : ConsoleProgram Unit Value} {s : Streams} {x : Outcome Value × Streams}

theorem interpretBy_thunk (fuel : Nat) :
    interpretBy fuel .thunk p s =
      runBuilt (Target.performing Unit Streams).run (Console.toAction p ()) () s := by
  unfold interpretBy
  cases Console.toAction p () (W := Streams) <;> rfl

theorem interpretBy_par (heval : (Work.ofOutcome (Console.toWork p ())).eval s = x)
    (hrun : ∀ᶠ fuel in atTop, (Work.ofOutcome (Console.toWork p ())).run fuel s = x) :
    ∀ᶠ fuel in atTop, interpretBy fuel .par p s = x := by
  unfold interpretBy
  cases hwork : Console.toWork p () (W := Streams) with
  | ok work =>
    rw [hwork] at hrun
    exact hrun
  | error e =>
    rw [hwork] at heval
    exact Eventually.of_forall fun _ => heval

variable {V : Type} [View V Unit] {v v' : V} {lines : List String} {answer : Value} {buffers : Buffers}

/-- On the bytes of lines, each interpreter does what the simulation does on the lines. -/
theorem interpretBy_of_simulate (hlines : ∀ line ∈ lines, Text.IsLine line)
    (hsim : Console.simulate p lines v = (.ok (answer,buffers),v')) :
    let stdin : Streams := { unread := Text.lineBytes lines }
    let left : Streams := { unread := Text.lineBytes buffers.input, written := buffers.output }
    (∀ fuel, interpretBy fuel .trampoline p stdin = (.ok answer,left)) ∧
      (∀ fuel, interpretBy fuel .thunk p stdin = (.ok answer,left)) ∧
      ∀ᶠ fuel in atTop, interpretBy fuel .par p stdin = (.ok answer,left) := by
  intro stdin left
  have hshows : stdin.Shows { input := lines } := ⟨hlines,rfl⟩
  obtain ⟨s,⟨-,rfl⟩,hrun,hnested⟩ := Console.run_of_simulate Streams.serves hshows hsim
  obtain ⟨s,⟨-,rfl⟩,heval,hwork⟩ := Console.toWork_of_simulate Streams.serves hshows hsim
  exact ⟨fun _ => hrun,fun fuel => (interpretBy_thunk fuel).trans hnested,interpretBy_par heval hwork⟩

end Interpreters

/-- Simulation predicts runs. Let a demo end on simulated lines without a failure, where none of the lines holds a
newline or ends in a carriage return. Then it ends on the bytes of these lines, each followed by a newline, with the
same answer, has written the simulated output, and leaves exactly the bytes of the lines that are left in simulation;
at once as well as in nested actions. As work it comes to the same answer and output on every terminal where
waiting hands out the lines, and on the streams in particular. -/
theorem simulation_predicts_run (demo : Demo.Name) {lines : List String}
    (hlines : ∀ line ∈ lines, Text.IsLine line) {answer : Value} {buffers : Buffers}
    (hsim : EndsWith (fun n => Console.simulate (R := Unit) (Demo.program n demo) lines ())
      (.ok (answer,buffers)) ()) :
    let stdin : Streams := { unread := Text.lineBytes lines }
    let left : Streams := { unread := Text.lineBytes buffers.input, written := buffers.output }
    (∀ fuel, EndsWith (fun n => interpretBy fuel .trampoline (Demo.program n demo) stdin) (.ok answer) left) ∧
      (∀ fuel, EndsWith (fun n => interpretBy fuel .thunk (Demo.program n demo) stdin) (.ok answer) left) ∧
      (∀ᶠ n in atTop, ∀ᶠ fuel in atTop, interpretBy fuel .par (Demo.program n demo) stdin = (.ok answer,left)) ∧
      ∀ (W : Type) [Terminal W] (shows : W → Buffers → Prop) (w : W),
        Terminal.Serves Terminal.awaitLine shows → shows w { input := lines } →
        ∀ᶠ n in atTop, ∃ w', shows w' buffers ∧ ∀ᶠ fuel in atTop,
          (Work.ofOutcome (Console.toWork (Demo.program n demo) ())).run fuel w = (.ok answer,w') := by
  intro stdin left
  have hruns := hsim.2.mono fun n hn => interpretBy_of_simulate hlines hn
  refine ⟨fun fuel => ⟨nofun,?_⟩,fun fuel => ⟨nofun,?_⟩,hruns.mono fun n hn => hn.2.2,?_⟩
  · exact hruns.mono fun n hn => hn.1 fuel
  · exact hruns.mono fun n hn => hn.2.1 fuel
  · intro W _ shows w hserves hw
    filter_upwards [hsim.2] with n hn
    obtain ⟨w',hshown,-,hwork⟩ := Console.toWork_of_simulate hserves hw hn
    exact ⟨w',hshown,hwork⟩

/-- A dialogue that answers one line, is ended by the next, and leaves the last. -/
theorem simulation_predicts_run_factorial :
    let stdin : Streams := { unread := Text.lineBytes ["tō","q","b"] }
    let output : Array String := #[Demo.dialogueHelp,Demo.complaint "tō"]
    let left : Streams := { unread := Text.lineBytes ["b"], written := output }
    (∀ fuel, EndsWith (fun n => interpretBy fuel .trampoline (Demo.program n .factorial) stdin)
      (.ok .absent) left) ∧
      (∀ᶠ n in atTop, ∀ᶠ fuel in atTop,
        interpretBy fuel .par (Demo.program n .factorial) stdin = (.ok .absent,left)) ∧
      ∀ᶠ n in atTop, ∃ s : Streams, s.Shows { input := ["b"], output } ∧ ∀ᶠ fuel in atTop,
        (Work.ofOutcome (Console.toWork (Demo.program n .factorial) ())).run fuel stdin = (.ok .absent,s) := by
  intro stdin output left
  have hlines : ∀ line ∈ ["tō","q","b"], Text.IsLine line := by decide
  have hrounds : ∀ n, Console.simulate (R := Unit) (Demo.program (n + 2) .factorial) ["tō","q","b"] () =
      (.ok (.absent,{ input := ["b"], output }),()) := fun n =>
    Console.simulate_eq_eval (Demo.program (n + 2) .factorial) { unread := ["tō","q","b"] } rfl rfl ()
  have hsim : EndsWith (fun n => Console.simulate (R := Unit) (Demo.program n .factorial) ["tō","q","b"] ())
      (.ok (.absent,{ input := ["b"], output })) () := by
    refine ⟨nofun,?_⟩
    filter_upwards [eventually_ge_atTop 2] with n hn
    obtain ⟨m,rfl⟩ := Nat.exists_eq_add_of_le' hn
    exact hrounds m
  obtain ⟨hdirect,-,hwork,hserved⟩ := simulation_predicts_run .factorial hlines hsim
  exact ⟨hdirect,hwork,hserved Streams Streams.Shows stdin Streams.serves ⟨hlines,rfl⟩⟩

end Effectful.CommandLine
