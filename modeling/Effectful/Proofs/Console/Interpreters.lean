import Effectful.Proofs.Console.Terminals
import Effectful.Proofs.Ending
/-!
# The interpreters of console programs agree

A console program is run at once, as nested actions, as work for the executor, or in simulation. The terminals
in use show the lines that are still unread and the lines that were written, and nothing else of them matters;
so all four interpreters are compared with the direct reading of the program on a desk that holds just these.
-/
namespace Effectful

open Filter

namespace Registry

def find? {P : Type} (name : Option String) : List (String × P) → Option P
  | [] => none
  | (key,part) :: rest => if name = some key then some part else find? name rest

private theorem onEntry_of_find? {P α : Type} {name : Option String} {entries : List (String × P)}
    {part : P} (h : find? name entries = some part) (missing : Failure) (t : Action P α) :
    (onEntry name missing t entries).1 = (t part).1 ∧
      find? name (onEntry name missing t entries).2 = some (t part).2 := by
  induction entries with
  | nil => cases h
  | cons entry rest ih =>
    obtain ⟨key,own⟩ := entry
    by_cases hkey : name = some key
    · have hown : own = part := by simpa [find?,hkey] using h
      simp [onEntry,find?,hkey,hown]
    · have hrest := ih (by simpa [find?,hkey] using h)
      simpa [onEntry,find?,hkey] using hrest

/-- The lines that are left unread at the source of a name, and the lines written to the sink in use. -/
def buffers? (name : Option String) (g : Registry) : Option Buffers :=
  match find? name g.sources, find? g.writer g.sinks with
  | some source, some sink => some { input := source.unread, output := sink.written }
  | _, _ => none

end Registry

/-- A terminal that consists of the unread lines and of one sink. -/
structure Desk where
  unread : List String
  sink : LineSink := {}

namespace Desk

instance : Terminal Desk where
  readLine := .onPart (fun d => { unread := d.unread }) (fun s d => { d with unread := s.unread })
    LineSource.read
  awaitLine := .onPart (fun d => { unread := d.unread }) (fun s d => { d with unread := s.unread })
    LineSource.read
  writeLine line := .onPart Desk.sink (fun s d => { d with sink := s }) (LineSink.write line)

def buffers (d : Desk) : Buffers := { input := d.unread, output := d.sink.written }

/-- A registry shows a desk at a name: the source of the name has the lines, and the sink is in use. -/
def ShownBy (name : Option String) (g : Registry) (d : Desk) : Prop :=
  (∃ exhausted, Registry.find? name g.sources = some { unread := d.unread, exhausted }) ∧
    Registry.find? g.writer g.sinks = some d.sink

theorem ShownBy.buffers? {name : Option String} {g : Registry} {d : Desk} (h : ShownBy name g d) :
    g.buffers? name = some d.buffers := by
  obtain ⟨⟨exhausted,hsource⟩,hsink⟩ := h
  simp only [Registry.buffers?,hsource,hsink]
  rfl

private theorem shownBy_read {name : Option String} {g : Registry} {d : Desk} (h : ShownBy name g d) :
    (Registry.readFrom name g).1.toOption = (Terminal.readLine d).1.toOption ∧
      ShownBy name (Registry.readFrom name g).2 (Terminal.readLine d).2 := by
  obtain ⟨⟨exhausted,hsource⟩,hsink⟩ := h
  obtain ⟨hline,hnext⟩ := Registry.onEntry_of_find? hsource (.ofReason .endOfInput) LineSource.read
  obtain ⟨unread,sink⟩ := d
  cases unread with
  | nil => exact ⟨(congrArg Outcome.toOption hline).trans rfl,⟨exhausted,hnext⟩,hsink⟩
  | cons line rest => exact ⟨congrArg Outcome.toOption hline,⟨exhausted,hnext⟩,hsink⟩

private theorem shownBy_write {name : Option String} {g : Registry} {d : Desk} (h : ShownBy name g d)
    (line : String) :
    (Terminal.writeLine line g).1 = (Terminal.writeLine line d).1 ∧
      ShownBy name (Terminal.writeLine line g).2 (Terminal.writeLine line d).2 := by
  obtain ⟨hsource,hsink⟩ := h
  obtain ⟨hdone,hnext⟩ :=
    Registry.onEntry_of_find? hsink (.error "write failed") (LineSink.write line)
  exact ⟨hdone,hsource,hnext⟩

theorem alike_reader : Terminal.Alike Terminal.readLine fun (g : Registry) d => ShownBy g.reader g d where
  read _ _ h := shownBy_read h
  write line _ _ h := shownBy_write h line

theorem alike_asyncReader :
    Terminal.Alike Terminal.awaitLine fun (g : Registry) d => ShownBy g.asyncReader g d where
  read _ _ h := shownBy_read h
  write line _ _ h := shownBy_write h line

end Desk

namespace Console

theorem simulate_eq_runBuilt {R W α : Type} [View W R] (p : ConsoleProgram R α) (lines : List String) (w : W) :
    simulate p lines w =
      runBuilt (Target.simulating R W).run (toTransition p (View.look w)) { input := lines } w := by
  simp only [simulate]
  split <;> rename_i hc <;> rw [show toTransition p (View.look w) = _ from hc] <;> rfl

variable {W α : Type} [View W Unit]

private theorem answered_agrees {β : Type} (w : W) (d : Desk) (hsink : d.sink.failAt = none)
    (x : Outcome β) {buffers : Buffers} :
    (Target.simulating Unit W).Agrees
      (fun b w' d => w' = w ∧ Desk.buffers d = b ∧ d.sink.failAt = none) (fun w' _ => w' = w) buffers
      (Computation.eval (match x with
        | .ok a => (.done (a,d.buffers) : Computation Unit W (β × Buffers))
        | .error e => .raise e) w) (x,d) := by
  cases x with
  | ok a => exact ⟨rfl,rfl,rfl,hsink⟩
  | error e => exact ⟨rfl,rfl⟩

theorem simulate_agrees (p : ConsoleProgram Unit α) (w : W) (buffers : Buffers) (d : Desk)
    (hbuffers : d.buffers = buffers) (hsink : d.sink.failAt = none) :
    (Target.simulating Unit W).Agrees
      (fun b w' d => w' = w ∧ Desk.buffers d = b ∧ d.sink.failAt = none) (fun w' _ => w' = w) buffers
      (runBuilt (Target.simulating Unit W).run (toTransition p ()) buffers w)
      (p.eval "runFree" onTerminal.translator d) := by
  refine (Target.simulating Unit W).interpret_agrees "runFree" (fun _ _ _ _ => rfl)
    (fun _ _ _ h => h.1) (fun op b w d h => ?_) p buffers w d ⟨rfl,hbuffers,hsink⟩
  obtain ⟨unread,sink⟩ := d
  obtain ⟨rfl,rfl,hsink⟩ := h
  change sink.failAt = none at hsink
  cases op with
  | read result =>
    change Context.Runner.Agrees _ _ _ _ (Computation.run _ _) _
    rw [Computation.run_eq_eval]
    cases unread with
    | nil => exact answered_agrees w { unread := [], sink } hsink (result none ())
    | cons line rest => exact answered_agrees w { unread := rest, sink } hsink (result (some line) ())
  | print line result =>
    change Context.Runner.Agrees _ _ _ _ (Computation.run _ _) _
    rw [Computation.run_eq_eval]
    obtain ⟨written,calls,failAt⟩ := sink
    obtain rfl : failAt = none := hsink
    exact answered_agrees w { unread, sink := { written := written.push line, calls := calls + 1 } } rfl
      (result ())
  | other op => exact ⟨rfl,rfl⟩

theorem simulate_eq_eval (p : ConsoleProgram Unit α) (d : Desk) (hwritten : d.sink.written = #[])
    (hsink : d.sink.failAt = none) (w : W) :
    simulate p d.unread w =
      ((p.eval "runFree" onTerminal.translator d).1.map
        fun a => (a,(p.eval "runFree" onTerminal.translator d).2.buffers),w) := by
  have hbuffers : d.buffers = { input := d.unread } := by simp only [Desk.buffers,hwritten]
  have hagrees := simulate_agrees p w _ d hbuffers hsink
  rw [← simulate_eq_runBuilt] at hagrees
  rcases hs : simulate p d.unread w with ⟨⟨a,b⟩ | e,w'⟩ <;>
    rcases hd : p.eval "runFree" onTerminal.translator d with ⟨a' | e',d'⟩ <;> rw [hs,hd] at hagrees
  · obtain ⟨rfl,rfl,rfl,-⟩ := hagrees
    rfl
  · exact hagrees.elim
  · exact hagrees.elim
  · obtain ⟨rfl,rfl⟩ := hagrees
    rfl

/-- What is seen of a run: its outcome, the lines it left unread, and the lines it wrote. -/
def seen (reader : Registry → Option String) (x : Outcome α × Registry) :
    Outcome α × Option Buffers :=
  (x.1,x.2.buffers? (reader x.2))

private def onDesk (p : ConsoleProgram Unit α) (d : Desk) : Outcome α × Option Buffers :=
  ((p.eval "runFree" onTerminal.translator d).1,
    some (p.eval "runFree" onTerminal.translator d).2.buffers)

private theorem seen_eq_onDesk {reader : Registry → Option String} {x : Outcome α × Registry}
    {p : ConsoleProgram Unit α} {d : Desk}
    (h : x.1 = (p.eval "runFree" onTerminal.translator d).1 ∧
      Desk.ShownBy (reader x.2) x.2 (p.eval "runFree" onTerminal.translator d).2) :
    seen reader x = onDesk p d :=
  Prod.ext h.1 h.2.buffers?

private theorem simulate_eq_onDesk (p : ConsoleProgram Unit α) (g : Registry) (d : Desk)
    (hwritten : d.sink.written = #[]) (hsink : d.sink.failAt = none) :
    (simulate p d.unread g).1.map Prod.fst = (onDesk p d).1 ∧
      ∀ a b, simulate p d.unread g = (.ok (a,b),g) ↔ onDesk p d = (.ok a,some b) := by
  rw [simulate_eq_eval p d hwritten hsink g]
  unfold onDesk
  rcases p.eval "runFree" onTerminal.translator d with ⟨a | e,d'⟩
  · exact ⟨rfl,fun a b => by simp⟩
  · exact ⟨rfl,fun a b => by simp⟩

/-- The interpreters agree. Run at once, as nested actions or as work, on terminals with the same lines, a
program whose loops are given by their cut-offs ends in one of these ways if it does in the others: with the
same outcome, the same lines left unread and the same lines written, also where a call of the writer fails.
If no call fails, it is so in simulation as well, and the buffers are these lines. -/
theorem interpreters_agree (p : Nat → ConsoleProgram Unit α) (hp : ∀ n, (p n).WellFormed) (g : Registry)
    {lines : List String} {e e' : Failure} {sink : LineSink}
    (hreader : Registry.find? g.reader g.sources = some { unread := lines, exhausted := e })
    (hasync : Registry.find? g.asyncReader g.sources = some { unread := lines, exhausted := e' })
    (hwriter : Registry.find? g.writer g.sinks = some sink) :
    let direct n := seen Registry.reader (run (p n) g)
    let nested n := seen Registry.reader
      (runBuilt (Target.performing Unit Registry).run (toAction (p n) ()) () g)
    let work n fuel := seen Registry.asyncReader ((Work.ofOutcome (toWork (p n) ())).run fuel g)
    let simulation n := simulate (p n) lines g
    (∀ x b, EndsWith direct x b ↔ EndsWith nested x b) ∧
      (∀ x b, EndsWith direct x b ↔
        x ≠ .error .outOfFuel ∧ ∀ᶠ n in atTop, ∀ᶠ fuel in atTop, work n fuel = (x,b)) ∧
      (sink.written = #[] → sink.failAt = none →
        (∀ x, EndsWith (fun n => ((direct n).1,())) x () ↔
          EndsWith (fun n => ((simulation n).1.map Prod.fst,())) x ()) ∧
        ∀ a b, EndsWith direct (.ok a) (some b) ↔ EndsWith simulation (.ok (a,b)) g) := by
  intro direct nested work simulation
  have hsync : Desk.ShownBy g.reader g { unread := lines, sink } := ⟨⟨e,hreader⟩,hwriter⟩
  have hlate : Desk.ShownBy g.asyncReader g { unread := lines, sink } := ⟨⟨e',hasync⟩,hwriter⟩
  have hdirect : direct = fun n => onDesk (p n) { unread := lines, sink } :=
    funext fun n => seen_eq_onDesk (run_alike Desk.alike_reader (hp n) hsync)
  have hnested : nested = fun n => onDesk (p n) { unread := lines, sink } :=
    funext fun n => seen_eq_onDesk (toAction_alike Desk.alike_reader (p n) hsync)
  have hwork : ∀ n, ∀ᶠ fuel in atTop, work n fuel = onDesk (p n) { unread := lines, sink } := by
    intro n
    filter_upwards [toWork_alike Desk.alike_asyncReader (p n) hlate] with fuel hfuel
    exact seen_eq_onDesk hfuel
  refine ⟨fun x b => by rw [hdirect,hnested],fun x b => ?_,fun hwritten hsink => ⟨fun x => ?_,fun a b => ?_⟩⟩
  · rw [hdirect]
    refine and_congr_right fun _ => eventually_congr (Eventually.of_forall fun n => ?_)
    constructor
    · intro h
      filter_upwards [hwork n] with fuel hfuel
      exact hfuel.trans h
    · intro h
      obtain ⟨fuel,hfuel,hend⟩ := ((hwork n).and h).exists
      exact hfuel.symm.trans hend
  · have hsame : ∀ n, (simulation n).1.map Prod.fst = (direct n).1 := by
      intro n
      rw [hdirect]
      exact (simulate_eq_onDesk (p n) g { unread := lines, sink } hwritten hsink).1
    simp only [hsame]
  · have hsame : ∀ n, simulation n = (.ok (a,b),g) ↔ direct n = (.ok a,some b) := by
      intro n
      rw [hdirect]
      exact (simulate_eq_onDesk (p n) g { unread := lines, sink } hwritten hsink).2 a b
    simp only [EndsWith,hsame,ne_eq,reduceCtorEq,not_false_eq_true]

/-- A program that prints what it reads, with one line to be read. -/
theorem interpreters_agree_echo :
    let echo : ConsoleProgram Unit Unit := .bind readLine fun line _ => printLine (line.getD "")
    let g : Registry := {
      sources := [("lines",{ unread := ["a"] })]
      sinks := [("out",{})]
      reader := some "lines"
      asyncReader := some "lines"
      writer := some "out" }
    EndsWith (fun _ => seen Registry.reader (run echo g)) (.ok ()) (some { output := #["a"] }) ∧
      EndsWith (fun _ => simulate echo ["a"] g) (.ok ((),{ output := #["a"] })) g ∧
      ∀ᶠ _ : Nat in atTop, ∀ᶠ fuel in atTop,
        seen Registry.asyncReader ((Work.ofOutcome (toWork echo ())).run fuel g) =
          (.ok (),some { output := #["a"] }) := by
  intro echo g
  have hecho : echo.WellFormed := ⟨trivial,fun _ _ => trivial⟩
  have hagree := @interpreters_agree Unit (fun _ => echo) (fun _ => hecho) g ["a"] _ _ {} rfl rfl rfl
  have hdirect : EndsWith (fun _ => seen Registry.reader (run echo g)) (.ok ())
      (some { output := #["a"] }) := by
    refine ⟨by simp,Eventually.of_forall fun _ => ?_⟩
    have hshown : Desk.ShownBy g.reader g { unread := ["a"] } := ⟨⟨_,rfl⟩,rfl⟩
    exact seen_eq_onDesk (run_alike Desk.alike_reader hecho hshown)
  exact ⟨hdirect,((hagree.2.2 rfl rfl).2 _ _).mp hdirect,((hagree.2.1 _ _).mp hdirect).2⟩

end Console

end Effectful
