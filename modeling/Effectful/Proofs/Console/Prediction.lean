import Effectful.Proofs.Console.Refusal
/-!
# Simulation predicts runs

A terminal can be anything that hands out lines one after the other and keeps what is written to it. Where a program
ends on simulated buffers, it ends on every terminal that shows the same lines, with the same answer, and the
terminal shows the buffers of the simulation then: nothing more has been read, and nothing else been written.
-/
namespace Effectful

open Filter

variable {W α : Type}

/-- Worlds that show buffers: reading one by `read` takes off the first line of the input and fails where there is
none, and writing to it adds to the output. -/
structure Terminal.Serves [Terminal W] (read : Action W String) (shows : W → Buffers → Prop) : Prop where
  line : ∀ w line rest output, shows w { input := line :: rest, output } →
    (read w).1 = .ok line ∧ shows (read w).2 { input := rest, output }
  ended : ∀ w output, shows w { output } → (∃ e, (read w).1 = .error e) ∧ shows (read w).2 { output }
  write : ∀ line w buffers, shows w buffers → (Terminal.writeLine line w).1 = .ok () ∧
    shows (Terminal.writeLine line w).2 { buffers with output := buffers.output.push line }

theorem Terminal.Serves.alike [View W Unit] [Terminal W] {read : Action W String} {shows : W → Buffers → Prop}
    (h : Terminal.Serves read shows) :
    Terminal.Alike read fun w (d : Desk) => shows w d.buffers ∧ d.sink.failAt = none where
  read w d hrel := by
    obtain ⟨unread,sink⟩ := d
    obtain ⟨hshows,hsink⟩ := hrel
    cases unread with
    | nil =>
      obtain ⟨⟨e,hended⟩,hnext⟩ := h.ended w sink.written hshows
      exact ⟨by rw [hended]; rfl,hnext,hsink⟩
    | cons line rest =>
      obtain ⟨hline,hnext⟩ := h.line w line rest sink.written hshows
      exact ⟨by rw [hline]; rfl,hnext,hsink⟩
  write line w d hrel := by
    obtain ⟨unread,written,calls,failAt⟩ := d
    obtain ⟨hshows,rfl⟩ := hrel
    exact ⟨(h.write line w _ hshows).1,(h.write line w _ hshows).2,rfl⟩

namespace Console

open Program

variable [View W Unit] {shows : W → Buffers → Prop} {p : ConsoleProgram Unit α} {w : W}
  {V : Type} [View V Unit] {v v' : V} {lines : List String} {a : α} {buffers : Buffers}

private theorem reading_of_simulate (hsim : simulate p lines v = (.ok (a,buffers),v')) :
    let x := reading (Source.performing onTerminal.translator) View.look false p ({ unread := lines } : Desk)
    x.2.1 = .ok a ∧ x.2.2.buffers = buffers := by
  rw [simulate_eq_eval p { unread := lines } rfl rfl v,
    eval_eq_reading "runFree" onTerminal.translator false] at hsim
  intro x
  change ((report "runFree" x.2.1).map fun a => (a,x.2.2.buffers),v) = _ at hsim
  cases hends : x.2.1 with
  | error halt =>
    rw [hends] at hsim
    cases hsim
  | ok b =>
    rw [hends] at hsim
    cases hsim
    exact ⟨rfl,rfl⟩

variable [Terminal W]

/-- Where a simulation ends, the program ends on a terminal that serves the same lines. -/
theorem run_of_simulate (h : Terminal.Serves Terminal.readLine shows) (hw : shows w { input := lines })
    (hsim : simulate p lines v = (.ok (a,buffers),v')) :
    ∃ w', shows w' buffers ∧ run p w = (.ok a,w') ∧
      runBuilt (Target.performing Unit W).run (toAction p ()) () w = (.ok a,w') := by
  obtain ⟨hends,rfl⟩ := reading_of_simulate hsim
  obtain ⟨-,hsame,hshows,-⟩ := reading_onTerminal p h.alike
    (show shows w ({ unread := lines } : Desk).buffers ∧ _ from ⟨hw,rfl⟩)
  refine ⟨_,hshows,?_,?_⟩
  · rw [run_eq_eval,eval_eq_reading "translate" onTerminal.translator false,hsame,hends]
    rfl
  · rw [toAction_eq_eval,eval_eq_reading "runFree" onTerminal.translator false,hsame,hends]
    rfl

theorem toWork_of_simulate (h : Terminal.Serves Terminal.awaitLine shows) (hw : shows w { input := lines })
    (hsim : simulate p lines v = (.ok (a,buffers),v')) :
    ∃ w', shows w' buffers ∧ (Work.ofOutcome (toWork p ())).eval w = (.ok a,w') ∧
      ∀ᶠ fuel in atTop, (Work.ofOutcome (toWork p ())).run fuel w = (.ok a,w') := by
  obtain ⟨hends,rfl⟩ := reading_of_simulate hsim
  obtain ⟨-,hsame,hshows,-⟩ := reading_onTurns p h.alike
    (show shows w ({ unread := lines } : Desk).buffers ∧ _ from ⟨hw,rfl⟩)
  have heval : p.eval "runFree" onTurns.translator w = _ :=
    eval_eq_reading "runFree" onTurns.translator false p w
  rw [hsame,hends] at heval
  refine ⟨_,hshows,(eval_toWork p w).trans heval,?_⟩
  filter_upwards [toWork_eq_eval p w] with fuel hfuel
  exact hfuel.trans heval

end Console

end Effectful
