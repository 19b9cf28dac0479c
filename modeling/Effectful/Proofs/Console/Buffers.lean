import Effectful.Program.Loop
import Effectful.Proofs.Console.Refusal
import Effectful.Proofs.Program.Answers
/-!
# Simulations are local in their buffers

A simulation takes its lines off the front of the input and puts what it prints at the end of the output. What stands
in the output before does not matter to it, and neither do the lines that it does not come to, unless it asks for a
line where there is none.
-/
namespace Effectful

instance : Terminal Buffers where
  readLine
    | { input := [], output } => (.error (.ofReason .endOfInput),{ output })
    | { input := line :: rest, output } => (.ok line,{ input := rest, output })
  awaitLine
    | { input := [], output } => (.error (.ofReason .endOfInput),{ output })
    | { input := line :: rest, output } => (.ok line,{ input := rest, output })
  writeLine line buffers := (.ok (),{ buffers with output := buffers.output.push line })

theorem Desk.alike_buffers :
    Terminal.Alike Terminal.readLine fun (d : Desk) (b : Buffers) => d.buffers = b ∧ d.sink.failAt = none where
  read d b hrel := by
    obtain ⟨unread,sink⟩ := d
    obtain ⟨rfl,hsink⟩ := hrel
    cases unread with
    | nil => exact ⟨rfl,rfl,hsink⟩
    | cons line rest => exact ⟨rfl,rfl,hsink⟩
  write line d b hrel := by
    obtain ⟨unread,written,calls,failAt⟩ := d
    obtain ⟨rfl,rfl⟩ := hrel
    exact ⟨rfl,rfl,rfl⟩

namespace Console

open Filter

variable {W α : Type}

def reads (ops : List (Σ β : Type, Console Unit β)) : Nat :=
  ops.countP fun
    | ⟨_,.read _⟩ => true
    | ⟨_,.print ..⟩ | ⟨_,.other _⟩ => false

def printed (ops : List (Σ β : Type, Console Unit β)) : List String :=
  ops.filterMap fun
    | ⟨_,.print line _⟩ => some line
    | ⟨_,.read _⟩ | ⟨_,.other _⟩ => none

section Operations

variable {input input' : List String} {output output' : Array String} {ops : List (Σ β : Type, Console Unit β)}

@[simp] theorem perform_read (result : Option String → Unit → Outcome α) :
    onTerminal.translator.perform (.read result) (⟨input,output⟩ : Buffers) =
      (result input.head? (),⟨input.tail,output⟩) := by
  cases input <;> rfl

@[simp] theorem perform_print (line : String) (result : Unit → Outcome α) :
    onTerminal.translator.perform (.print line result) (⟨input,output⟩ : Buffers) =
      (result (),⟨input,output.push line⟩) := rfl

@[simp] theorem perform_other (op : Value) :
    onTerminal.translator.perform (.other op : Console Unit α) (⟨input,output⟩ : Buffers) =
      (.error (refused op),⟨input,output⟩) := rfl

theorem after_buffers (ops : List (Σ β : Type, Console Unit β)) (input : List String) (output : Array String) :
    onTerminal.translator.after ops (⟨input,output⟩ : Buffers) =
      ⟨input.drop (reads ops),output ++ printed ops⟩ := by
  induction ops generalizing input output with
  | nil => simp [Translator.after,reads,printed]
  | cons op ops ih =>
    obtain ⟨β,op⟩ := op
    simp only [Translator.after,List.foldl_cons] at ih ⊢
    cases op with
    | read result =>
      rw [perform_read,ih]
      simp [reads,printed]
    | print line result =>
      rw [perform_print,ih]
      simp [reads,printed]
    | other op =>
      rw [perform_other,ih]
      simp [reads,printed]

theorem refusesAlike_cases {V : Type} (cases : Cases Unit (Action W)) (cases' : Cases Unit (Action V)) :
    cases.translator.RefusesAlike cases'.translator := by
  intro β op e
  cases op with
  | read | print => exact ⟨nofun,nofun⟩
  | other op =>
    constructor
    · intro h
      cases h
      rfl
    · intro h
      cases h
      rfl

/-- Operations tell buffers apart only by the lines that they come to. -/
theorem answersAlike_buffers (output output' : Array String) (h : ∀ k < reads ops, input[k]? = input'[k]?) :
    onTerminal.translator.AnswersAlike onTerminal.translator ops (⟨input,output⟩ : Buffers)
      (⟨input',output'⟩ : Buffers) := by
  induction ops generalizing input input' output output' with
  | nil => trivial
  | cons op ops ih =>
    obtain ⟨β,op⟩ := op
    cases op with
    | read result =>
      have hhead : input.head? = input'.head? := by
        simpa only [List.head?_eq_getElem?] using h 0 (by simp [reads])
      have htail : ∀ k < reads ops, input.tail[k]? = input'.tail[k]? := by
        intro k hk
        simpa only [List.getElem?_tail] using h (k + 1) (by simpa [reads] using hk)
      simp only [Translator.AnswersAlike,perform_read,hhead]
      exact ⟨trivial,ih _ _ htail⟩
    | print line result => exact ⟨rfl,ih _ _ h⟩
    | other op => exact ⟨rfl,ih _ _ h⟩

/-- Some operation reads where no line is left. -/
def Starves (ops : List (Σ β : Type, Console Unit β)) (b : Buffers) : Prop :=
  ∃ (before after : List (Σ β : Type, Console Unit β)) (β : Type) (result : Option String → Unit → Outcome β),
    ops = before ++ ⟨β,.read result⟩ :: after ∧ (onTerminal.translator.after before b).input = []

theorem starves_iff {b : Buffers} : Starves ops b ↔ b.input.length < reads ops := by
  obtain ⟨input,output⟩ := b
  constructor
  · rintro ⟨before,after,β,result,rfl,hempty⟩
    rw [after_buffers,List.drop_eq_nil_iff] at hempty
    have hreads : reads (before ++ ⟨β,.read result⟩ :: after) = reads before + (reads after + 1) := by
      simp [reads]
    dsimp only
    omega
  · intro h
    induction ops generalizing input output with
    | nil => exact absurd h (Nat.not_lt_zero _)
    | cons op ops ih =>
      have hlater : ∀ {b : Buffers}, (onTerminal.translator.perform op.2 ⟨input,output⟩).2 = b → Starves ops b →
          Starves (op :: ops) ⟨input,output⟩ := by
        rintro b rfl ⟨before,after,β,result,rfl,hempty⟩
        exact ⟨op :: before,after,β,result,rfl,hempty⟩
      obtain ⟨β,op⟩ := op
      cases op with
      | read result =>
        cases input with
        | nil => exact ⟨[],ops,β,result,rfl,rfl⟩
        | cons line rest =>
          have hrest : rest.length < reads ops := by simpa [reads] using h
          exact hlater rfl (ih rest output hrest)
      | print line result => exact hlater rfl (ih input (output.push line) h)
      | other op => exact hlater rfl (ih input output h)

end Operations

variable [View W Unit]

theorem transition_eq_eval (p : ConsoleProgram Unit α) (b : Buffers) (w : W) :
    runBuilt (Target.simulating Unit W).run (toTransition p ()) b w =
      ((p.eval "runFree" onTerminal.translator b).1.map
        fun a => (a,(p.eval "runFree" onTerminal.translator b).2),w) := by
  let d : Desk := { unread := b.input, sink := { written := b.output } }
  have hagrees := simulate_agrees p w b d rfl rfl
  obtain ⟨hends,hbuffers,-⟩ := toAction_alike Desk.alike_buffers p (w := d) (v := b) ⟨rfl,rfl⟩
  rw [toAction_eq_eval] at hends hbuffers
  rcases hs : runBuilt (Target.simulating Unit W).run (toTransition p ()) b w with ⟨⟨a,b'⟩ | e,w'⟩ <;>
    rcases hd : p.eval "runFree" onTerminal.translator d with ⟨a' | e',d'⟩ <;> rw [hs,hd] at hagrees
  · obtain ⟨rfl,rfl,rfl,-⟩ := hagrees
    rw [← hends,← hbuffers,hd]
    rfl
  · exact hagrees.elim
  · exact hagrees.elim
  · obtain ⟨rfl,rfl⟩ := hagrees
    rw [← hends,hd]
    rfl

variable {input input' : List String}

/-- On buffers that show the lines which a program comes to, it performs the same operations, and the buffers that it
leaves are told by these. -/
theorem transition_of_same_lines (p : ConsoleProgram Unit α) (output output' : Array String) (w : W) :
    let ops := p.operations "runFree" onTerminal.translator (⟨input,output⟩ : Buffers)
    (∀ k < reads ops, input[k]? = input'[k]?) →
      p.operations "runFree" onTerminal.translator (⟨input',output'⟩ : Buffers) = ops ∧
      runBuilt (Target.simulating Unit W).run (toTransition p ()) ⟨input',output'⟩ w =
        ((p.eval "runFree" onTerminal.translator (⟨input,output⟩ : Buffers)).1.map
          fun a => (a,⟨input'.drop (reads ops),output' ++ printed ops⟩),w) := by
  intro ops hlines
  obtain ⟨hops,hends⟩ := Program.run_of_answersAlike (refusesAlike_cases onTerminal onTerminal) p
    (answersAlike_buffers output output' hlines)
  refine ⟨hops,?_⟩
  rw [transition_eq_eval,hends,Program.eval_world,hops,after_buffers]

/-- A simulation is local in its buffers. Let a program end on some of them, where programs that need not end are given
by their cut-offs. It has taken lines off the front of the input, one for each read as long as there was one, and what
it has added to the output is what its operations print. What has been in the output before changes nothing of that. If
no read met an empty queue, neither do lines that are added at the end of the input, and these are left. -/
theorem simulation_local (p : Nat → ConsoleProgram Unit α) {output output' : Array String} {a : α} {w v : W}
    (hends : EndsWith (fun n => runBuilt (Target.simulating Unit W).run (toTransition (p n) ()) ⟨input,output⟩ w)
      (.ok (a,⟨input',output'⟩)) v) :
    let run n (b : Buffers) := runBuilt (Target.simulating Unit W).run (toTransition (p n) ()) b w
    let ops n output := (p n).operations "runFree" onTerminal.translator (⟨input,output⟩ : Buffers)
    v = w ∧ input' <:+ input ∧ ∃ said : List String, output' = output ++ said ∧
      (∀ᶠ n in atTop, printed (ops n output) = said ∧ input' = input.drop (reads (ops n output)) ∧
        input.length - input'.length = min (reads (ops n output)) input.length) ∧
      (∀ output₂, (∀ n, ops n output₂ = ops n output) ∧
        EndsWith (fun n => run n ⟨input,output₂⟩) (.ok (a,⟨input',output₂ ++ said⟩)) w) ∧
      ((∀ᶠ n in atTop, ¬ Starves (ops n output) ⟨input,output⟩) → ∀ extra output₂,
        EndsWith (fun n => run n ⟨input ++ extra,output₂⟩) (.ok (a,⟨input' ++ extra,output₂ ++ said⟩)) w) := by
  intro run ops
  have hsame : ∀ n output₂, ops n output₂ = ops n output ∧ run n ⟨input,output₂⟩ =
      (((p n).eval "runFree" onTerminal.translator (⟨input,output⟩ : Buffers)).1.map
        fun a => (a,⟨input.drop (reads (ops n output)),output₂ ++ printed (ops n output)⟩),w) :=
    fun n output₂ => transition_of_same_lines (p n) output output₂ w fun _ _ => rfl
  have hrun : ∀ᶠ n in atTop, ((p n).eval "runFree" onTerminal.translator (⟨input,output⟩ : Buffers)).1 = .ok a ∧
      input' = input.drop (reads (ops n output)) ∧ output' = output ++ printed (ops n output) ∧ v = w := by
    filter_upwards [hends.2] with n hn
    have hn' := (hsame n output).2.symm.trans hn
    cases hx : ((p n).eval "runFree" onTerminal.translator (⟨input,output⟩ : Buffers)).1 with
    | error e =>
      rw [hx] at hn'
      cases hn'
    | ok b =>
      rw [hx] at hn'
      cases hn'
      exact ⟨rfl,rfl,rfl,rfl⟩
  obtain ⟨m,-,hinput,houtput,hworld⟩ := hrun.exists
  have hsaid : ∀ᶠ n in atTop, printed (ops n output) = printed (ops m output) := by
    filter_upwards [hrun] with n hn
    have happend : output ++ printed (ops n output) = output ++ printed (ops m output) := hn.2.2.1.symm.trans houtput
    simpa using congrArg Array.toList happend
  refine ⟨hworld,?_,printed (ops m output),houtput,?_,fun output₂ => ⟨fun n => (hsame n output₂).1,nofun,?_⟩,?_⟩
  · rw [hinput]
    exact List.drop_suffix _ _
  · filter_upwards [hrun,hsaid] with n hn hprinted
    refine ⟨hprinted,hn.2.1,?_⟩
    rw [hn.2.1,List.length_drop]
    omega
  · filter_upwards [hrun,hsaid] with n hn hprinted
    rw [(hsame n output₂).2,hn.1,hprinted,← hn.2.1]
    rfl
  · intro hfed extra output₂
    refine ⟨nofun,?_⟩
    filter_upwards [hrun,hsaid,hfed] with n hn hprinted hstarves
    have hreads : reads (ops n output) ≤ input.length := not_lt.mp (starves_iff.not.mp hstarves)
    have hlines : ∀ k < reads (ops n output), input[k]? = (input ++ extra)[k]? := by
      intro k hk
      rw [List.getElem?_append_left (hk.trans_le hreads)]
    have hextra := (transition_of_same_lines (p n) output output₂ w hlines).2
    rw [hn.1,List.drop_append_of_le_length hreads,hprinted,← hn.2.1] at hextra
    exact hextra

/-- A loop that prints the lines it reads, until it reads `"q"`, on three lines. -/
theorem simulation_local_echo :
    let echo (fuel : Nat) : ConsoleProgram Unit Unit := Program.doWhile fuel readLine fun line _ =>
      if line = some "q" then .done false else (printLine (line.getD "")).map fun _ => true
    let run n (b : Buffers) := runBuilt (Target.simulating Unit Unit).run (toTransition (echo n) ()) b ()
    EndsWith (fun n => run n ⟨["a","q","b"],#["x"]⟩) (.ok ((),⟨["b"],#["x","a"]⟩)) () ∧
      EndsWith (fun n => run n ⟨["a","q","b"],#[]⟩) (.ok ((),⟨["b"],#["a"]⟩)) () ∧
      EndsWith (fun n => run n ⟨["a","q","b"] ++ ["c"],#["y"]⟩) (.ok ((),⟨["b"] ++ ["c"],#["y","a"]⟩)) () := by
  intro echo run
  have hends : EndsWith (fun n => run n ⟨["a","q","b"],#["x"]⟩) (.ok ((),⟨["b"],#["x","a"]⟩)) () := by
    refine ⟨nofun,?_⟩
    filter_upwards [eventually_ge_atTop 2] with n hn
    obtain ⟨m,rfl⟩ := Nat.exists_eq_add_of_le' hn
    exact transition_eq_eval ..
  have hreads : ∀ᶠ n in atTop, ¬ Starves
      ((echo n).operations "runFree" onTerminal.translator (⟨["a","q","b"],#["x"]⟩ : Buffers))
      ⟨["a","q","b"],#["x"]⟩ := by
    filter_upwards [eventually_ge_atTop 2] with n hn
    obtain ⟨m,rfl⟩ := Nat.exists_eq_add_of_le' hn
    rw [starves_iff]
    exact (by decide : ¬ 3 < 2)
  obtain ⟨-,-,said,hsaid,-,hother,hextra⟩ := simulation_local echo hends
  obtain rfl : said = ["a"] := by simpa using (congrArg Array.toList hsaid).symm
  exact ⟨hends,(hother #[]).2,hextra hreads ["c"] #["y"]⟩

end Console

end Effectful
