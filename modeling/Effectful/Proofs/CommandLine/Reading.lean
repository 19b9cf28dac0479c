import Effectful.CommandLine.Session
import Effectful.Proofs.Text.Lines
import Mathlib.Logic.Function.Iterate
/-!
# Reading the standard input

The standard input is read line by line, and each call goes on where the one before it has stopped. So the calls go
along the chunks of the input, one chunk for each call, and after them every call fails.
-/
namespace Effectful

namespace Action

variable {W α : Type}

def after (t : Action W α) (n : Nat) (w : W) : W := (fun w => (t w).2)^[n] w

def call (t : Action W α) (n : Nat) (w : W) : Outcome α × W := t (t.after n w)

end Action

namespace CommandLine

open Text

/-- What a call takes off the input: a chunk and the newline that ends it, a chunk that ends with the input, or nothing
where the input has ended. -/
def Takes : Option (List UInt8) → List UInt8 → List UInt8 → Prop
  | some chunk, before, after => before = chunk ++ newline :: after ∨ chunk ≠ [] ∧ before = chunk ∧ after = []
  | none, before, after => before = [] ∧ after = []

def answerOf : Option String → Outcome String
  | some line => .ok line
  | none => .error (.ofReason .endOfInput)

/-- A call reads the chunk in front of it: it answers the text of the chunk, takes off no byte beyond it and its
newline, and writes nothing. -/
structure Reads (chunk : Option (List UInt8)) (before : Streams) (x : Outcome String × Streams) : Prop where
  answer : x.1 = answerOf (chunk.map fun bytes => dropReturn (Utf8.decode bytes))
  takes : Takes chunk before.unread x.2.unread
  written : x.2.written = before.written

namespace Streams

theorem readLine_of_nextLine {bytes rest : List UInt8} {line : String} (h : nextLine? bytes = some (line,rest))
    (written : Array String) : readLine ⟨bytes,written⟩ = (.ok line,⟨rest,written⟩) := by
  simp only [readLine,h]

/-- One call reads the first chunk, and leaves the others. -/
theorem readLine_reads (s : Streams) :
    Reads (chunks s.unread).head? s (readLine s) ∧ chunks (readLine s).2.unread = (chunks s.unread).tail := by
  obtain ⟨bytes,written⟩ := s
  induction bytes using induct_chunks with
  | last chunk hchunk =>
    dsimp only
    rw [chunks_of_notMem hchunk]
    by_cases hne : chunk = []
    · subst hne
      exact ⟨⟨rfl,⟨rfl,rfl⟩,rfl⟩,rfl⟩
    · rw [if_neg hne,readLine_of_nextLine (nextLine?_of_notMem hchunk hne)]
      exact ⟨⟨rfl,.inr ⟨hne,rfl,rfl⟩,rfl⟩,rfl⟩
  | cons chunk rest hchunk =>
    dsimp only
    rw [chunks_append hchunk,readLine_of_nextLine (nextLine?_append hchunk)]
    exact ⟨⟨rfl,.inl rfl,rfl⟩,rfl⟩

variable (s : Streams)

theorem chunks_after_readLine (n : Nat) : chunks (readLine.after n s).unread = (chunks s.unread).drop n := by
  induction n with
  | zero => rfl
  | succ n ih =>
    rw [Action.after,Function.iterate_succ_apply',← Action.after,(readLine_reads _).2,ih,List.tail_drop]

theorem call_readLine_reads (n : Nat) : Reads (chunks s.unread)[n]? (readLine.after n s) (readLine.call n s) := by
  have hreads := (readLine_reads (readLine.after n s)).1
  rwa [chunks_after_readLine,List.head?_drop] at hreads

end Streams

/-- Reading splits the input without loss. The chunks of the input are its pieces between newlines, and after the last
newline what is left, if anything is. The calls read the chunks one by one. Each answers the decoded chunk without
one carriage return at its end, and takes off the chunk and the newline that ends it, but no byte more; every call after
the last chunk fails at the end of the input. So lines that hold no newline and do not end in a carriage return are read
back as they are, each from what is written with a newline after it, or with a carriage return and a newline. -/
theorem reading_splits_input (bytes : List UInt8) (written : Array String) :
    let stdin : Streams := { unread := bytes, written }
    (∀ chunk ∈ chunks bytes, newline ∉ chunk) ∧
    (∀ n, Reads (chunks bytes)[n]? (Streams.readLine.after n stdin) (Streams.readLine.call n stdin)) ∧
    ∀ lines : List (String × String), (∀ x ∈ lines, IsLine x.1 ∧ (x.2 = "\n" ∨ x.2 = "\r\n")) →
      bytes = Utf8.encode (String.join (lines.map fun x => x.1 ++ x.2)) →
        (∀ n, (Streams.readLine.call n stdin).1 = answerOf (lines.map Prod.fst)[n]?) ∧
          (Streams.readLine.after lines.length stdin).unread = [] := by
  intro stdin
  refine ⟨fun chunk => newline_notMem_of_mem_chunks,Streams.call_readLine_reads stdin,fun lines hlines hbytes => ?_⟩
  have htexts := map_chunks_encode hlines
  rw [← hbytes] at htexts
  refine ⟨fun n => ?_,chunks_eq_nil ?_⟩
  · rw [(Streams.call_readLine_reads stdin n).answer,← List.getElem?_map,htexts]
  · have hlength := congrArg List.length htexts
    rw [List.length_map,List.length_map] at hlength
    rw [Streams.chunks_after_readLine,← hlength,List.drop_length]

/-- An empty line, a line with a carriage return before its newline, and a line of several bytes for one character; and
an input that ends in a carriage return. -/
theorem reading_splits_input_lines :
    let stdin : Streams := { unread := Utf8.encode "\nq\r\ntō\n" }
    let ended : Streams := { unread := Utf8.encode "q\n\r" }
    ((Streams.readLine.call 0 stdin).1 = .ok "" ∧ (Streams.readLine.call 1 stdin).1 = .ok "q" ∧
      (Streams.readLine.call 2 stdin).1 = .ok "tō" ∧
      (Streams.readLine.call 3 stdin).1 = .error (.ofReason .endOfInput) ∧
      (Streams.readLine.after 3 stdin).unread = []) ∧
    (Streams.readLine.call 1 ended).1 = .ok "" ∧
      (Streams.readLine.call 2 ended).1 = .error (.ofReason .endOfInput) := by
  intro stdin ended
  obtain ⟨-,-,hlines⟩ := reading_splits_input (Utf8.encode "\nq\r\ntō\n") #[]
  obtain ⟨hcall,hafter⟩ := hlines [("","\n"),("q","\r\n"),("tō","\n")] (by decide) (by decide)
  obtain ⟨-,hreads,-⟩ := reading_splits_input (Utf8.encode "q\n\r") #[]
  exact ⟨⟨hcall 0,hcall 1,hcall 2,hcall 3,hafter⟩,(hreads 1).answer,(hreads 2).answer⟩

end CommandLine

end Effectful
