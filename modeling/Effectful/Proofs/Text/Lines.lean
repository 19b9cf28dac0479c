import Effectful.Proofs.Text.Chunks
import Effectful.Proofs.Text.Utf8
/-!
# Lines that are kept

A text that holds no newline and does not end in a carriage return is read back from its bytes as it is. So the
bytes of such lines, each ended by a newline, are taken off one line at a time, up to the end of the input.
-/
namespace Effectful.Text

/-- A text that can be one line: nothing in it ends a line, and nothing at its end is dropped. -/
def IsLine (s : String) : Prop := '\n' ∉ s.toList ∧ s.toList.getLast? ≠ some '\r'

instance : DecidablePred IsLine := fun s =>
  inferInstanceAs (Decidable ('\n' ∉ s.toList ∧ s.toList.getLast? ≠ some '\r'))

def lineBytes (lines : List String) : List UInt8 :=
  lines.flatMap fun line => Utf8.encode line ++ [newline]

theorem Utf8.encode_append (s t : String) : Utf8.encode (s ++ t) = Utf8.encode s ++ Utf8.encode t := by
  simp only [Utf8.encode_eq_flatMap,String.toList_append,List.flatMap_append]

theorem newline_notMem_encode {s : String} (h : '\n' ∉ s.toList) : newline ∉ Utf8.encode s := by
  rw [Utf8.mem_encode_iff s (by decide)]
  rintro ⟨c,hc,hnewline⟩
  obtain rfl : c = '\n' := Char.toNat_inj.mp hnewline
  exact h hc

theorem IsLine.dropReturn {line : String} (h : IsLine line) : dropReturn line = line := if_neg h.2

theorem dropReturn_append (line : String) : dropReturn (line ++ "\r") = line := by
  have hreturn : (line ++ "\r").toList = line.toList ++ ['\r'] := String.toList_append
  rw [dropReturn,hreturn,if_pos List.getLast?_concat,List.dropLast_concat,String.ofList_toList]

theorem nextLine?_lineBytes_nil : nextLine? (lineBytes []) = none := rfl

theorem nextLine?_lineBytes_cons {line : String} (h : IsLine line) (lines : List String) :
    nextLine? (lineBytes (line :: lines)) = some (line,lineBytes lines) := by
  have hbytes : lineBytes (line :: lines) = Utf8.encode line ++ newline :: lineBytes lines := by
    simp only [lineBytes,List.flatMap_cons,List.append_assoc,List.cons_append,List.nil_append]
  rw [hbytes,nextLine?_append (newline_notMem_encode h.1),Utf8.decode_encode,h.dropReturn]

/-- A line that is ended by a newline, or by a carriage return and a newline, is one chunk. -/
theorem exists_chunk {line ending : String} (h : IsLine line) (hending : ending = "\n" ∨ ending = "\r\n") :
    ∃ chunk, newline ∉ chunk ∧ dropReturn (Utf8.decode chunk) = line ∧
      Utf8.encode (line ++ ending) = chunk ++ [newline] := by
  rcases hending with rfl | rfl
  · refine ⟨Utf8.encode line,newline_notMem_encode h.1,?_,Utf8.encode_append ..⟩
    rw [Utf8.decode_encode,h.dropReturn]
  · have hreturn : '\n' ∉ (line ++ "\r").toList := by
      rw [String.toList_append,List.mem_append,not_or]
      exact ⟨h.1,by decide⟩
    refine ⟨Utf8.encode (line ++ "\r"),newline_notMem_encode hreturn,?_,?_⟩
    · rw [Utf8.decode_encode,dropReturn_append]
    · calc
        Utf8.encode (line ++ "\r\n") = Utf8.encode (line ++ "\r" ++ "\n") := by rw [String.append_assoc]; rfl
        _ = Utf8.encode (line ++ "\r") ++ [newline] := Utf8.encode_append ..

theorem map_chunks_encode {lines : List (String × String)}
    (h : ∀ x ∈ lines, IsLine x.1 ∧ (x.2 = "\n" ∨ x.2 = "\r\n")) :
    (chunks (Utf8.encode (String.join (lines.map fun x => x.1 ++ x.2)))).map
        (fun chunk => dropReturn (Utf8.decode chunk)) = lines.map Prod.fst := by
  induction lines with
  | nil => rfl
  | cons x lines ih =>
    obtain ⟨hline,hending⟩ := h x List.mem_cons_self
    obtain ⟨chunk,hnewline,htext,hbytes⟩ := exists_chunk hline hending
    rw [List.map_cons,String.join_cons,Utf8.encode_append,hbytes,List.append_assoc,List.singleton_append,
      chunks_append hnewline,List.map_cons,htext,ih fun x hx => h x (List.mem_cons_of_mem _ hx),List.map_cons]

end Effectful.Text
