import Effectful.Text.Line
/-!
# Chunks of bytes

The newlines of the input cut it into chunks. The first line is the first chunk, and the bytes after it are cut into
the chunks that are left, so whatever takes lines off the input goes along its chunks.
-/
namespace Effectful.Text

variable {chunk rest : List UInt8}

/-- The pieces of the input between its newlines. The piece after the last newline counts if there is a byte in it. -/
def chunks (bytes : List UInt8) : List (List UInt8) :=
  let pieces := bytes.splitOn newline
  if pieces.getLast? = some [] then pieces.dropLast else pieces

theorem chunks_of_notMem (h : newline ∉ chunk) : chunks chunk = if chunk = [] then [] else [chunk] := by
  rw [chunks,List.splitOn_eq_singleton h]
  simp

theorem chunks_append (h : newline ∉ chunk) : chunks (chunk ++ newline :: rest) = chunk :: chunks rest := by
  have hpieces : (chunk ++ newline :: rest).splitOn newline = chunk :: rest.splitOn newline := by
    rw [List.splitOn,List.splitOnP_append_cons _ _ (by simp),← List.splitOn,List.splitOn_eq_singleton h]
    rfl
  -- There is always a piece after the newline, so the first chunk is not the piece that may be left out.
  obtain ⟨piece,pieces,hrest⟩ := List.exists_cons_of_ne_nil (List.splitOn_ne_nil newline rest)
  rw [chunks,chunks,hpieces,hrest,List.getLast?_cons_cons,List.dropLast_cons_cons]
  exact (apply_ite (List.cons chunk) _ _ _).symm

/-- Induction along the chunks of the input: what comes after its last newline, and one chunk with its newline more. -/
@[elab_as_elim]
theorem induct_chunks {motive : List UInt8 → Prop} (bytes : List UInt8)
    (last : ∀ chunk, newline ∉ chunk → motive chunk)
    (cons : ∀ chunk rest, newline ∉ chunk → motive rest → motive (chunk ++ newline :: rest)) : motive bytes := by
  by_cases hmem : newline ∈ bytes
  · obtain ⟨chunk,rest,hbytes,hchunk⟩ := List.eq_append_cons_of_mem hmem
    rw [hbytes]
    exact cons chunk rest hchunk (induct_chunks rest last cons)
  · exact last bytes hmem
termination_by bytes.length
decreasing_by
  rw [hbytes,List.length_append,List.length_cons]
  omega

theorem newline_notMem_of_mem_chunks {bytes : List UInt8} (h : chunk ∈ chunks bytes) : newline ∉ chunk := by
  induction bytes using induct_chunks with
  | last bytes hbytes =>
    rw [chunks_of_notMem hbytes] at h
    split at h
    · cases h
    · rwa [List.mem_singleton.mp h]
  | cons first rest hfirst ih =>
    rw [chunks_append hfirst] at h
    rcases List.mem_cons.mp h with rfl | h
    · exact hfirst
    · exact ih h

theorem chunks_eq_nil {bytes : List UInt8} (h : chunks bytes = []) : bytes = [] := by
  induction bytes using induct_chunks with
  | last bytes hbytes => simpa [chunks_of_notMem hbytes] using h
  | cons first rest hfirst ih => simp [chunks_append hfirst] at h

section Collecting

variable (collected : Array UInt8)

theorem collectLine_append (h : newline ∉ chunk) :
    collectLine collected (chunk ++ newline :: rest) = some (collected ++ chunk,rest) := by
  induction chunk generalizing collected with
  | nil => simp [collectLine]
  | cons byte chunk ih =>
    have hbyte : byte ≠ newline := (List.ne_of_not_mem_cons h).symm
    rw [List.cons_append,collectLine,if_neg hbyte,ih _ (List.not_mem_of_not_mem_cons h)]
    simp

theorem collectLine_of_notMem (h : newline ∉ chunk) :
    collectLine collected chunk = if (collected ++ chunk).isEmpty then none else some (collected ++ chunk,[]) := by
  induction chunk generalizing collected with
  | nil => simp [collectLine]
  | cons byte chunk ih =>
    have hbyte : byte ≠ newline := (List.ne_of_not_mem_cons h).symm
    rw [collectLine,if_neg hbyte,ih _ (List.not_mem_of_not_mem_cons h)]
    simp

end Collecting

theorem nextLine?_append (h : newline ∉ chunk) :
    nextLine? (chunk ++ newline :: rest) = some (dropReturn (Utf8.decode chunk),rest) := by
  rw [nextLine?,collectLine_append _ h]
  simp

theorem nextLine?_of_notMem (h : newline ∉ chunk) (hne : chunk ≠ []) :
    nextLine? chunk = some (dropReturn (Utf8.decode chunk),[]) := by
  rw [nextLine?,collectLine_of_notMem _ h]
  simp [hne]

end Effectful.Text
