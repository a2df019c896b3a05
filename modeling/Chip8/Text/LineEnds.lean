/-!
# Text files

A text file holds UTF-8.  Its lines may end in a line feed, a carriage return, or both in this
order; in the text each of these is one line feed.
-/

namespace Chip8.Text

/-- Replaces each line end by a line feed. -/
def normalizeLineEnds : List Char → List Char
  | [] => []
  | '\r' :: '\n' :: rest => '\n' :: normalizeLineEnds rest
  | c :: rest => (if c = '\r' then '\n' else c) :: normalizeLineEnds rest

/-- No carriage return is left. -/
theorem notMem_normalizeLineEnds (text : List Char) : '\r' ∉ normalizeLineEnds text := by
  fun_induction normalizeLineEnds text with
  | case1 => simp
  | case2 rest ih => simp [ih]
  | case3 c rest _ ih =>
    split
    · simp [ih]
    · next h => simp [ih, Ne.symm h]

/-- The text of a file, unless its bytes are no UTF-8. -/
def ofFile? (bytes : ByteArray) : Option String :=
  (String.fromUTF8? bytes).map fun s => String.ofList (normalizeLineEnds s.toList)

end Chip8.Text
