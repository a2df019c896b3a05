/-!
# Tab stops

A tab moves to the next column that is a multiple of eight.  Columns are counted in characters,
anew after a line feed and after a carriage return.
-/

namespace Chip8.Text

/-- The distance between two tab stops. -/
def tabStop : Nat := 8

/-- Replaces each tab by spaces up to the next tab stop, for text that starts at `column`. -/
def expandTabsFrom (column : Nat) : List Char → List Char
  | [] => []
  | c :: rest =>
    if c = '\t' then
      let width := tabStop - column % tabStop
      List.replicate width ' ' ++ expandTabsFrom (column + width) rest
    else if c = '\n' || c = '\r' then c :: expandTabsFrom 0 rest
    else c :: expandTabsFrom (column + 1) rest

/-- Replaces each tab by spaces up to the next tab stop. -/
def expandTabs (text : List Char) : List Char :=
  expandTabsFrom 0 text

/-- No tab is left. -/
theorem tab_notMem_expandTabsFrom (column : Nat) (text : List Char) :
    '\t' ∉ expandTabsFrom column text := by
  induction text generalizing column with
  | nil => simp [expandTabsFrom]
  | cons c rest ih =>
    unfold expandTabsFrom
    split
    next => simp [ih]
    next h =>
      split
      · simp [ih, Ne.symm h]
      · simp [ih, Ne.symm h]

end Chip8.Text
