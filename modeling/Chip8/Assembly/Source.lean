import Chip8.Assembly.Form
import Chip8.Text.Tabs

/-!
# Sources

A source is read as a sequence of statements, one after the other, until no statement can be read.
Line ends mean nothing beyond ending comments and unknown lines.  Tabs are replaced by spaces
first, and offsets count in the text without tabs.
-/

namespace Chip8.Assembly

/-- Reads statements for as long as there are any, and gives them with the place where they end. -/
def readStatements (c : Cursor) : Except Error (List Statement × Cursor) :=
  match _h : readStatement c with
  | .miss => .ok ([], c.skip)
  | .abort e => .error e
  | .hit s next =>
    match readStatements next with
    | .ok (others, stop) => .ok (s :: others, stop)
    | .error e => .error e
termination_by c.rest.length
decreasing_by exact length_lt_of_readStatement _h

/-- The statements of a text without tabs. -/
def statementsOfText (text : List Char) : Except Error (List Statement) := do
  let (found, stop) ← readStatements (.start text)
  if stop.rest.isEmpty then return found
  -- The blanks and comments before the text that cannot be read are passed over.
  throw (.unreadable (text.length - stop.rest.length))

/-- The statements of a source. -/
def statements (source : String) : Except Error (List Statement) :=
  statementsOfText (Text.expandTabs source.toList)

end Chip8.Assembly
