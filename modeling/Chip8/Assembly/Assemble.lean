import Chip8.Assembly.Layout
import Chip8.Assembly.Source
import Chip8.Instr.Text
import Chip8.Notice

/-!
# Assembling

A source is read whole, then laid out, then linked; the first of these steps that fails decides the
error.  `notices` gives the reports of the same work, up to the step that fails.
-/

namespace Chip8.Assembly

/-- The program of a source. -/
def assemble (source : String) : Except Error (List UInt8) := do
  let found ← statements source
  let laidOut ← layOut found
  laidOut.link

/-! ## Notices -/

/-- What is reported when a statement is laid out.  An instruction is reported before its opcode is
known to fit, a label only once it is known to be new. -/
def Statement.notices (s : Statement) (l : Layout) : List Notice :=
  match s with
  | .instr i => [⟨.debug, "Issuing " ++ i.text ++ " @ " ++ addressText l.address⟩]
  | .ref _ name => [⟨.debug, "Ref " ++ name ++ " @ " ++ addressText l.address⟩]
  | .label name =>
    match l.labels.lookup name with
    | some _ => []
    | none => [⟨.debug, "Label " ++ name ++ " @ " ++ addressText l.address⟩]
  | .bytes _ => []
  | .words _ => []
  | .unknown _ => []

/-- What is reported when statements are laid out in order, up to the first that fails. -/
def layOutNotices : List Statement → Layout → List Notice
  | [], _ => []
  | s :: others, l =>
    s.notices l ++
      match l.add s with
      | .ok next => layOutNotices others next
      | .error _ => []

/-- What is reported when a source is assembled. -/
def notices (source : String) : List Notice :=
  match statements source with
  | .ok found => layOutNotices found {}
  | .error _ => []

end Chip8.Assembly
