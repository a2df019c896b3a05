/-!
# Notices

What the machine and the assembler report while they work.  A notice has no influence on any
result; it is computed from the state in which it arises.
-/

namespace Chip8

/-- How important a notice is: of interest when looking for a fault, of general interest, or the report
of a failure. -/
inductive Level where
  | debug
  | info
  | error
deriving DecidableEq, Repr

/-- The name of the level. -/
def Level.text : Level → String
  | .debug => "DEBUG"
  | .info => "INFO"
  | .error => "ERROR"

/-- One reported line, and how important it is. -/
structure Notice where
  level : Level
  text : String
deriving DecidableEq, Repr

end Chip8
