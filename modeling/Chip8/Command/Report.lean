import Chip8.Command.Arguments
import Chip8.Command.Directory
import Chip8.Notice
import Chip8.Text.Quoted

/-!
# What a command says

A command ends with an exit code and a report.  Notices are lines of the report; those of the lowest
level are left out unless the command is asked for them.  A command that cannot make sense of its
arguments explains how it is used instead.
-/

namespace Chip8.Command

/-- How a command ends. -/
structure Ending where
  /-- The exit code. -/
  code : Nat
  /-- The report. -/
  report : String
deriving DecidableEq, Repr

/-- Why a command does not start. -/
inductive Usage where
  /-- It was asked how it is used. -/
  | help
  /-- Its arguments make no sense. -/
  | wrong
deriving DecidableEq, Repr

/-- The exit code of a command that does not start. -/
def Usage.code : Usage → Nat
  | .help => 0
  | .wrong => 2

/-- The name of the flag that asks how a command is used. -/
def helpFlag : String := "--help"

/-- The name of the flag that asks for all notices. -/
def verboseFlag : String := "--verbose"

/-- Sorts the arguments of a command, and ends it if it is asked for help. -/
def Options.arguments (o : Options) (args : List String) : Except Usage Arguments :=
  match o.sort? args with
  | none => .error .wrong
  | some sorted => if sorted.flags.contains helpFlag then .error .help else .ok sorted

/-- A line of a report. -/
def line (text : String) : String := text ++ "\n"

/-- The lines of notices, of which the lowest are left out unless they are asked for. -/
def noticeLines (verbose : Bool) (notices : List Notice) : String :=
  String.join ((notices.filter fun n => verbose || n.level ≠ .debug).map fun n =>
    line (n.level.text ++ ":root:" ++ n.text))

/-- What is said of a file that cannot be had. -/
def fileMessage (e : FileError) (p : Path) : String :=
  e.text ++ ": " ++ Text.quoted p.text

end Chip8.Command
