import Chip8.Assembly.Assemble
import Chip8.Command.Report
import Chip8.Text.LineEnds

/-!
# Building a program

The command reads a source from a file, assembles it and writes the program to another file, for
which it makes the folders.
-/

namespace Chip8.Command

/-- What the command is asked to do. -/
structure Build where
  /-- Whether all notices are wanted. -/
  verbose : Bool
  /-- The file that holds the source. -/
  source : Path
  /-- The file for the program. -/
  binary : Path
deriving DecidableEq, Repr

namespace Build

/-- Why a build fails. -/
inductive Failure where
  /-- A file cannot be read or written. -/
  | file (e : FileError)
  /-- The source is no text. -/
  | notText
  /-- The source has no program. -/
  | assembly (e : Assembly.Error)
deriving DecidableEq, Repr

/-- The options of the command. -/
def options : Options where
  flags := [helpFlag, verboseFlag]
  letters := [('v', verboseFlag)]
  settings := []

/-- What the arguments ask for. -/
def ofArguments (args : List String) : Except Usage Build := do
  let a ← options.arguments args
  match a.positional with
  | [source, binary] =>
    return {
      verbose := a.flags.contains verboseFlag
      source := .ofString source
      binary := .ofString binary }
  | _ => throw .wrong

/-- What a build does: what it reports, what it fails of, and the directory after it. -/
structure Result where
  /-- What is reported. -/
  notices : List Notice
  /-- Why it failed, if it did. -/
  failure : Option Failure
  /-- The directory after it. -/
  directory : Directory

/-- Reads the text of the source. -/
def readSource (b : Build) (d : Directory) : Except Failure String :=
  match d.read b.source with
  | .error e => .error (.file e)
  | .ok data =>
    match Text.ofFile? ⟨data.toArray⟩ with
    | some text => .ok text
    | none => .error .notText

/-- Carries out the command in a directory. -/
def perform (b : Build) (d : Directory) : Result :=
  let begun := [⟨.info, "CHIP-8 ASM"⟩, ⟨.debug, "Compiling file " ++ b.source.text⟩]
  match b.readSource d with
  | .error e => ⟨begun, some e, d⟩
  | .ok text =>
    let assembled := begun ++ Assembly.notices text
    match Assembly.assemble text with
    | .error e => ⟨assembled, some (.assembly e), d⟩
    | .ok rom =>
      match d.makeFolders b.binary.parent with
      | .error e => ⟨assembled, some (.file e), d⟩
      | .ok made =>
        match made.write b.binary rom with
        | .error e => ⟨assembled, some (.file e), made⟩
        | .ok after =>
          let wrote := "Wrote " ++ toString rom.length ++ " bytes to " ++ b.binary.text
          ⟨assembled ++ [⟨.info, wrote⟩], none, after⟩

/-- How the command ends. -/
def Result.ending (r : Result) (verbose : Bool) : Ending :=
  ⟨if r.failure.isSome then 1 else 0, noticeLines verbose r.notices⟩

end Build

end Chip8.Command
