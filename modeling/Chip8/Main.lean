import Chip8.Command.Build
import Chip8.Command.Play

/-!
# The command line

`play` runs a program and `build` assembles one.  This module only fetches what a command needs to
know of the file system, and carries out what the command decides.
-/

namespace Chip8.CommandLine

open Command

/-- What is at a location.  Something that is there and has no contents to read is a folder. -/
def look (loc : Location) : IO (Option Node) := do
  try
    let data ← IO.FS.readBinFile (Directory.Location.text loc)
    return some (.file data.toList)
  catch
    | .noFileOrDirectory _ _ _ => return none
    | _ => return some .folder

/-- What there is on the way to paths. -/
def survey (paths : List Path) : IO Directory := do
  let mut d : Directory := {}
  for p in paths do
    for loc in Directory.trail (Directory.start p) p.names do
      if let some node ← look loc then
        d := d.insert loc node
  return d

/-- Ends a command that did not start. -/
def explain (usage : Usage) : IO UInt32 := do
  IO.eprintln "usage: play [-v] [--scale N] [--headless] [--cycles N] CARTRIDGE"
  IO.eprintln "       build [-v] SOURCE BINARY"
  return UInt32.ofNat usage.code

/-- Says what a command has to say. -/
def finish (ending : Ending) : IO UInt32 := do
  IO.eprint ending.report
  return UInt32.ofNat ending.code

/-- Plays a program. -/
def play (args : List String) : IO UInt32 := do
  match Play.ofArguments args with
  | .error usage => explain usage
  | .ok p =>
    let d ← survey [p.cartridge]
    let bytes := (← IO.getRandomBytes 0x10000).data
    finish (p.run (d.read p.cartridge) (fun n => bytes.getD (n % bytes.size) 0) none)

/-- Builds a program. -/
def build (args : List String) : IO UInt32 := do
  match Build.ofArguments args with
  | .error usage => explain usage
  | .ok b =>
    let d ← survey [b.source, b.binary]
    let result := b.perform d
    if let (none, .ok data) := (result.failure, result.directory.read b.binary) then
      IO.FS.createDirAll b.binary.parent.text
      IO.FS.writeBinFile b.binary.text ⟨data.toArray⟩
    finish (result.ending b.verbose)

end Chip8.CommandLine

/-- Carries out the command that the first argument names. -/
def main (args : List String) : IO UInt32 :=
  match args with
  | "play" :: rest => Chip8.CommandLine.play rest
  | "build" :: rest => Chip8.CommandLine.build rest
  | _ => Chip8.CommandLine.explain .wrong
