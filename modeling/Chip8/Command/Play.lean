import Chip8.Command.Report
import Chip8.Machine.Report
import Chip8.Text.Integer

/-!
# Playing a program

The command reads a program from a file and runs it, in a window or without one.  A run can be
interrupted from outside, by the user or by a failure of the surface.
-/

namespace Chip8.Command

/-- What the command is asked to do. -/
structure Play where
  /-- Whether all notices are wanted. -/
  verbose : Bool
  /-- Whether there is to be no window. -/
  headless : Bool
  /-- The length of the side of a pixel in the window. -/
  scale : Int
  /-- The most cycles of the run. -/
  limit : Option Nat
  /-- The file that holds the program. -/
  cartridge : Path
deriving DecidableEq, Repr

namespace Play

/-- The options of the command. -/
def options : Options where
  flags := [helpFlag, verboseFlag, "--headless"]
  letters := [('v', verboseFlag)]
  settings := ["--scale", "--cycles"]

/-- The value of a setting that is an integer of at least `least`, or `default` if it is not
given. -/
def bounded {α : Type} (a : Arguments) (name : String) (least : Int) (convert : Int → α)
    (default : α) : Except Usage α :=
  match a.setting? name with
  | none => .ok default
  | some text =>
    match Text.integer? text with
    | some n => if least ≤ n then .ok (convert n) else .error .wrong
    | none => .error .wrong

/-- What the arguments ask for. -/
def ofArguments (args : List String) : Except Usage Play := do
  let a ← options.arguments args
  let scale ← bounded a "--scale" 1 id 10
  let limit ← bounded a "--cycles" 0 (fun n => some n.toNat) none
  match a.positional with
  | [file] =>
    return {
      verbose := a.flags.contains verboseFlag
      headless := a.flags.contains "--headless"
      scale, limit
      cartridge := .ofString file }
  | _ => throw .wrong

/-- How a run is interrupted. -/
inductive Cause where
  /-- By the user. -/
  | user
  /-- By a failure of the surface. -/
  | failure (text : String)
deriving DecidableEq, Repr

/-- An interruption of a run. -/
structure Interruption where
  /-- How many times the run can see before it that the surface is open. -/
  after : Nat
  /-- How the run is interrupted. -/
  cause : Cause
deriving DecidableEq, Repr

/-- Whether the run was interrupted.  A run looks at the surface before each cycle, and again and
again while it waits for a key, so it is interrupted in the midst of a wait that finds no key, or else
after as many cycles as it can see the surface. -/
def interrupted (last : Machine) : Option Interruption → Bool
  | none => false
  | some i => last.cycles = i.after || !last.surface.isOpen

/-- The end of a run that was interrupted. -/
def Cause.notice : Cause → Notice
  | .user => ⟨.info, "Execution halted by the user"⟩
  | .failure text => ⟨.info, "Execution halted on general error " ++ text⟩

/-- The exit code of a run that was interrupted. -/
def Cause.code : Cause → Nat
  | .user => 3
  | .failure _ => 100

/-- The last picture of a run. -/
def finalFrame (m : Machine) : Notice :=
  let display := m.surface.display
  ⟨.debug, "Final frame:\n" ++ "\n".intercalate (display.rows display.pixels)⟩

/-- Runs the machine, and says what is reported of it and how the command ends. -/
def runMachine (p : Play) (m : Machine) (interruption : Option Interruption) :
    List Notice × Nat :=
  let wanted := p.limit.getD Machine.endless
  let limit := match interruption with
    | some i => min wanted i.after
    | none => wanted
  let trace := if p.verbose then (Machine.traceCycles #[] limit m).toList else []
  match m.run limit with
  | .error (f, left) =>
    let text := f.message?.getD ""
    (trace ++ Machine.faultNotices f left
      ++ [⟨.info, "Execution halted on emulation error " ++ text⟩], 100)
  | .ok last =>
    match interruption, interrupted last interruption with
    | some i, true =>
      -- The surface of an interrupted wait is not closed, so nothing is reported of that.
      (trace.takeWhile (fun n => !(Surface.Request.close.notices.contains n)) ++ [i.cause.notice],
        i.cause.code)
    | _, _ =>
      (trace ++ Machine.endNotices (.ok last) ++ (if p.headless then [finalFrame last] else []), 0)

/-- Carries out the command on the contents of the file.  A window that cannot be opened is a surface
that is closed from the start. -/
def run (p : Play) (contents : Except FileError (List UInt8)) (random : Nat → UInt8)
    (interruption : Option Interruption) : Ending :=
  let greeting := noticeLines p.verbose [⟨.info, "CHIP-8"⟩]
  match contents with
  | .error e =>
    ⟨1, greeting ++ line ("Could not open file `" ++ p.cartridge.text ++ "`: "
      ++ fileMessage e p.cartridge)⟩
  | .ok rom =>
    match Machine.ofRom rom with
    | .error f => ⟨1, greeting ++ line (f.message?.getD "")⟩
    | .ok m =>
      let m := { m with random, surface := { m.surface with isOpen := p.headless } }
      let interruption := if p.headless then interruption else none
      let (notices, code) := p.runMachine m interruption
      ⟨code, greeting ++ noticeLines p.verbose (Memory.loadNotice rom :: notices)⟩

end Play

end Chip8.Command
