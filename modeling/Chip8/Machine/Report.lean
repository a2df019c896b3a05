import Chip8.Machine.Run

/-!
# What the machine reports

The notices of a step are computed from the machine before it.  A cycle reports its instruction, a
key wait what it waits for and how it was interrupted, and a run how it ended.
-/

namespace Chip8

/-- What is reported when a program is put in place. -/
def Memory.loadNotice (rom : List UInt8) : Notice :=
  ⟨.debug, "Loaded " ++ toString rom.length ++ " bytes @ 0x" ++ Hex.text romBase⟩

namespace Machine

/-- All registers, in one line. -/
def dump (m : Machine) : Notice :=
  let special := [
    "PC:" ++ Hex.text m.pc, "SP:" ++ Hex.text m.sp, "I:" ++ Hex.text m.i.toNat,
    "DT:" ++ Hex.text m.delay.value.toNat, "ST:" ++ Hex.text m.sound.value.toNat]
  let general := m.v.toList.zipIdx.map fun (value, n) =>
    "V" ++ Hex.text n ++ ":" ++ Hex.padded 2 value.toNat
  ⟨.debug, " ".intercalate (special ++ general)⟩

/-- What is reported of an event at the surface. -/
def eventNotices : KeyEvent → List Notice
  | .close => Surface.Request.close.notices
  | _ => []

/-- What is reported when the machine waits for a key. -/
def waitNotices (m : Machine) (x : Reg) : List Notice :=
  let wait := m.surface.clearPress.awaitKey m.stray m.script
  let interrupted := match wait.ending with
    | .closed => [⟨.debug, "Key wait interrupted by shutdown"⟩]
    | _ => []
  ⟨.debug, "Waiting for key into " ++ x.text⟩ :: wait.seen.flatMap eventNotices ++ interrupted

/-- What is reported when an instruction is carried out. -/
def executeNotices (m : Machine) : Instr → List Notice
  | .single .awaitKey x => m.waitNotices x
  | _ => []

/-- What a cycle reports. -/
def cycleNotices (m : Machine) : List Notice :=
  match m.memory.instrAt m.pc with
  | .ok instr => ⟨.debug, Hex.padded 3 m.pc ++ ": " ++ instr.text⟩ :: m.executeNotices instr
  | .error _ => []

/-- What the cycles of a run report, added to what was reported before. -/
def traceCycles (before : Array Notice) : Nat → Machine → Array Notice
  | 0, _ => before
  | limit + 1, m =>
    if m.CanGoOn then
      match m.cycle with
      | .ok next => traceCycles (before ++ m.cycleNotices) limit next
      | .error _ => before ++ m.cycleNotices
    else before

/-- What is reported of a fault that ends a run. -/
def faultNotices (f : Fault) (m : Machine) : List Notice :=
  match f.message? with
  | some text =>
    if f.isOfProgram then
      [⟨.error, "Execution halted at " ++ addressText m.pc ++ ": " ++ text⟩, m.dump]
    else []
  | none => []

/-- What is reported of the end of a run. -/
def endNotices : Result → List Notice
  | .ok last => [⟨.info, "Execution halted after " ++ toString last.cycles ++ " cycles"⟩]
  | .error (f, left) => faultNotices f left

/-- What a run reports. -/
def runNotices (limit : Nat) (m : Machine) : List Notice :=
  (traceCycles #[] limit m).toList ++ endNotices (m.run limit)

end Machine

end Chip8
