import Chip8.CallStack
import Chip8.Memory
import Chip8.Surface
import Chip8.Timer

/-!
# The state of the machine

A `Machine` holds the registers, memory, the call stack, the two timers and the surface, and beside
them what the machine meets while it runs: the random bytes that it will draw, and what will happen
at the surface while it waits for a key.  An action that fails leaves a machine behind too, so a
failure carries one.
-/

namespace Chip8

/-- Whether the machine is in a run.  It is halted before and after every run. -/
inductive Mode where
  | running
  | halted
deriving DecidableEq, Repr

/-- The name of the mode. -/
def Mode.text : Mode → String
  | .running => "running"
  | .halted => "halted"

/-- Something that happens at the surface: the key of a number is pressed or released, or the surface
is closed. -/
inductive KeyEvent where
  | press (code : Int)
  | release (code : Int)
  | close
deriving DecidableEq, Repr

/-- A machine. -/
structure Machine where
  memory : Memory
  /-- The general purpose registers `V0` to `VF`. -/
  v : Vector UInt8 registerCount := .replicate _ 0
  /-- The index register. -/
  i : UInt16 := 0
  pc : Int := romBase
  /-- The stack pointer: the number of saved return addresses. -/
  sp : Nat := 0
  stack : CallStack := {}
  delay : Timer := {}
  sound : Timer := {}
  surface : Surface := {}
  mode : Mode := .halted
  /-- The number of instructions that were carried out by cycles. -/
  cycles : Nat := 0
  /-- The random bytes, first to last. -/
  random : Nat → UInt8 := fun _ => 0
  /-- The number of random bytes that were drawn. -/
  drawn : Nat := 0
  /-- What happens at the surface each time the machine sleeps in a key wait.  Once nothing is left
  the surface is closed. -/
  script : List (List KeyEvent) := []
  /-- A number that stands in for every key that is looked for, if there is one. -/
  stray : Option Int := none

namespace Machine

/-- A machine with a program in memory. -/
def ofRom (rom : List UInt8) : Except Fault Machine := do
  return { memory := ← Memory.ofRom rom }

/-- What comes of an action: the machine after it, or a fault and the machine it leaves behind. -/
abbrev Result := Except (Fault × Machine) Machine

/-- A value that may be refused, where a refusal leaves the machine as it is. -/
def attempt {α : Type} (m : Machine) (r : Except Fault α) : Except (Fault × Machine) α :=
  match r with
  | .ok value => .ok value
  | .error f => .error (f, m)

/-! ## Registers -/

/-- The place of a register, if it exists.  A negative number counts from the last register. -/
def slot? (r : Reg) : Option (Fin registerCount) :=
  if h : -registerCount ≤ r.index ∧ r.index < registerCount then
    some ⟨Bits.place registerCount r.index, by unfold Bits.place; split <;> omega⟩
  else none

/-- The value of a register. -/
def get (m : Machine) (r : Reg) : Except Fault UInt8 :=
  match slot? r with
  | some slot => .ok (m.v.get slot)
  | none => .error .noSuchRegister

/-- Puts a byte into a register that exists. -/
def put (m : Machine) (slot : Fin registerCount) (value : UInt8) : Machine :=
  { m with v := m.v.set slot value }

/-- Sets a register to the low byte of a number. -/
def set (m : Machine) (r : Reg) (n : Int) : Result :=
  match slot? r with
  | some slot => .ok (m.put slot (Bits.lowByte n))
  | none => .error (.noSuchRegister, m)

/-- The register that takes carries and collisions. -/
def flagSlot : Fin registerCount := Fin.last 15

/-- Sets the flag register to 1 or 0. -/
def setFlag (m : Machine) (flag : Bool) : Machine :=
  m.put flagSlot (if flag then 1 else 0)

/-- Sets the index register to the low sixteen bits of a number. -/
def setIndex (m : Machine) (n : Int) : Machine :=
  { m with i := Bits.lowWord n }

/-- The index register as an address. -/
def indexAddr (m : Machine) : Int := m.i.toNat

/-- Moves the program counter on to the next instruction. -/
def advance (m : Machine) : Machine :=
  { m with pc := m.pc + opcodeSize }

/-- The value of an operand. -/
def operand (m : Machine) : Operand → Except Fault Int
  | .reg r => do return (← m.get r).toNat
  | .imm n => .ok n

end Machine

end Chip8
