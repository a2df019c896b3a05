import Chip8.Fetch
import Chip8.Machine.KeyWait

/-!
# Instructions at work

`Machine.execute` carries out an instruction: first what the instruction itself does, then the step
to the next instruction, unless it is a jump.  Whatever an instruction needs from registers, memory
or the stack is looked up before anything is changed.
-/

namespace Chip8

/-- The hundreds, tens and units of a number, rounded down. -/
def decimalDigits (n : Int) : List Int :=
  [n / 100, n / 10 % 10, n % 10]

namespace Machine

/-- Passes over the next instruction if the condition holds. -/
def skipIf (m : Machine) (condition : Bool) : Machine :=
  if condition then m.advance else m

/-! ## Flow -/

/-- Goes back to the latest call. -/
def doReturn (m : Machine) : Result := do
  let (addr, stack) ← m.attempt m.stack.pop
  return { m with pc := addr, stack, sp := stack.size }

/-- Calls a subroutine.  The address of the call itself is saved. -/
def doCall (m : Machine) (addr : Int) : Result := do
  let stack ← m.attempt (m.stack.push m.pc)
  return { m with pc := addr, stack, sp := stack.size }

/-- Carries out an instruction without operands. -/
def doBare (m : Machine) : BareOp → Result
  | .clear => .ok { m with surface := m.surface.blank }
  | .ret => m.doReturn

/-- Carries out an instruction on an address. -/
def doAddress (m : Machine) (addr : Int) : AddressOp → Result
  | .sys => .ok m
  | .jump => .ok { m with pc := addr }
  | .call => m.doCall addr
  | .setIndex => .ok (m.setIndex addr)
  | .jumpV0 => do
    let offset ← m.attempt (m.get ⟨0⟩)
    return { m with pc := addr + offset.toNat }

/-! ## Arithmetic -/

/-- Adds to a register; the flag is the carry. -/
def doAdd (m : Machine) (x : Reg) (y : Operand) : Result := do
  let a ← m.attempt (m.get x)
  let b ← m.attempt (m.operand y)
  let total := a.toNat + b
  -- The flag comes last: where the flag register is the destination, it holds the flag.
  let m ← m.set x total
  return m.setFlag (0xFF < total)

/-- Takes the value of a second register from a register; the flag says that there was no borrow. -/
def doSubtract (m : Machine) (x y : Reg) : Result := do
  let a ← m.attempt (m.get x)
  let b ← m.attempt (m.get y)
  let m ← m.set x ((a.toNat : Int) - b.toNat)
  return m.setFlag (b ≤ a)

/-- Combines two registers bit by bit, into the first. -/
def doBitwise (m : Machine) (x y : Reg) (f : UInt8 → UInt8 → UInt8) : Result := do
  let a ← m.attempt (m.get x)
  let b ← m.attempt (m.get y)
  m.set x (f a b).toNat

/-- Carries out an instruction on two registers. -/
def doPair (m : Machine) (x y : Reg) : PairOp → Result
  | .or => m.doBitwise x y (· ||| ·)
  | .and => m.doBitwise x y (· &&& ·)
  | .xor => m.doBitwise x y (· ^^^ ·)
  | .sub => m.doSubtract x y
  | .subn => m.doSubtract y x

/-- Carries out an instruction on a register and a register or byte. -/
def doBinary (m : Machine) (x : Reg) (y : Operand) : BinaryOp → Result
  | .skipEq => do
    let a ← m.attempt (m.get x)
    let b ← m.attempt (m.operand y)
    return m.skipIf ((a.toNat : Int) = b)
  | .skipNe => do
    let a ← m.attempt (m.get x)
    let b ← m.attempt (m.operand y)
    return m.skipIf ((a.toNat : Int) ≠ b)
  | .load => do
    let b ← m.attempt (m.operand y)
    m.set x b
  | .add => m.doAdd x y

/-- Halves a register; the flag is the bit that falls out. -/
def doShiftRight (m : Machine) (x : Reg) : Result := do
  let a ← m.attempt (m.get x)
  let m ← m.set x (a.toNat / 2 : Nat)
  return m.setFlag (a.toNat % 2 = 1)

/-- Doubles a register; the flag is the bit that falls out. -/
def doShiftLeft (m : Machine) (x : Reg) : Result := do
  let a ← m.attempt (m.get x)
  let m ← m.set x (2 * a.toNat : Nat)
  return m.setFlag (0x80 ≤ a)

/-- Sets a register to a random byte, of which only the bits of `mask` are kept. -/
def doRandom (m : Machine) (x : Reg) (mask : Int) : Result :=
  let byte := m.random m.drawn
  -- The byte is drawn even if the register does not exist.
  { m with drawn := m.drawn + 1 }.set x (byte &&& Bits.lowByte mask).toNat

/-! ## Keys -/

/-- The number of a key in a register. -/
def keyIn (m : Machine) (x : Reg) : Except Fault Int := do
  let value ← m.get x
  if value.toNat < keyCount then return value.toNat
  throw (.invalidKey value.toNat x)

/-- Passes over the next instruction if the key in a register is held, or if it is not. -/
def doSkipKey (m : Machine) (x : Reg) (held : Bool) : Result := do
  let key ← m.attempt (m.keyIn x)
  return m.skipIf (m.surface.keyHeld key = held)

/-- Waits for a key and sets a register to its number.  A wait that is ended by the closing of the
surface sets nothing. -/
def doAwaitKey (m : Machine) (x : Reg) : Result :=
  -- A press from before the wait does not count, but a key that is still held does.
  let wait := m.surface.clearPress.awaitKey m.stray m.script
  let m := { m with surface := wait.surface, script := wait.script }
  match wait.ending with
  | .closed => .ok m
  | .fault f => .error (f, m)
  | .key code => if (key? code).isSome then m.set x code else .error (.invalidKey code x, m)

/-! ## Memory -/

/-- Points the index register at the glyph of the digit in a register. -/
def doGlyph (m : Machine) (x : Reg) : Result := do
  let value ← m.attempt (m.get x)
  if 0xF < value then throw (.noGlyph value.toNat, m)
  return m.setIndex (value.toNat * glyphSize : Nat)

/-- Stores the decimal digits of a register. -/
def doDecimal (m : Machine) (x : Reg) : Result := do
  let value ← m.attempt (m.get x)
  let memory ← m.attempt (m.memory.writeNumbers m.indexAddr (decimalDigits value.toNat))
  return { m with memory }

/-- Stores the registers up to one that is given. -/
def doSave (m : Machine) (x : Reg) : Result := do
  -- A register number beyond the last stands for all registers.
  let values := m.v.toList.take (Bits.place registerCount (x.index + 1))
  let memory ← m.attempt (m.memory.write m.indexAddr values)
  return { m with memory }

/-- Sets the registers from one that is given on, up to the last that exists. -/
def setAll (m : Machine) (n : Nat) : List UInt8 → Result
  | [] => .ok m
  | value :: values => do
    let m ← m.set ⟨n⟩ value.toNat
    m.setAll (n + 1) values

/-- Loads the registers up to one that is given. -/
def doRestore (m : Machine) (x : Reg) : Result := do
  let values ← m.attempt (m.memory.read m.indexAddr (x.index + 1))
  m.setAll 0 values

/-- Draws a sprite from memory and publishes the picture; the flag says whether a lit pixel became
dark. -/
def doDraw (m : Machine) (x y : Reg) (rows : Int) : Result := do
  let sprite ← m.attempt (m.memory.read m.indexAddr rows)
  let left ← m.attempt (m.get x)
  let top ← m.attempt (m.get y)
  let (display, collision) ← m.attempt (m.surface.display.draw left.toNat top.toNat sprite)
  let m := { m with surface := { m.surface with display := display.publish } }
  return m.setFlag collision

/-! ## All instructions -/

/-- Carries out an instruction on one register. -/
def doSingle (m : Machine) (x : Reg) : SingleOp → Result
  | .shiftRight => m.doShiftRight x
  | .shiftLeft => m.doShiftLeft x
  | .skipHeld => m.doSkipKey x true
  | .skipFree => m.doSkipKey x false
  | .getDelay => m.set x m.delay.value.toNat
  | .awaitKey => m.doAwaitKey x
  | .setDelay => do
    let value ← m.attempt (m.get x)
    return { m with delay := m.delay.set value.toNat }
  | .setSound => do
    let value ← m.attempt (m.get x)
    return { m with sound := m.sound.set value.toNat }
  | .addIndex => do
    let value ← m.attempt (m.get x)
    return m.setIndex (m.i.toNat + value.toNat : Nat)
  | .glyph => m.doGlyph x
  | .decimal => m.doDecimal x
  | .save => m.doSave x
  | .restore => m.doRestore x

/-- What an instruction itself does. -/
def perform (m : Machine) : Instr → Result
  | .bare op => m.doBare op
  | .address op addr => m.doAddress addr op
  | .binary op x y => m.doBinary x y op
  | .pair op x y => m.doPair x y op
  | .single op x => m.doSingle x op
  | .random x mask => m.doRandom x mask
  | .draw x y rows => m.doDraw x y rows

/-- Carries out an instruction, and goes on to the next unless it is a jump. -/
def execute (m : Machine) (instr : Instr) : Result := do
  let m ← m.perform instr
  return if instr.isJump then m else m.advance

end Machine

end Chip8
