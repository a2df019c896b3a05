import Chip8.Bits

/-!
# Instructions

An instruction is grouped by the shape of its operands: none, an address, a register with a
register or a byte, a pair of registers, or a single register.  `RND` and `DRW` have shapes of their
own.  Operands are unlimited integers; `Instr.encode` is what cuts them to the width of their field.
-/

namespace Chip8

/-- A register operand `Vn`, by its number. -/
structure Reg where
  index : Int
deriving DecidableEq, Repr

/-- An operand that is either a register, of which the value counts, or a number. -/
inductive Operand where
  | reg (r : Reg)
  | imm (n : Int)
deriving DecidableEq, Repr

/-- The instructions without operands: `CLS` and `RET`. -/
inductive BareOp where
  | clear
  | ret
deriving DecidableEq, Repr

/-- The instructions on a 12-bit address: `SYS`, a call into the host which is ignored, `JP`, `CALL`,
`LD I` and `JP V0`. -/
inductive AddressOp where
  | sys
  | jump
  | call
  | setIndex
  | jumpV0
deriving DecidableEq, Repr

/-- The instructions on a register and a register or byte: `SE` and `SNE`, which skip the next
instruction, `LD` and `ADD`. -/
inductive BinaryOp where
  | skipEq
  | skipNe
  | load
  | add
deriving DecidableEq, Repr

/-- The instructions on two registers: `OR`, `AND`, `XOR`, `SUB` and `SUBN`.  The last of them takes
the first register from the second, into the second. -/
inductive PairOp where
  | or
  | and
  | xor
  | sub
  | subn
deriving DecidableEq, Repr

/-- The instructions on one register, in this order: `SHR`, `SHL`, `SKP`, `SKNP`, `LD Vx, DT`,
`LD Vx, K`, `LD DT, Vx`, `LD ST, Vx`, `ADD I, Vx`, `LD F, Vx`, `LD B, Vx`, `LD [I], Vx` and
`LD Vx, [I]`. -/
inductive SingleOp where
  | shiftRight
  | shiftLeft
  | skipHeld
  | skipFree
  | getDelay
  | awaitKey
  | setDelay
  | setSound
  | addIndex
  | glyph
  | decimal
  | save
  | restore
deriving DecidableEq, Repr

/-- An instruction with its operands.  A random byte (`RND`) is masked, and a sprite (`DRW`) is drawn at
the position that two registers hold. -/
inductive Instr where
  | bare (op : BareOp)
  | address (op : AddressOp) (addr : Int)
  | binary (op : BinaryOp) (x : Reg) (y : Operand)
  | pair (op : PairOp) (x y : Reg)
  | single (op : SingleOp) (x : Reg)
  | random (x : Reg) (mask : Int)
  | draw (x y : Reg) (rows : Int)
deriving DecidableEq, Repr

/-- Whether the instruction sets the program counter itself, so that nothing is added to it. -/
def Instr.isJump : Instr → Bool
  | .address .jump _ => true
  | .address .jumpV0 _ => true
  | .address .call _ => true
  | _ => false

end Chip8
