import Chip8.Instr.Basic
import Chip8.Hex

/-!
# Mnemonics

`Instr.text` writes an instruction as a line of assembly: the mnemonic, then the operands divided
by commas.  Addresses have three hexadecimal places, bytes two; the rows of a sprite are decimal.
-/

namespace Chip8

/-- The name of the register. -/
def Reg.text (r : Reg) : String :=
  "V" ++ Hex.text r.index

/-- An address as it is written. -/
def addressText (addr : Int) : String :=
  "0x" ++ Hex.padded 3 addr

/-- A byte as it is written. -/
def byteText (n : Int) : String :=
  "0x" ++ Hex.padded 2 n

/-- An operand as it is written. -/
def Operand.text : Operand → String
  | .reg r => r.text
  | .imm n => byteText n

/-- The mnemonic. -/
def BareOp.text : BareOp → String
  | .clear => "CLS"
  | .ret => "RET"

/-- What is written before the address. -/
def AddressOp.lead : AddressOp → String
  | .sys => "SYS "
  | .jump => "JP "
  | .call => "CALL "
  | .setIndex => "LD I, "
  | .jumpV0 => "JP V0, "

/-- The mnemonic. -/
def BinaryOp.text : BinaryOp → String
  | .skipEq => "SE"
  | .skipNe => "SNE"
  | .load => "LD"
  | .add => "ADD"

/-- The mnemonic. -/
def PairOp.text : PairOp → String
  | .or => "OR"
  | .and => "AND"
  | .xor => "XOR"
  | .sub => "SUB"
  | .subn => "SUBN"

/-- What is written before and after the register. -/
def SingleOp.frame : SingleOp → String × String
  | .shiftRight => ("SHR ", "")
  | .shiftLeft => ("SHL ", "")
  | .skipHeld => ("SKP ", "")
  | .skipFree => ("SKNP ", "")
  | .getDelay => ("LD ", ", DT")
  | .awaitKey => ("LD ", ", K")
  | .setDelay => ("LD DT, ", "")
  | .setSound => ("LD ST, ", "")
  | .addIndex => ("ADD I, ", "")
  | .glyph => ("LD F, ", "")
  | .decimal => ("LD B, ", "")
  | .save => ("LD [I], ", "")
  | .restore => ("LD ", ", [I]")

/-- The instruction as a line of assembly. -/
def Instr.text : Instr → String
  | .bare op => op.text
  | .address op addr => op.lead ++ addressText addr
  | .binary op x y => op.text ++ " " ++ x.text ++ ", " ++ y.text
  | .pair op x y => op.text ++ " " ++ x.text ++ ", " ++ y.text
  | .single op x => op.frame.1 ++ x.text ++ op.frame.2
  | .random x mask => "RND " ++ x.text ++ ", " ++ byteText mask
  | .draw x y rows => "DRW " ++ x.text ++ ", " ++ y.text ++ ", " ++ toString rows

end Chip8
