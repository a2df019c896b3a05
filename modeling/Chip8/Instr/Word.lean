import Chip8.Instr.Basic

/-!
# Opcode words

`Instr.encode` gives the opcode word of an instruction and `Instr.decode?` the instruction of a
word.  A word is read as four hexadecimal fields: the family, `x`, `y` and the low nibble; the last
two together are the byte, the last three the address.
-/

namespace Chip8

/-! ## Fields of a word -/

namespace Word

/-- What stands above the low twelve bits; for a 16-bit word its highest nibble. -/
def family (w : Int) : Int := w / 0x1000

/-- The low twelve bits. -/
def address (w : Int) : Int := w % 0x1000

/-- The register numbered by the second nibble from the top. -/
def x (w : Int) : Reg := ⟨w / 0x100 % 0x10⟩

/-- The register numbered by the third nibble from the top. -/
def y (w : Int) : Reg := ⟨w / 0x10 % 0x10⟩

/-- The lowest nibble. -/
def nibble (w : Int) : Int := w % 0x10

/-- The low byte. -/
def byte (w : Int) : Int := w % 0x100

end Word

/-! ## Patterns of the operations -/

/-- The opcode of the operation. -/
def BareOp.code : BareOp → Nat
  | .clear => 0x00E0
  | .ret => 0x00EE

/-- The opcode of the operation with address 0. -/
def AddressOp.code : AddressOp → Nat
  | .sys => 0x0000
  | .jump => 0x1000
  | .call => 0x2000
  | .setIndex => 0xA000
  | .jumpV0 => 0xB000

/-- The opcode of the operation on `V0` and the byte 0. -/
def BinaryOp.immCode : BinaryOp → Nat
  | .skipEq => 0x3000
  | .skipNe => 0x4000
  | .load => 0x6000
  | .add => 0x7000

/-- The opcode of the operation on `V0` and `V0`. -/
def BinaryOp.regCode : BinaryOp → Nat
  | .skipEq => 0x5000
  | .skipNe => 0x9000
  | .load => 0x8000
  | .add => 0x8004

/-- The opcode of the operation on `V0` and `V0`. -/
def PairOp.code : PairOp → Nat
  | .or => 0x8001
  | .and => 0x8002
  | .xor => 0x8003
  | .sub => 0x8005
  | .subn => 0x8007

/-- The opcode of the operation on `V0`. -/
def SingleOp.code : SingleOp → Nat
  | .shiftRight => 0x8006
  | .shiftLeft => 0x800E
  | .skipHeld => 0xE09E
  | .skipFree => 0xE0A1
  | .getDelay => 0xF007
  | .awaitKey => 0xF00A
  | .setDelay => 0xF015
  | .setSound => 0xF018
  | .addIndex => 0xF01E
  | .glyph => 0xF029
  | .decimal => 0xF033
  | .save => 0xF055
  | .restore => 0xF065

/-- The opcode of `RND V0, 0`. -/
def randomCode : Nat := 0xC000

/-- The opcode of `DRW V0, V0, 0`. -/
def drawCode : Nat := 0xD000

/-! ## Encoding -/

/-- The number of the register in the place of `x`. -/
def Reg.high (r : Reg) : Int := r.index * 0x100

/-- The number of the register in the place of `y`. -/
def Reg.low (r : Reg) : Int := r.index * 0x10

/-- The word of an instruction on an address, of which the low twelve bits count. -/
def AddressOp.word (op : AddressOp) (addr : Int) : Nat :=
  op.code ||| (addr % 0x1000).toNat

/-- The opcode word of an instruction.  Addresses, bytes and nibbles are cut to their width;
register numbers are not, so a number above 15 spills into the neighbouring fields. -/
def Instr.encode : Instr → Int
  | .bare op => op.code
  | .address op addr => op.word addr
  | .binary op x (.reg y) => Bits.or (Bits.or op.regCode x.high) y.low
  | .binary op x (.imm n) => Bits.or (Bits.or op.immCode x.high) (n % 0x100)
  | .pair op x y => Bits.or (Bits.or op.code x.high) y.low
  | .single op x => Bits.or op.code x.high
  | .random x mask => Bits.or (Bits.or randomCode x.high) (mask % 0x100)
  | .draw x y rows => Bits.or (Bits.or (Bits.or drawCode x.high) y.low) (rows % 0x10)

/-! ## Decoding -/

/-- The instruction of family 0. -/
def Instr.ofSystem (w : Int) : Instr :=
  if w = 0x00E0 then .bare .clear
  else if w = 0x00EE then .bare .ret
  else .address .sys (Word.address w)

/-- The instruction of family 8, selected by the low nibble. -/
def Instr.ofArithmetic? (w : Int) : Option Instr :=
  match (Word.nibble w).toNat with
  | 0x0 => some (.binary .load (Word.x w) (.reg (Word.y w)))
  | 0x1 => some (.pair .or (Word.x w) (Word.y w))
  | 0x2 => some (.pair .and (Word.x w) (Word.y w))
  | 0x3 => some (.pair .xor (Word.x w) (Word.y w))
  | 0x4 => some (.binary .add (Word.x w) (.reg (Word.y w)))
  | 0x5 => some (.pair .sub (Word.x w) (Word.y w))
  | 0x6 => some (.single .shiftRight (Word.x w))
  | 0x7 => some (.pair .subn (Word.x w) (Word.y w))
  | 0xE => some (.single .shiftLeft (Word.x w))
  | _ => none

/-- The instruction of family E, selected by the low byte. -/
def Instr.ofKeys? (w : Int) : Option Instr :=
  match (Word.byte w).toNat with
  | 0x9E => some (.single .skipHeld (Word.x w))
  | 0xA1 => some (.single .skipFree (Word.x w))
  | _ => none

/-- The instruction of family F, selected by the low byte. -/
def Instr.ofMisc? (w : Int) : Option Instr :=
  match (Word.byte w).toNat with
  | 0x07 => some (.single .getDelay (Word.x w))
  | 0x0A => some (.single .awaitKey (Word.x w))
  | 0x15 => some (.single .setDelay (Word.x w))
  | 0x18 => some (.single .setSound (Word.x w))
  | 0x1E => some (.single .addIndex (Word.x w))
  | 0x29 => some (.single .glyph (Word.x w))
  | 0x33 => some (.single .decimal (Word.x w))
  | 0x55 => some (.single .save (Word.x w))
  | 0x65 => some (.single .restore (Word.x w))
  | _ => none

/-- The instruction of an opcode word, if it has one.  A number that is no 16-bit word has none. -/
def Instr.decode? (w : Int) : Option Instr :=
  if 0 ≤ w ∧ w ≤ 0xFFFF then
    match (Word.family w).toNat with
    | 0x0 => some (.ofSystem w)
    | 0x1 => some (.address .jump (Word.address w))
    | 0x2 => some (.address .call (Word.address w))
    | 0x3 => some (.binary .skipEq (Word.x w) (.imm (Word.byte w)))
    | 0x4 => some (.binary .skipNe (Word.x w) (.imm (Word.byte w)))
    -- The low nibble is not looked at, here and in family 9.
    | 0x5 => some (.binary .skipEq (Word.x w) (.reg (Word.y w)))
    | 0x6 => some (.binary .load (Word.x w) (.imm (Word.byte w)))
    | 0x7 => some (.binary .add (Word.x w) (.imm (Word.byte w)))
    | 0x8 => ofArithmetic? w
    | 0x9 => some (.binary .skipNe (Word.x w) (.reg (Word.y w)))
    | 0xA => some (.address .setIndex (Word.address w))
    | 0xB => some (.address .jumpV0 (Word.address w))
    | 0xC => some (.random (Word.x w) (Word.byte w))
    | 0xD => some (.draw (Word.x w) (Word.y w) (Word.nibble w))
    | 0xE => ofKeys? w
    -- Of a 16-bit word only family F is left.
    | _ => ofMisc? w
  else none

end Chip8
