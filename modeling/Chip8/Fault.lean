import Chip8.Hardware
import Chip8.Instr.Text

/-!
# Faults

Why the machine or one of its parts refuses something.  The faults that a program itself can bring
about have a text, by which a halted machine is reported; the others lie with the caller.
-/

namespace Chip8

/-- Why something was refused. -/
inductive Fault where
  /-- The word is no opcode. -/
  | undecodable (word : Int)
  /-- A call at this address found no room for the return address. -/
  | stackFull (addr : Int)
  /-- A return found no return address. -/
  | stackEmpty
  /-- The register holds the number of no key, or would be given one. -/
  | invalidKey (value : Int) (reg : Reg)
  /-- There is no glyph for the value. -/
  | noGlyph (value : Int)
  /-- A stretch of memory is not all there. -/
  | badAddress (addr length : Int)
  /-- A program has too many bytes. -/
  | oversized (length : Nat)
  /-- A key that is pressed does not exist. -/
  | noSuchKey (code : Int)
  /-- A value to be stored in memory is no byte. -/
  | notByte
  /-- A size is negative. -/
  | negativeSize
  /-- A register does not exist. -/
  | noSuchRegister
  /-- A screen has no pixels. -/
  | noPixels
deriving DecidableEq, Repr

namespace Fault

/-- The text of a fault that has one. -/
def message? : Fault → Option String
  | .undecodable word => some ("Unrecognized opcode 0x" ++ Hex.padded 4 word)
  | .stackFull addr => some ("Call stack overflow at " ++ addressText addr)
  | .stackEmpty => some "Return with empty call stack"
  | .invalidKey value reg =>
    some ("Invalid key value " ++ toString value ++ " in register " ++ reg.text)
  | .noGlyph value => some ("No glyph sprite for 0x" ++ Hex.text value)
  | .badAddress addr length =>
    some ("Memory access out of range: 0x" ++ Hex.text addr ++ " (+" ++ toString length ++ ")")
  | .oversized length =>
    some ("Cartridge is " ++ toString length ++ " bytes, at most " ++ toString maxRomSize ++ " fit")
  | .noSuchKey code => some ("Invalid key code " ++ toString code)
  | .notByte => none
  | .negativeSize => none
  | .noSuchRegister => none
  | .noPixels => none

/-- Whether the fault is one of the program that runs, rather than of the caller. -/
def isOfProgram : Fault → Bool
  | .undecodable _ => true
  | .stackFull _ => true
  | .stackEmpty => true
  | .invalidKey _ _ => true
  | .noGlyph _ => true
  | .badAddress _ _ => true
  | .oversized _ => true
  | .noSuchKey _ => false
  | .notByte => false
  | .negativeSize => false
  | .noSuchRegister => false
  | .noPixels => false

end Fault

end Chip8
