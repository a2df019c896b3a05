import Chip8.Instr.Basic

/-!
# Statements

What a source consists of: label definitions, instructions, instructions that refer to a label,
data, and lines that are none of these.
-/

namespace Chip8.Assembly

/-- A statement of a source. -/
inductive Statement where
  /-- The definition of a label at the current address. -/
  | label (name : String)
  /-- An instruction all of whose operands are known. -/
  | instr (i : Instr)
  /-- An instruction on the address of a label. -/
  | ref (op : AddressOp) (label : String)
  /-- A list of bytes. -/
  | bytes (values : List Int)
  /-- A list of 16-bit words. -/
  | words (values : List Int)
  /-- A line that begins with no known statement. -/
  | unknown (line : String)
deriving DecidableEq, Repr

end Chip8.Assembly
