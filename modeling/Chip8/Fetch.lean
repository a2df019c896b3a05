import Chip8.Instr.Word
import Chip8.Memory

/-!
# Instructions in memory

An instruction is the decoding of the word at its address.  The instructions of a program are read
from memory two bytes at a time from its start; a last byte that stands alone is read together with
what follows it in memory.
-/

namespace Chip8

/-- The instruction at an address. -/
def Memory.instrAt (m : Memory) (addr : Int) : Except Fault Instr := do
  let word ← m.fetch addr
  match Instr.decode? word with
  | some i => return i
  | none => throw (.undecodable word)

/-- The instructions of a program, or the faults in their places. -/
def disassemble (rom : List UInt8) : Except Fault (List (Except Fault Instr)) := do
  let m ← Memory.ofRom rom
  return (List.range ((rom.length + 1) / opcodeSize)).map fun k =>
    m.instrAt (romBase + opcodeSize * k : Nat)

end Chip8
