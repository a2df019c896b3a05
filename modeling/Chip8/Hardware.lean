/-!
# The machine's fixed sizes

The figures that every part of the machine shares: how much memory there is and where a program
starts in it, the size of the screen and of the keypad, and the sixteen glyphs that are resident
at the bottom of memory.
-/

namespace Chip8

/-- The number of bytes of memory. -/
def memorySize : Nat := 0xFFF

/-- The address of the first byte of a program. -/
def romBase : Nat := 0x200

/-- The most bytes that a program may have: what is left of memory above `romBase`. -/
def maxRomSize : Nat := memorySize - romBase

/-- The number of bytes of an opcode. -/
def opcodeSize : Nat := 2

/-- The number of general purpose registers `V0` to `VF`. -/
abbrev registerCount : Nat := 16

/-- The most return addresses that can be saved at once. -/
def stackDepth : Nat := 16

/-- The width of the screen in pixels. -/
def screenWidth : Nat := 64

/-- The height of the screen in pixels. -/
def screenHeight : Nat := 32

/-- The number of keys. -/
abbrev keyCount : Nat := 16

/-- The number of bytes of a glyph, one for each row. -/
def glyphSize : Nat := 5

/-- The glyphs of the hexadecimal digits `0` to `F`, which lie at address 0. -/
def glyphs : Array UInt8 := #[
  0xF0, 0x90, 0x90, 0x90, 0xF0,
  0x20, 0x60, 0x20, 0x20, 0x70,
  0xF0, 0x10, 0xF0, 0x80, 0xF0,
  0xF0, 0x10, 0xF0, 0x10, 0xF0,
  0x90, 0x90, 0xF0, 0x10, 0x10,
  0xF0, 0x80, 0xF0, 0x10, 0xF0,
  0xF0, 0x80, 0xF0, 0x90, 0xF0,
  0xF0, 0x10, 0x20, 0x40, 0x40,
  0xF0, 0x90, 0xF0, 0x90, 0xF0,
  0xF0, 0x90, 0xF0, 0x10, 0xF0,
  0xF0, 0x90, 0xF0, 0x90, 0x90,
  0xE0, 0x90, 0xE0, 0x90, 0xE0,
  0xF0, 0x80, 0x80, 0x80, 0xF0,
  0xE0, 0x90, 0x90, 0x90, 0xE0,
  0xF0, 0x80, 0xF0, 0x80, 0xF0,
  0xF0, 0x80, 0xF0, 0x80, 0x80]

end Chip8
