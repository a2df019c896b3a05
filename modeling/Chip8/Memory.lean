import Chip8.Bits
import Chip8.Fault

/-!
# Memory

Memory is a run of bytes with the glyphs of the hexadecimal digits at its start.  Reading and
writing are refused, and change nothing, unless the whole stretch lies in memory.  Putting the
glyphs or a program in place asks for no such thing: the bytes replace what is there, and a memory
that is too short is extended.
-/

namespace Chip8

/-- A memory. -/
structure Memory where
  /-- The bytes, from address 0 on. -/
  bytes : Array UInt8
deriving DecidableEq, Repr

namespace Memory

/-- The number of bytes. -/
def size (m : Memory) : Nat := m.bytes.size

/-- The byte at an address, or 0 beyond the end. -/
def byteAt (m : Memory) (a : Nat) : UInt8 := m.bytes.getD a 0

/-- Puts `data` in the place of as many bytes from `start` on.  What lies beyond the end counts as
empty. -/
def replace (m : Memory) (start : Nat) (data : List UInt8) : Memory where
  bytes := m.bytes.extract 0 start ++ data.toArray ++ m.bytes.extract (start + data.length)

theorem size_replace_eq (m : Memory) (start : Nat) (data : List UInt8) :
    (m.replace start data).size = max m.size (min start m.size + data.length) := by
  simp only [size, replace, Array.size_append, Array.size_extract, List.size_toArray]
  omega

/-- The bytes are found from `start` on, or from the end of a shorter memory on, and all others are
what they were. -/
theorem byteAt_replace_eq (m : Memory) (start : Nat) (data : List UInt8) (a : Nat) :
    (m.replace start data).byteAt a =
      if min start m.size ≤ a ∧ a < min start m.size + data.length then
        data.getD (a - min start m.size) 0
      else m.byteAt a := by
  simp only [byteAt, replace, size, Array.getD_eq_getD_getElem?, Array.getElem?_append,
    Array.size_append, Array.size_extract, Array.getElem?_extract, List.size_toArray,
    List.getElem?_toArray, List.getD_eq_getElem?_getD, Nat.sub_zero, Nat.zero_add]
  by_cases hBefore : a < min start m.bytes.size
  · simp [hBefore, show a < min start m.bytes.size + data.length by omega,
      show ¬min start m.bytes.size ≤ a by omega]
  · by_cases hInside : a < min start m.bytes.size + data.length
    · simp [hBefore, hInside, show min start m.bytes.size ≤ a by omega]
    · simp only [hInside, ↓reduceIte, and_false]
      split
      · next hLater =>
        have hPlace : start + data.length + (a - (min start m.bytes.size + data.length)) = a := by
          omega
        rw [hPlace]
      · next hEnd =>
        rw [Array.getElem?_eq_none (by omega)]

/-- Bytes that fit leave the size as it is. -/
theorem size_replace {m : Memory} {start : Nat} {data : List UInt8}
    (h : start + data.length ≤ m.size) : (m.replace start data).size = m.size := by
  rw [size_replace_eq]
  omega

/-- Bytes that fit are found in their place, and all others are what they were. -/
theorem byteAt_replace {m : Memory} {start : Nat} {data : List UInt8}
    (h : start + data.length ≤ m.size) (a : Nat) :
    (m.replace start data).byteAt a =
      if start ≤ a ∧ a < start + data.length then data.getD (a - start) 0 else m.byteAt a := by
  have hStart : min start m.size = start := by omega
  rw [byteAt_replace_eq, hStart]

/-- A memory of `size` zero bytes, and then the glyphs in their place. -/
def ofSize (size : Nat) : Memory :=
  replace ⟨Array.replicate size 0⟩ 0 glyphs.toList

/-- A memory of a size that may be negative, which is refused. -/
def ofSize? (size : Int) : Except Fault Memory :=
  if size < 0 then .error .negativeSize else .ok (ofSize size.toNat)

/-- Whether the stretch of `length` bytes at `addr` begins in no negative place and ends in
memory. -/
def Covers (m : Memory) (addr length : Int) : Prop :=
  0 ≤ addr ∧ addr + length ≤ m.size

instance (m : Memory) (addr length : Int) : Decidable (m.Covers addr length) :=
  inferInstanceAs (Decidable (_ ∧ _))

/-- Refuses a stretch that memory does not cover. -/
def check (m : Memory) (addr length : Int) : Except Fault Unit :=
  if m.Covers addr length then .ok () else .error (.badAddress addr length)

/-- The bytes of a stretch.  A stretch of negative length goes on to the place that its negative end
denotes, counted from the end of memory. -/
def read (m : Memory) (addr length : Int) : Except Fault (List UInt8) := do
  m.check addr length
  return (m.bytes.extract addr.toNat (Bits.place m.size (addr + length))).toList

/-- Writes bytes. -/
def write (m : Memory) (addr : Int) (data : List UInt8) : Except Fault Memory := do
  m.check addr data.length
  return m.replace addr.toNat data

/-- Writes numbers, which have to be bytes. -/
def writeNumbers (m : Memory) (addr : Int) (numbers : List Int) : Except Fault Memory := do
  m.check addr numbers.length
  match numbers.mapM Bits.byte? with
  | some data => return m.replace addr.toNat data
  | none => throw .notByte

/-- The word at an address, high byte first. -/
def fetch (m : Memory) (addr : Int) : Except Fault Nat := do
  m.check addr opcodeSize
  return 0x100 * (m.byteAt addr.toNat).toNat + (m.byteAt (addr.toNat + 1)).toNat

/-- Puts a program in its place. -/
def load (m : Memory) (rom : List UInt8) : Except Fault Memory :=
  if maxRomSize < rom.length then .error (.oversized rom.length)
  else .ok (m.replace romBase rom)

/-- A memory of the usual size that holds a program. -/
def ofRom (rom : List UInt8) : Except Fault Memory :=
  (ofSize memorySize).load rom

end Memory

end Chip8
