/-!
# Bits and bytes of integers

An opcode is put together from a fixed pattern and its operands with a bitwise "or".  Operands may
be any integers, so the operation is that of two's complement numbers of unlimited width: a
negative number has ones in all high places.  A register keeps the low eight or sixteen bits of what
is stored in it, which are the remainder by 256 or 65536, negative numbers included.
-/

namespace Chip8.Bits

/-- The bitwise "or" of two integers.  A negative number is the complement of a natural number,
and a place of an "or" is zero exactly when it is zero on both sides. -/
def or : Int → Int → Int
  | .ofNat a, .ofNat b => .ofNat (a ||| b)
  | .ofNat a, .negSucc b => .negSucc (b - (b &&& a))
  | .negSucc a, .ofNat b => .negSucc (a - (a &&& b))
  | .negSucc a, .negSucc b => .negSucc (a &&& b)

@[simp] theorem or_natCast (a b : Nat) : or (a : Int) (b : Int) = ((a ||| b : Nat) : Int) := rfl

/-- The low eight bits. -/
def lowByte (n : Int) : UInt8 :=
  UInt8.ofNat (n % 0x100).toNat

/-- The low sixteen bits. -/
def lowWord (n : Int) : UInt16 :=
  UInt16.ofNat (n % 0x10000).toNat

/-- The number as a byte, if it is one. -/
def byte? (n : Int) : Option UInt8 :=
  if 0 ≤ n ∧ n ≤ 0xFF then some (UInt8.ofNat n.toNat) else none

@[simp] theorem toNat_lowByte (n : Int) : ((lowByte n).toNat : Int) = n % 0x100 := by
  simp only [lowByte, UInt8.toNat_ofNat']
  omega

@[simp] theorem toNat_lowWord (n : Int) : ((lowWord n).toNat : Int) = n % 0x10000 := by
  simp only [lowWord, UInt16.toNat_ofNat']
  omega

@[simp] theorem lowByte_toNat (b : UInt8) : lowByte b.toNat = b := by
  apply UInt8.toNat_inj.1
  have := toNat_lowByte b.toNat
  have := b.toNat_lt
  omega

theorem byte?_eq_some_iff {n : Int} {b : UInt8} : byte? n = some b ↔ n = b.toNat := by
  unfold byte?
  have hb := b.toNat_lt
  constructor
  · intro h
    split at h
    · cases h
      simp only [UInt8.toNat_ofNat']
      omega
    · cases h
  · rintro rfl
    simp only [Int.toNat_natCast, UInt8.ofNat_toNat]
    rw [if_pos (by omega)]

/-- The place of an index in a sequence of `length` elements, where a negative index counts from the
end.  The place is 0 if the index lies before the start. -/
def place (length : Nat) (index : Int) : Nat :=
  if index < 0 then (index + length).toNat else index.toNat

end Chip8.Bits
