import Chip8.Proofs.Machine.Footprint

/-!
# Arithmetic with a flag

The instructions that add, subtract and shift leave a byte in a register and a bit in the flag
register.  Over the integers each of them is an equation between these two and what the source
registers held before, and the equation has no other solution (`Determines`).  Where the flag register
is itself the destination the byte is lost and the bit is kept.  Nothing is asked of the registers: they
may all be the same, or be the flag register.
-/

namespace Chip8

/-- An equation has exactly one solution that consists of a byte and a bit. -/
structure Determines (equation : Int → Int → Prop) (value flag : Int) : Prop where
  value_bounds : 0 ≤ value ∧ value ≤ 0xFF
  flag_bit : flag = 0 ∨ flag = 1
  holds : equation value flag
  unique : ∀ byte bit : Int, 0 ≤ byte ∧ byte ≤ 0xFF → bit = 0 ∨ bit = 1 → equation byte bit →
    byte = value ∧ bit = flag

namespace Machine

/-- The machine carries out the instruction and goes on to the next.  The destination and the flag
register get the solution of the equation, of which the flag comes last, and nothing else changes. -/
def Computes (m : Machine) (i : Instr) (d : Fin registerCount)
    (equation : Int → Int → Prop) : Prop :=
  ∃ next value flag, m.execute i = .ok next ∧ next.pc = m.pc + 2 ∧
    AgreesOff {.register d, .register flagSlot, .counter} m next ∧
    Determines equation value flag ∧
    (d ≠ flagSlot → ((next.v.get d).toNat : Int) = value) ∧
    ((next.v.get flagSlot).toNat : Int) = flag

/-- The machine carries out the instruction and goes on to the next.  Each bit of the destination comes
from the bits of two bytes in the same place, and nothing else changes, the flag register included if
it is not the destination. -/
def Combines (m : Machine) (i : Instr) (d : Fin registerCount) (a b : UInt8)
    (f : Bool → Bool → Bool) : Prop :=
  ∃ next, m.execute i = .ok next ∧ next.pc = m.pc + 2 ∧
    AgreesOff {.register d, .counter} m next ∧
    ∀ n : Nat, (next.v.get d).toNat.testBit n = f (a.toNat.testBit n) (b.toNat.testBit n)

variable {m : Machine} {i : Instr} {d j k : Fin registerCount}

/-! ## Registers after a write -/

/-- The flag comes last, so the flag register holds it whatever was the destination. -/
theorem get_setFlag_flagSlot (m : Machine) (flag : Bool) :
    (((m.setFlag flag).v.get flagSlot).toNat : Int) = flag.toNat := by
  rw [setFlag, get_put_self]
  cases flag <;> rfl

/-- An instruction that stores a number and then a flag computes what the two are a solution of. -/
theorem computes_of_perform {n : Int} {flag : Bool} {equation : Int → Int → Prop}
    (hPerform : m.perform i = .ok ((m.put d (Bits.lowByte n)).setFlag flag))
    (hJump : i.isJump = false)
    (h : Determines equation (n % 0x100) flag.toNat) : m.Computes i d equation := by
  have hExecute : m.execute i = .ok ((m.put d (Bits.lowByte n)).setFlag flag).advance := by
    rw [execute_of_not_isJump hJump, hPerform, ok_bind]
  refine ⟨_, _, _, hExecute, rfl, ?_, h, fun hOther => ?_, get_setFlag_flagSlot _ flag⟩
  · have hStored := (agreesOff_put m d (Bits.lowByte n)).trans (agreesOff_setFlag _ flag)
    refine (hStored.trans (agreesOff_withPc _ _)).mono ?_
    rintro p ((hp | hp) | hp)
    · exact .inl hp
    · exact .inr (.inl hp)
    · exact .inr (.inr hp)
  · show ((((m.put d (Bits.lowByte n)).setFlag flag).v.get d).toNat : Int) = n % 0x100
    rw [setFlag, get_put_of_ne _ hOther, get_put_self, Bits.toNat_lowByte]

/-! ## The equations -/

/-- A flag that tells whether a bit is set is worth the bit. -/
theorem toNat_eq_bit {flag : Bool} {bit : Int} (hBit : bit = 0 ∨ bit = 1)
    (hFlag : flag = true ↔ bit = 1) : (flag.toNat : Int) = bit := by
  cases flag with
  | true => exact (hFlag.1 rfl).symm
  | false =>
      have hClear : bit ≠ 1 := fun hSet => Bool.noConfusion (hFlag.2 hSet)
      exact (hBit.resolve_right hClear).symm

/-- Where the flag is worth as much as the byte has values, the byte is the rest of a number and the
flag what is carried. -/
theorem determines_of_carry {n : Int} {flag : Bool} {equation : Int → Int → Prop}
    (hLow : 0 ≤ n) (hHigh : n ≤ 0x1FF) (hFlag : flag = true ↔ 0x100 ≤ n)
    (hEquation : ∀ value carry, equation value carry ↔ value + 0x100 * carry = n) :
    Determines equation (n % 0x100) flag.toNat := by
  have hCarry : (flag.toNat : Int) = n / 0x100 := by
    refine toNat_eq_bit (by omega) ?_
    rw [hFlag]
    omega
  refine ⟨by omega, by omega, (hEquation _ _).2 (by omega), fun byte bit hByte hBit hHolds => ?_⟩
  have hSum := (hEquation byte bit).1 hHolds
  omega

/-- A byte is halved to a byte and what is left. -/
theorem determines_half {a : Int} {flag : Bool} (hLow : 0 ≤ a) (hHigh : a ≤ 0xFF)
    (hFlag : flag = true ↔ a % 2 = 1) :
    Determines (fun value rest => 2 * value + rest = a) (a / 2) flag.toNat := by
  have hRest : (flag.toNat : Int) = a % 2 := toNat_eq_bit (by omega) hFlag
  refine ⟨by omega, by omega, ?_, fun byte bit hByte hBit hHolds => ?_⟩
  · show 2 * (a / 2) + flag.toNat = a
    omega
  · have hSum : 2 * byte + bit = a := hHolds
    omega

/-! ## The instructions -/

/-- A register and a number of a byte are added. -/
theorem computes_add (m : Machine) (j : Fin registerCount) {y : Operand} {b : Int}
    (hy : m.operand y = .ok b) (hLow : 0 ≤ b) (hHigh : b ≤ 0xFF) :
    m.Computes (.binary .add (Reg.ofSlot j) y) j
      fun value carry => value + 0x100 * carry = (m.v.get j).toNat + b := by
  have hByte := (m.v.get j).toNat_lt
  have hPerform : m.perform (.binary .add (Reg.ofSlot j) y) =
      .ok ((m.put j (Bits.lowByte ((m.v.get j).toNat + b))).setFlag
        (decide (0xFF < (m.v.get j).toNat + b))) := by
    simp only [perform, doBinary, doAdd, get_ofSlot, hy, attempt, ok_bind, set_ofSlot]
    rfl
  refine computes_of_perform hPerform rfl (determines_of_carry (by omega) (by omega) ?_ ?_)
  · rw [decide_eq_true_iff]
    omega
  · exact fun value carry => Iff.rfl

/-- One register is taken from another. -/
theorem computes_subtract (m : Machine) (j k : Fin registerCount)
    (hPerform : m.perform i = m.doSubtract (Reg.ofSlot j) (Reg.ofSlot k))
    (hJump : i.isJump = false) :
    m.Computes i j fun value carry =>
      value = (m.v.get j).toNat - (m.v.get k).toNat + 0x100 * (1 - carry) := by
  have hj := (m.v.get j).toNat_lt
  have hk := (m.v.get k).toNat_lt
  have hStored : m.perform i =
      .ok ((m.put j (Bits.lowByte ((m.v.get j).toNat - (m.v.get k).toNat))).setFlag
        (decide (m.v.get k ≤ m.v.get j))) := by
    rw [hPerform]
    simp only [doSubtract, get_ofSlot, attempt, ok_bind, set_ofSlot]
    rfl
  refine computes_of_perform hStored hJump ?_
  rw [← Int.add_emod_right]
  refine determines_of_carry (by omega) (by omega) ?_ ?_
  · rw [decide_eq_true_iff, UInt8.le_iff_toNat_le]
    omega
  · intro value carry
    omega

theorem computes_shiftRight (m : Machine) (j : Fin registerCount) :
    m.Computes (.single .shiftRight (Reg.ofSlot j)) j
      fun value out => 2 * value + out = (m.v.get j).toNat := by
  have hByte := (m.v.get j).toNat_lt
  have hPerform : m.perform (.single .shiftRight (Reg.ofSlot j)) =
      .ok ((m.put j (Bits.lowByte ((m.v.get j).toNat / 2 : Nat))).setFlag
        (decide ((m.v.get j).toNat % 2 = 1))) := by
    simp only [perform, doSingle, doShiftRight, get_ofSlot, attempt, ok_bind, set_ofSlot]
    rfl
  refine computes_of_perform hPerform rfl ?_
  have hHalf : (((m.v.get j).toNat / 2 : Nat) : Int) % 0x100 = (m.v.get j).toNat / 2 := by omega
  rw [hHalf]
  refine determines_half (by omega) (by omega) ?_
  rw [decide_eq_true_iff]
  omega

theorem computes_shiftLeft (m : Machine) (j : Fin registerCount) :
    m.Computes (.single .shiftLeft (Reg.ofSlot j)) j
      fun value out => value + 0x100 * out = 2 * (m.v.get j).toNat := by
  have hByte := (m.v.get j).toNat_lt
  have hPerform : m.perform (.single .shiftLeft (Reg.ofSlot j)) =
      .ok ((m.put j (Bits.lowByte (2 * (m.v.get j).toNat : Nat))).setFlag
        (decide (0x80 ≤ m.v.get j))) := by
    simp only [perform, doSingle, doShiftLeft, get_ofSlot, attempt, ok_bind, set_ofSlot]
    rfl
  refine computes_of_perform hPerform rfl (determines_of_carry (by omega) (by omega) ?_ ?_)
  · have hHalf : (0x80 : UInt8).toNat = 0x80 := rfl
    rw [decide_eq_true_iff, UInt8.le_iff_toNat_le]
    omega
  · intro value out
    omega

/-- Two registers are combined bit by bit. -/
theorem combines_of_perform {f : UInt8 → UInt8 → UInt8} {g : Bool → Bool → Bool}
    (m : Machine) (j k : Fin registerCount)
    (hPerform : m.perform i = m.doBitwise (Reg.ofSlot j) (Reg.ofSlot k) f)
    (hJump : i.isJump = false)
    (hBits : ∀ a b n, (f a b).toNat.testBit n = g (a.toNat.testBit n) (b.toNat.testBit n)) :
    m.Combines i j (m.v.get j) (m.v.get k) g := by
  have hExecute : m.execute i = .ok (m.put j (f (m.v.get j) (m.v.get k))).advance := by
    rw [execute_of_not_isJump hJump, hPerform]
    simp only [doBitwise, get_ofSlot, attempt, ok_bind, set_ofSlot, Bits.lowByte_toNat]
  refine ⟨_, hExecute, rfl, (agreesOff_put m j _).trans (agreesOff_withPc _ _), fun n => ?_⟩
  show ((m.put j _).v.get j).toNat.testBit n = _
  rw [get_put_self, hBits]

/-- The instructions of arithmetic at work, whatever the registers are, the same one twice and the flag
register included.  Each of them is told by what its source registers held before.  Adding to a
register, from a register or a byte, leaves the sum and the carry; taking one register from another
leaves the difference and a flag that says that there was no borrow; halving and doubling leave the
byte and the bit that falls out.  The bitwise instructions leave their result and have no flag. -/
theorem execute_arithmetic (m : Machine) (j k : Fin registerCount) (byte : UInt8) :
    let a := (m.v.get j).toNat
    let b := (m.v.get k).toNat
    m.Computes (.binary .add (Reg.ofSlot j) (.reg (Reg.ofSlot k))) j
        (fun value carry => value + 256 * carry = a + b) ∧
      m.Computes (.binary .add (Reg.ofSlot j) (.imm byte.toNat)) j
        (fun value carry => value + 256 * carry = a + byte.toNat) ∧
      m.Computes (.pair .sub (Reg.ofSlot j) (Reg.ofSlot k)) j
        (fun value flag => value = a - b + 256 * (1 - flag)) ∧
      m.Computes (.pair .subn (Reg.ofSlot j) (Reg.ofSlot k)) k
        (fun value flag => value = b - a + 256 * (1 - flag)) ∧
      m.Computes (.single .shiftRight (Reg.ofSlot j)) j
        (fun value out => 2 * value + out = a) ∧
      m.Computes (.single .shiftLeft (Reg.ofSlot j)) j
        (fun value out => value + 256 * out = 2 * a) ∧
      m.Combines (.pair .or (Reg.ofSlot j) (Reg.ofSlot k)) j (m.v.get j) (m.v.get k) or ∧
      m.Combines (.pair .and (Reg.ofSlot j) (Reg.ofSlot k)) j (m.v.get j) (m.v.get k) and ∧
      m.Combines (.pair .xor (Reg.ofSlot j) (Reg.ofSlot k)) j (m.v.get j) (m.v.get k) xor := by
  have hReg : m.operand (.reg (Reg.ofSlot k)) = .ok ((m.v.get k).toNat : Int) := by
    rw [operand, get_ofSlot]
    rfl
  have hSecond := (m.v.get k).toNat_lt
  have hByte := byte.toNat_lt
  refine ⟨computes_add m j hReg (by omega) (by omega), computes_add m j rfl (by omega) (by omega),
    computes_subtract m j k rfl rfl, computes_subtract m k j rfl rfl, computes_shiftRight m j,
    computes_shiftLeft m j, combines_of_perform m j k rfl rfl ?_,
    combines_of_perform m j k rfl rfl ?_, combines_of_perform m j k rfl rfl ?_⟩
  · intro a b n
    rw [UInt8.toNat_or, Nat.testBit_or]
  · intro a b n
    rw [UInt8.toNat_and, Nat.testBit_and]
  · intro a b n
    rw [UInt8.toNat_xor, Nat.testBit_xor]

end Machine

end Chip8
