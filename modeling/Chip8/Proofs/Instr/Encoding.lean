import Chip8.Proofs.Instr.Operands

/-!
# The words of instructions that fit

The parts of an opcode word lie in different places, so putting them together with "or" is adding
them.  From this it follows that the word of an instruction on an address decodes to that very
instruction, with one exception: `SYS` at the two addresses whose words are `CLS` and `RET`.
-/

namespace Chip8

/-- The code of an operation on an address is a family above twelve zero bits. -/
theorem AddressOp.exists_family (op : AddressOp) :
    ∃ family, op.code = family <<< 12 ∧ family ≤ 0xB := by
  cases op with
  | sys => exact ⟨0x0, rfl, by decide⟩
  | jump => exact ⟨0x1, rfl, by decide⟩
  | call => exact ⟨0x2, rfl, by decide⟩
  | setIndex => exact ⟨0xA, rfl, by decide⟩
  | jumpV0 => exact ⟨0xB, rfl, by decide⟩

/-- The word is the code plus the low twelve bits of the address. -/
theorem AddressOp.word_eq_add (op : AddressOp) (addr : Int) :
    op.word addr = op.code + (addr % 0x1000).toNat := by
  have hLow : (addr % 0x1000).toNat < 2 ^ 12 := by omega
  obtain ⟨family, hCode, -⟩ := op.exists_family
  rw [AddressOp.word, hCode, Nat.shiftLeft_add_eq_or_of_lt hLow]

theorem AddressOp.word_lt (op : AddressOp) (addr : Int) : op.word addr < 0x10000 := by
  obtain ⟨family, hCode, hFamily⟩ := op.exists_family
  rw [AddressOp.word_eq_add, hCode, Nat.shiftLeft_eq]
  omega

/-! ## The way back -/

theorem Word.family_add {code : Nat} {family addr : Int} (hCode : (code : Int) = 0x1000 * family)
    (hLow : 0 ≤ addr) (hHigh : addr ≤ 0xFFF) : Word.family (code + addr) = family := by
  unfold Word.family
  omega

theorem Word.address_add {code : Nat} {family addr : Int} (hCode : (code : Int) = 0x1000 * family)
    (hLow : 0 ≤ addr) (hHigh : addr ≤ 0xFFF) : Word.address (code + addr) = addr := by
  unfold Word.address
  omega

namespace Instr

theorem ofSystem_of_ne {addr : Int} (hLow : 0 ≤ addr) (hHigh : addr ≤ 0xFFF)
    (hClear : addr ≠ 0x0E0) (hReturn : addr ≠ 0x0EE) : ofSystem addr = .address .sys addr := by
  have hAddress : Word.address addr = addr := by
    unfold Word.address
    omega
  rw [ofSystem, if_neg hClear, if_neg hReturn, hAddress]

/-- An address of twelve bits comes back from the word, unless the word is that of `CLS` or `RET`. -/
theorem decode?_word (op : AddressOp) {addr : Int} (hLow : 0 ≤ addr) (hHigh : addr ≤ 0xFFF)
    (hSys : op = .sys → addr ≠ 0x0E0 ∧ addr ≠ 0x0EE) :
    decode? (op.word addr) = some (.address op addr) := by
  have hSelf : ((addr % 0x1000).toNat : Int) = addr := by omega
  have hBounds := op.word_lt addr
  unfold decode?
  rw [if_pos (by omega), op.word_eq_add, Int.natCast_add, hSelf]
  cases op with
  | sys =>
      obtain ⟨hClear, hReturn⟩ := hSys rfl
      have hCode : (AddressOp.code .sys : Int) = 0x1000 * 0x0 := rfl
      rw [Word.family_add hCode hLow hHigh]
      show some (ofSystem (0 + addr)) = _
      rw [Int.zero_add, ofSystem_of_ne hLow hHigh hClear hReturn]
  | jump =>
      have hCode : (AddressOp.code .jump : Int) = 0x1000 * 0x1 := rfl
      rw [Word.family_add hCode hLow hHigh]
      exact congrArg (fun a => some (address .jump a)) (Word.address_add hCode hLow hHigh)
  | call =>
      have hCode : (AddressOp.code .call : Int) = 0x1000 * 0x2 := rfl
      rw [Word.family_add hCode hLow hHigh]
      exact congrArg (fun a => some (address .call a)) (Word.address_add hCode hLow hHigh)
  | setIndex =>
      have hCode : (AddressOp.code .setIndex : Int) = 0x1000 * 0xA := rfl
      rw [Word.family_add hCode hLow hHigh]
      exact congrArg (fun a => some (address .setIndex a)) (Word.address_add hCode hLow hHigh)
  | jumpV0 =>
      have hCode : (AddressOp.code .jumpV0 : Int) = 0x1000 * 0xB := rfl
      rw [Word.family_add hCode hLow hHigh]
      exact congrArg (fun a => some (address .jumpV0 a)) (Word.address_add hCode hLow hHigh)

end Instr

/-! ## Bounds -/

theorem Bits.or_bounds {a b : Int} (ha : 0 ≤ a ∧ a ≤ 0xFFFF) (hb : 0 ≤ b ∧ b ≤ 0xFFFF) :
    0 ≤ Bits.or a b ∧ Bits.or a b ≤ 0xFFFF := by
  obtain ⟨a, rfl⟩ := Int.eq_ofNat_of_zero_le ha.1
  obtain ⟨b, rfl⟩ := Int.eq_ofNat_of_zero_le hb.1
  have hOr : a ||| b < 2 ^ 16 := Nat.or_lt_two_pow (by omega) (by omega)
  rw [Bits.or_natCast]
  omega

theorem Reg.Exists.high_bounds {r : Reg} (h : r.Exists) : 0 ≤ r.high ∧ r.high ≤ 0xFFFF := by
  obtain ⟨hLow, hHigh⟩ := h
  unfold registerCount at hHigh
  unfold Reg.high
  omega

theorem Reg.Exists.low_bounds {r : Reg} (h : r.Exists) : 0 ≤ r.low ∧ r.low ≤ 0xFFFF := by
  obtain ⟨hLow, hHigh⟩ := h
  unfold registerCount at hHigh
  unfold Reg.low
  omega

/-- The opcode word of an instruction that fits is a 16-bit word. -/
theorem Instr.Fits.encode_bounds {i : Instr} (h : i.Fits) : 0 ≤ i.encode ∧ i.encode ≤ 0xFFFF := by
  cases i with
  | bare op => cases op <;> decide
  | address op addr =>
      have hWord := op.word_lt addr
      simp only [Instr.encode]
      omega
  | binary op x y =>
      obtain ⟨hx, hy⟩ := h
      cases y with
      | reg y =>
          refine Bits.or_bounds (Bits.or_bounds ?_ hx.high_bounds) (Reg.Exists.low_bounds hy)
          cases op <;> decide
      | imm n =>
          refine Bits.or_bounds (Bits.or_bounds ?_ hx.high_bounds) (by omega)
          cases op <;> decide
  | pair op x y =>
      obtain ⟨hx, hy⟩ := h
      refine Bits.or_bounds (Bits.or_bounds ?_ hx.high_bounds) hy.low_bounds
      cases op <;> decide
  | single op x =>
      refine Bits.or_bounds ?_ (Reg.Exists.high_bounds h)
      cases op <;> decide
  | random x mask =>
      exact Bits.or_bounds (Bits.or_bounds (by decide) h.1.high_bounds) (by omega)
  | draw x y rows =>
      exact Bits.or_bounds (Bits.or_bounds (Bits.or_bounds (by decide) h.1.high_bounds)
        h.2.1.low_bounds) (by omega)

end Chip8
