import Mathlib.Algebra.Group.Nat.Defs
import Chip8.Proofs.Instr.Encoding

/-!
# Decoding what was encoded

The word of an instruction that fits has its operands in its fields, so it is decoded to the same
instruction.  The exceptions are `SYS` at the two addresses whose words are those of `CLS` and `RET`:
they are looked at first, and `Instr.executed` is the instruction that is found instead.
-/

namespace Chip8

/-! ## The fields of a word that is put together -/

namespace Word

/-- The fields of an "or" are the "or"s of the fields. -/
theorem field_or (a b i j : Nat) :
    (a ||| b) / 2 ^ i % 2 ^ j = a / 2 ^ i % 2 ^ j ||| b / 2 ^ i % 2 ^ j := by
  rw [Nat.or_div_two_pow, Nat.or_mod_two_pow]

/-- The register `y` and the low nibble are the halves of the low byte. -/
theorem y_eq_of_byte {w : Int} {high low : Nat} (hLow : low < 0x10)
    (h : byte w = (0x10 * high + low : Nat)) : y w = ⟨high⟩ ∧ nibble w = low := by
  unfold byte at h
  unfold y nibble
  rw [Reg.mk.injEq]
  omega

/-- A word with a family, a register and a low byte. -/
structure IsMadeOf (w : Int) (family : Nat) (x : Reg) (low : Nat) : Prop where
  bounds : 0 ≤ w ∧ w ≤ 0xFFFF
  family_eq : Word.family w = family
  x_eq : Word.x w = x
  byte_eq : byte w = low

/-- A code leaves room for the register, and it may have bits of its own in the low byte. -/
theorem isMadeOf_or {code low : Nat} (k : Fin registerCount) (hCode : code < 0x10000)
    (hRoom : code / 0x100 % 0x10 = 0) (hLow : low < 0x100) :
    IsMadeOf (Bits.or (Bits.or code (Reg.ofSlot k).high) low) (code / 0x1000) (Reg.ofSlot k)
      (code % 0x100 ||| low) := by
  have hk : k.val < 16 := k.isLt
  have hHigh : (Reg.ofSlot k).high = (k.val * 0x100 : Nat) := rfl
  rw [hHigh, Bits.or_natCast, Bits.or_natCast]
  have hBound : code ||| k.val * 0x100 ||| low < 2 ^ 16 :=
    Nat.or_lt_two_pow (Nat.or_lt_two_pow hCode (by omega)) (by omega)
  -- Each of the three has zeros in the fields of the others, but for the low byte of the code.
  have hFamily : (code ||| k.val * 0x100 ||| low) / 2 ^ 12 % 2 ^ 4 = code / 0x1000 := by
    rw [field_or, field_or, show k.val * 0x100 / 2 ^ 12 % 2 ^ 4 = 0 by omega,
      show low / 2 ^ 12 % 2 ^ 4 = 0 by omega, Nat.or_zero, Nat.or_zero]
    omega
  have hX : (code ||| k.val * 0x100 ||| low) / 2 ^ 8 % 2 ^ 4 = k.val := by
    rw [field_or, field_or, show code / 2 ^ 8 % 2 ^ 4 = 0 from hRoom,
      show low / 2 ^ 8 % 2 ^ 4 = 0 by omega, Nat.or_zero, Nat.zero_or]
    omega
  have hByte : (code ||| k.val * 0x100 ||| low) / 2 ^ 0 % 2 ^ 8 = code % 0x100 ||| low := by
    rw [field_or, field_or, show k.val * 0x100 / 2 ^ 0 % 2 ^ 8 = 0 by omega,
      show low / 2 ^ 0 % 2 ^ 8 = low by omega, show code / 2 ^ 0 % 2 ^ 8 = code % 0x100 by omega,
      Nat.or_zero]
  refine ⟨by omega, ?_, ?_, ?_⟩
  · unfold family
    omega
  · unfold x Reg.ofSlot
    rw [Reg.mk.injEq]
    omega
  · unfold byte
    omega

/-- The low byte may be that of the code alone. -/
theorem isMadeOf_code {code : Nat} (k : Fin registerCount) (hCode : code < 0x10000)
    (hRoom : code / 0x100 % 0x10 = 0) :
    IsMadeOf (Bits.or code (Reg.ofSlot k).high) (code / 0x1000) (Reg.ofSlot k) (code % 0x100) := by
  have hMade := isMadeOf_or k hCode hRoom (show 0 < 0x100 by omega)
  have hHigh : (Reg.ofSlot k).high = (k.val * 0x100 : Nat) := rfl
  rw [hHigh, Bits.or_natCast, Bits.or_natCast, Nat.or_zero, Nat.or_zero] at hMade
  rw [hHigh, Bits.or_natCast]
  exact hMade

/-- The low byte may be a number, if the code has no bits there. -/
theorem isMadeOf_imm {code : Nat} {n : Int} (k : Fin registerCount) (hCode : code < 0x10000)
    (hRoom : code % 0x1000 = 0) (hLow : 0 ≤ n) (hHigh : n ≤ 0xFF) :
    IsMadeOf (Bits.or (Bits.or code (Reg.ofSlot k).high) (n % 0x100)) (code / 0x1000)
      (Reg.ofSlot k) n.toNat := by
  have hMade := isMadeOf_or k hCode (by omega) (show n.toNat < 0x100 by omega)
  have hNumber : n % 0x100 = n.toNat := by omega
  rw [show code % 0x100 = 0 by omega, Nat.zero_or] at hMade
  rw [hNumber]
  exact hMade

theorem or_mul_nibble {a : Nat} (l : Nat) (ha : a < 0x10) : l * 0x10 ||| a = 0x10 * l + a := by
  have hAdd := Nat.shiftLeft_add_eq_or_of_lt (show a < 2 ^ 4 by omega) l
  rw [Nat.shiftLeft_eq, show 2 ^ 4 = 0x10 from rfl] at hAdd
  omega

/-- A second register comes above the lowest nibble of the code. -/
theorem isMadeOf_reg {code : Nat} (k l : Fin registerCount) (hCode : code < 0x10000)
    (hRoom : code / 0x10 % 0x100 = 0) :
    IsMadeOf (Bits.or (Bits.or code (Reg.ofSlot k).high) (Reg.ofSlot l).low) (code / 0x1000)
      (Reg.ofSlot k) (0x10 * l.val + code % 0x10) := by
  have hl : l.val < 16 := l.isLt
  have hLow : (Reg.ofSlot l).low = (l.val * 0x10 : Nat) := rfl
  have hMade := isMadeOf_or k hCode (by omega) (show l.val * 0x10 < 0x100 by omega)
  rw [show code % 0x100 = code % 0x10 by omega, Nat.or_comm, or_mul_nibble l.val (by omega)] at hMade
  rw [hLow]
  exact hMade

/-- Below a second register there is room for the rows of a sprite. -/
theorem isMadeOf_rows {code : Nat} {rows : Int} (k l : Fin registerCount) (hCode : code < 0x10000)
    (hRoom : code % 0x1000 = 0) (hLow : 0 ≤ rows) (hHigh : rows ≤ 0xF) :
    IsMadeOf (Bits.or (Bits.or (Bits.or code (Reg.ofSlot k).high) (Reg.ofSlot l).low) (rows % 0x10))
      (code / 0x1000) (Reg.ofSlot k) (0x10 * l.val + rows.toNat) := by
  have hl : l.val < 16 := l.isLt
  have hSecond : (Reg.ofSlot l).low = (l.val * 0x10 : Nat) := rfl
  have hFirst : (Reg.ofSlot k).high = (k.val * 0x100 : Nat) := rfl
  have hNumber : rows % 0x10 = rows.toNat := by omega
  have hMade := isMadeOf_or k hCode (by omega) (show 0x10 * l.val + rows.toNat < 0x100 by omega)
  rw [show code % 0x100 = 0 by omega, Nat.zero_or, ← or_mul_nibble l.val (by omega), hFirst,
    Bits.or_natCast, Bits.or_natCast, ← Nat.or_assoc] at hMade
  rw [hNumber, hSecond, hFirst, Bits.or_natCast, Bits.or_natCast, Bits.or_natCast,
    ← or_mul_nibble l.val (by omega)]
  exact hMade

end Word

namespace Instr

/-- The instruction that is carried out where the word of an instruction is met. -/
def executed : Instr → Instr
  | .address .sys addr =>
    if addr = 0x0E0 then .bare .clear
    else if addr = 0x0EE then .bare .ret
    else .address .sys addr
  | i => i

/-- The only instructions that are not carried out as such are `SYS` at two addresses. -/
theorem executed_eq_self_iff {i : Instr} :
    i.executed = i ↔ i ≠ .address .sys 0x0E0 ∧ i ≠ .address .sys 0x0EE := by
  unfold executed
  split
  · next addr =>
      split
      · next h => simp [h]
      · split
        · next h => simp [h]
        · next hClear hReturn => simp [hClear, hReturn]
  · next hOther =>
      simp only [true_iff]
      exact ⟨hOther 0x0E0, hOther 0x0EE⟩

variable {w : Int} {x : Reg}

/-! ## From fields to instructions -/

theorem decode?_imm (op : BinaryOp) {n : Nat} (h : Word.IsMadeOf w (op.immCode / 0x1000) x n) :
    decode? w = some (.binary op x (.imm n)) := by
  rw [decode?, if_pos h.bounds, h.family_eq, h.x_eq, h.byte_eq]
  cases op <;> rfl

/-- Of the instructions on a register and a register the skips have families of their own, and the
others are told apart by the lowest nibble. -/
theorem decode?_reg (op : BinaryOp) {l : Fin registerCount}
    (h : Word.IsMadeOf w (op.regCode / 0x1000) x (0x10 * l.val + op.regCode % 0x10)) :
    decode? w = some (.binary op x (.reg (Reg.ofSlot l))) := by
  obtain ⟨hy, hNibble⟩ := Word.y_eq_of_byte (Nat.mod_lt _ (by decide)) h.byte_eq
  rw [decode?, if_pos h.bounds, h.family_eq]
  cases op with
  | skipEq =>
      show some (binary .skipEq (Word.x w) (.reg (Word.y w))) = _
      rw [h.x_eq, hy]
      rfl
  | skipNe =>
      show some (binary .skipNe (Word.x w) (.reg (Word.y w))) = _
      rw [h.x_eq, hy]
      rfl
  | load =>
      show ofArithmetic? w = _
      rw [ofArithmetic?, hNibble, h.x_eq, hy]
      rfl
  | add =>
      show ofArithmetic? w = _
      rw [ofArithmetic?, hNibble, h.x_eq, hy]
      rfl

theorem decode?_pair (op : PairOp) {l : Fin registerCount}
    (h : Word.IsMadeOf w (op.code / 0x1000) x (0x10 * l.val + op.code % 0x10)) :
    decode? w = some (.pair op x (Reg.ofSlot l)) := by
  obtain ⟨hy, hNibble⟩ := Word.y_eq_of_byte (Nat.mod_lt _ (by decide)) h.byte_eq
  have hArithmetic : decode? w = ofArithmetic? w := by
    rw [decode?, if_pos h.bounds, h.family_eq]
    cases op <;> rfl
  rw [hArithmetic, ofArithmetic?, hNibble, h.x_eq, hy]
  cases op <;> rfl

/-- The instructions on one register are told apart by their low byte, except the shifts, of which
only the lowest nibble counts. -/
theorem decode?_single (op : SingleOp) (h : Word.IsMadeOf w (op.code / 0x1000) x (op.code % 0x100)) :
    decode? w = some (.single op x) := by
  have hNibble : Word.nibble w = (op.code % 0x10 : Nat) := by
    have hByte := h.byte_eq
    unfold Word.byte at hByte
    unfold Word.nibble
    omega
  rw [decode?, if_pos h.bounds, h.family_eq]
  cases op with
  | shiftRight =>
      show ofArithmetic? w = _
      rw [ofArithmetic?, hNibble, h.x_eq]
      rfl
  | shiftLeft =>
      show ofArithmetic? w = _
      rw [ofArithmetic?, hNibble, h.x_eq]
      rfl
  | skipHeld =>
      show ofKeys? w = _
      rw [ofKeys?, h.byte_eq, h.x_eq]
      rfl
  | skipFree =>
      show ofKeys? w = _
      rw [ofKeys?, h.byte_eq, h.x_eq]
      rfl
  | _ =>
      show ofMisc? w = _
      rw [ofMisc?, h.byte_eq, h.x_eq]
      rfl

theorem decode?_random {n : Nat} (h : Word.IsMadeOf w 0xC x n) :
    decode? w = some (.random x n) := by
  rw [decode?, if_pos h.bounds, h.family_eq]
  show some (random (Word.x w) (Word.byte w)) = _
  rw [h.x_eq, h.byte_eq]

theorem decode?_draw {l : Fin registerCount} {n : Nat} (hn : n < 0x10)
    (h : Word.IsMadeOf w 0xD x (0x10 * l.val + n)) :
    decode? w = some (.draw x (Reg.ofSlot l) n) := by
  obtain ⟨hy, hNibble⟩ := Word.y_eq_of_byte hn h.byte_eq
  rw [decode?, if_pos h.bounds, h.family_eq]
  show some (draw (Word.x w) (Word.y w) (Word.nibble w)) = _
  rw [h.x_eq, hy, hNibble]
  rfl

/-- `CLS` and `RET` are looked at before `SYS` is. -/
theorem decode?_address (op : AddressOp) {addr : Int} (hLow : 0 ≤ addr) (hHigh : addr ≤ 0xFFF) :
    decode? (op.word addr) = some (executed (.address op addr)) := by
  cases op with
  | sys =>
      by_cases hClear : addr = 0x0E0
      · subst hClear
        rfl
      · by_cases hReturn : addr = 0x0EE
        · subst hReturn
          rfl
        · rw [decode?_word .sys hLow hHigh fun _ => ⟨hClear, hReturn⟩, executed, if_neg hClear,
            if_neg hReturn]
  | _ => exact decode?_word _ hLow hHigh fun hSys => AddressOp.noConfusion hSys

/-! ## Instructions with a number -/

theorem isMadeOf_binary (op : BinaryOp) (k : Fin registerCount) {n : Int} (hLow : 0 ≤ n)
    (hHigh : n ≤ 0xFF) :
    Word.IsMadeOf (encode (.binary op (Reg.ofSlot k) (.imm n))) (op.immCode / 0x1000)
      (Reg.ofSlot k) n.toNat :=
  Word.isMadeOf_imm k (by cases op <;> decide) (by cases op <;> decide) hLow hHigh

theorem isMadeOf_random (k : Fin registerCount) {mask : Int} (hLow : 0 ≤ mask)
    (hHigh : mask ≤ 0xFF) :
    Word.IsMadeOf (encode (.random (Reg.ofSlot k) mask)) 0xC (Reg.ofSlot k) mask.toNat :=
  Word.isMadeOf_imm k (by decide) (by decide) hLow hHigh

theorem isMadeOf_draw (k l : Fin registerCount) {rows : Int} (hLow : 0 ≤ rows)
    (hHigh : rows ≤ 0xF) :
    Word.IsMadeOf (encode (.draw (Reg.ofSlot k) (Reg.ofSlot l) rows)) 0xD (Reg.ofSlot k)
      (0x10 * l.val + rows.toNat) :=
  Word.isMadeOf_rows k l (by decide) (by decide) hLow hHigh

/-! ## All instructions -/

/-- The word of an instruction that fits is decoded to the instruction that is carried out for it. -/
theorem decode?_encode {i : Instr} (h : i.Fits) : decode? i.encode = some i.executed := by
  cases i with
  | bare op => cases op <;> rfl
  | address op addr => exact decode?_address op h.1 h.2
  | binary op x y =>
      obtain ⟨hx, hy⟩ := h
      obtain ⟨k, rfl⟩ := hx.eq_ofSlot
      cases y with
      | reg y =>
          obtain ⟨l, rfl⟩ := Reg.Exists.eq_ofSlot hy
          apply decode?_reg op
          apply Word.isMadeOf_reg k l <;> cases op <;> decide
      | imm n =>
          obtain ⟨hLow, hHigh⟩ := hy
          rw [decode?_imm op (isMadeOf_binary op k hLow hHigh), Int.toNat_of_nonneg hLow]
          rfl
  | pair op x y =>
      obtain ⟨hx, hy⟩ := h
      obtain ⟨k, rfl⟩ := hx.eq_ofSlot
      obtain ⟨l, rfl⟩ := hy.eq_ofSlot
      apply decode?_pair op
      apply Word.isMadeOf_reg k l <;> cases op <;> decide
  | single op x =>
      obtain ⟨k, rfl⟩ := Reg.Exists.eq_ofSlot h
      apply decode?_single op
      apply Word.isMadeOf_code k <;> cases op <;> decide
  | random x mask =>
      obtain ⟨hx, hLow, hHigh⟩ := h
      obtain ⟨k, rfl⟩ := hx.eq_ofSlot
      rw [decode?_random (isMadeOf_random k hLow hHigh), Int.toNat_of_nonneg hLow]
      rfl
  | draw x y rows =>
      obtain ⟨hx, hy, hLow, hHigh⟩ := h
      obtain ⟨k, rfl⟩ := hx.eq_ofSlot
      obtain ⟨l, rfl⟩ := hy.eq_ofSlot
      rw [decode?_draw (by omega) (isMadeOf_draw k l hLow hHigh), Int.toNat_of_nonneg hLow]
      rfl

end Instr

end Chip8
