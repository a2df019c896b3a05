import Chip8.Proofs.Instr.Decoding

/-!
# Encoding and decoding undo each other

Encoding cuts addresses, bytes and nibbles to their width, so what comes back from the word of an
instruction is the instruction with its operands cut, `Instr.cut`, whatever integers they were.
Decoding passes over some bits of some words.  `Word.ignored` is what a word holds there, and encoding
what was decoded leaves zeros in its place (`encode_of_decode?`).

An opcode word is put together with "or", but no two of its parts overlap: `Instr.sum` adds them up,
which is what the arithmetic of fields needs.
-/

namespace Chip8

/-! ## Operands cut to their width -/

/-- The operand, if it is a number, cut to a byte. -/
def Operand.cut : Operand → Operand
  | .reg r => .reg r
  | .imm n => .imm (n % 0x100)

/-- The instruction with its address, byte or nibble cut to twelve, eight or four bits. -/
def Instr.cut : Instr → Instr
  | .bare op => .bare op
  | .address op addr => .address op (addr % 0x1000)
  | .binary op x y => .binary op x y.cut
  | .pair op x y => .pair op x y
  | .single op x => .single op x
  | .random x mask => .random x (mask % 0x100)
  | .draw x y rows => .draw x y (rows % 0x10)

/-- The register that the operand is, if it is one. -/
def Operand.registers : Operand → List Reg
  | .reg r => [r]
  | .imm _ => []

/-- The registers that the instruction names. -/
def Instr.registers : Instr → List Reg
  | .bare _ => []
  | .address _ _ => []
  | .binary _ x y => x :: y.registers
  | .pair _ x y => [x, y]
  | .single _ x => [x]
  | .random x _ => [x]
  | .draw x y _ => [x, y]

namespace Instr

variable {i : Instr} {w : Int}

/-- Encoding makes no difference between an operand and what is left of it in its field. -/
theorem encode_cut (i : Instr) : i.cut.encode = i.encode := by
  cases i with
  | address op addr =>
      show ((op.word (addr % 0x1000) : Nat) : Int) = (op.word addr : Nat)
      rw [AddressOp.word, AddressOp.word, Int.emod_emod]
  | binary op x y =>
      cases y with
      | reg y => rfl
      | imm n => simp only [cut, Operand.cut, encode, Int.emod_emod]
  | random x mask => simp only [cut, encode, Int.emod_emod]
  | draw x y rows => simp only [cut, encode, Int.emod_emod]
  | _ => rfl

/-- Once its operands are cut, only a register can fail to fit. -/
theorem fits_cut (h : ∀ r ∈ i.registers, r.Exists) : i.cut.Fits := by
  cases i with
  | bare op => trivial
  | address op addr => exact Word.address_bounds addr
  | binary op x y =>
      obtain ⟨hx, hy⟩ := List.forall_mem_cons.1 h
      cases y with
      | reg y => exact ⟨hx, hy y List.mem_cons_self⟩
      | imm n => exact ⟨hx, Word.byte_bounds n⟩
  | pair op x y => exact ⟨h x (by simp [registers]), h y (by simp [registers])⟩
  | single op x => exact h x (by simp [registers])
  | random x mask => exact ⟨h x (by simp [registers]), Word.byte_bounds mask⟩
  | draw x y rows =>
      exact ⟨h x (by simp [registers]), h y (by simp [registers]), Word.nibble_bounds rows⟩

/-- An instruction on an address stays one when it is cut, and no other becomes one. -/
theorem exists_of_cut_eq_address {op : AddressOp} {low : Int} (h : i.cut = .address op low) :
    ∃ addr, i = .address op addr ∧ addr % 0x1000 = low := by
  cases i with
  | address op addr =>
      cases h
      exact ⟨addr, rfl, rfl⟩
  | _ => cases h

theorem decode?_encode_eq_cut (h : ∀ r ∈ i.registers, r.Exists) :
    decode? i.encode = some i.cut.executed := by
  rw [← encode_cut, decode?_encode (fits_cut h)]

/-! ## Words as sums -/

/-- The code of the instruction plus its operands in their places. -/
def sum : Instr → Int
  | .bare op => op.code
  | .address op addr => op.code + addr
  | .binary op x (.reg y) => op.regCode + 0x100 * x.index + 0x10 * y.index
  | .binary op x (.imm n) => op.immCode + 0x100 * x.index + n
  | .pair op x y => op.code + 0x100 * x.index + 0x10 * y.index
  | .single op x => op.code + 0x100 * x.index
  | .random x mask => randomCode + 0x100 * x.index + mask
  | .draw x y rows => drawCode + 0x100 * x.index + 0x10 * y.index + rows

end Instr

namespace Word

variable {w : Int}

theorem IsMadeOf.eq_sum {family low : Nat} {x : Reg} (h : IsMadeOf w family x low) :
    w = 0x1000 * family + 0x100 * x.index + low := by
  have hFamily := h.family_eq
  have hIndex := congrArg Reg.index h.x_eq
  have hByte := h.byte_eq
  change w / 0x100 % 0x10 = x.index at hIndex
  unfold Word.family at hFamily
  unfold byte at hByte
  omega

/-- A word is the sum of its family, its registers and its lowest nibble in their places. -/
theorem eq_sum_nibble (w : Int) :
    w = 0x1000 * family w + 0x100 * (x w).index + 0x10 * (y w).index + nibble w := by
  simp only [family, x, y, nibble]
  omega

theorem eq_sum_byte (w : Int) : w = 0x1000 * family w + 0x100 * (x w).index + byte w := by
  simp only [family, x, byte]
  omega

theorem eq_sum_address (w : Int) : w = 0x1000 * family w + address w := by
  simp only [family, address]
  omega

/-- Two registers lie above the lowest nibble of a code and below its family. -/
theorem or_reg_eq_sum {code : Nat} (k l : Fin registerCount) (hCode : code < 0x10000)
    (hRoom : code / 0x10 % 0x100 = 0) :
    Bits.or (Bits.or code (Reg.ofSlot k).high) (Reg.ofSlot l).low =
      code + 0x100 * (Reg.ofSlot k).index + 0x10 * (Reg.ofSlot l).index := by
  have hSum := (isMadeOf_reg k l hCode hRoom).eq_sum
  have hSecond : (Reg.ofSlot l).index = l.val := rfl
  omega

/-- What a word holds in the bits that decoding passes over: the low nibble in the families 5 and 9,
and the nibble of the second register at the two shifts. -/
def ignored (w : Int) : Int :=
  if family w = 0x5 ∨ family w = 0x9 then nibble w
  else if family w = 0x8 ∧ (nibble w = 0x6 ∨ nibble w = 0xE) then 0x10 * (y w).index
  else 0

/-- Nothing is passed over, or part of the low byte of a word far above family 0. -/
theorem ignored_eq_zero_or (w : Int) : ignored w = 0 ∨ 5 ≤ family w ∧ ignored w ≤ 0xF0 := by
  have hNibble := nibble_bounds w
  have hIndex := (exists_y w).2
  unfold registerCount at hIndex
  unfold ignored
  split
  · omega
  · split <;> omega

end Word

namespace Instr

variable {i : Instr} {w : Int}

/-- The parts of the word of an instruction that fits do not overlap. -/
theorem encode_eq_sum (h : i.Fits) : i.encode = i.sum := by
  cases i with
  | bare op => rfl
  | address op addr =>
      obtain ⟨hLow, hHigh⟩ := h
      show ((op.word addr : Nat) : Int) = op.code + addr
      rw [op.word_eq_add]
      omega
  | binary op x y =>
      obtain ⟨hx, hy⟩ := h
      obtain ⟨k, rfl⟩ := hx.eq_ofSlot
      cases y with
      | reg y =>
          obtain ⟨l, rfl⟩ := Reg.Exists.eq_ofSlot hy
          exact Word.or_reg_eq_sum k l (by cases op <;> decide) (by cases op <;> decide)
      | imm n =>
          obtain ⟨hLow, hHigh⟩ := hy
          have hRoom : op.immCode % 0x1000 = 0 := by cases op <;> decide
          have hSum := (isMadeOf_binary op k hLow hHigh).eq_sum
          simp only [sum]
          omega
  | pair op x y =>
      obtain ⟨hx, hy⟩ := h
      obtain ⟨k, rfl⟩ := hx.eq_ofSlot
      obtain ⟨l, rfl⟩ := hy.eq_ofSlot
      exact Word.or_reg_eq_sum k l (by cases op <;> decide) (by cases op <;> decide)
  | single op x =>
      obtain ⟨k, rfl⟩ := Reg.Exists.eq_ofSlot h
      have hRoom : op.code / 0x100 % 0x10 = 0 := by cases op <;> decide
      have hSum := (Word.isMadeOf_code k (by cases op <;> decide) hRoom).eq_sum
      simp only [encode, sum]
      omega
  | random x mask =>
      obtain ⟨hx, hLow, hHigh⟩ := h
      obtain ⟨k, rfl⟩ := hx.eq_ofSlot
      rw [(isMadeOf_random k hLow hHigh).eq_sum, Int.toNat_of_nonneg hLow]
      rfl
  | draw x y rows =>
      obtain ⟨hx, hy, hLow, hHigh⟩ := h
      obtain ⟨k, rfl⟩ := hx.eq_ofSlot
      obtain ⟨l, rfl⟩ := hy.eq_ofSlot
      have hSum := (isMadeOf_draw k l hLow hHigh).eq_sum
      have hSecond : (Reg.ofSlot l).index = l.val := rfl
      have hCode : (drawCode : Int) = 0x1000 * 0xD := rfl
      simp only [sum]
      omega

/-! ## Encoding what was decoded -/

/-- Of family 0 every bit of a word counts. -/
theorem sum_ofSystem (hFamily : Word.family w = 0x0) : (ofSystem w).sum = w := by
  have hParts := Word.eq_sum_address w
  unfold ofSystem
  split
  · next hWord => exact hWord.symm
  · split
    · next hWord => exact hWord.symm
    · simp only [sum, AddressOp.code]
      omega

/-- Of family 8 the second register is passed over at the shifts. -/
theorem sum_of_ofArithmetic? (hFamily : Word.family w = 0x8) (h : ofArithmetic? w = some i) :
    i.sum = w - Word.ignored w := by
  have hParts := Word.eq_sum_nibble w
  have hNibble := Word.nibble_bounds w
  unfold ofArithmetic? at h
  by_cases hShift : Word.nibble w = 0x6 ∨ Word.nibble w = 0xE
  · have hIgnored : Word.ignored w = 0x10 * (Word.y w).index := by
      simp [Word.ignored, hFamily, hShift]
    split at h <;> cases h <;> simp only [sum, SingleOp.code] <;> omega
  · have hIgnored : Word.ignored w = 0 := by simp [Word.ignored, hShift, hFamily]
    split at h <;> cases h <;> simp only [sum, BinaryOp.regCode, PairOp.code] <;> omega

/-- Of the families E and F every bit counts again. -/
theorem sum_of_ofKeys? (hFamily : Word.family w = 0xE) (h : ofKeys? w = some i) : i.sum = w := by
  have hParts := Word.eq_sum_byte w
  have hByte := Word.byte_bounds w
  unfold ofKeys? at h
  split at h <;> cases h <;> simp only [sum, SingleOp.code] <;> omega

theorem sum_of_ofMisc? (hFamily : Word.family w = 0xF) (h : ofMisc? w = some i) : i.sum = w := by
  have hParts := Word.eq_sum_byte w
  have hByte := Word.byte_bounds w
  unfold ofMisc? at h
  split at h <;> cases h <;> simp only [sum, SingleOp.code] <;> omega

/-- The word of what was decoded is the word again, with zeros where decoding does not look. -/
theorem sum_of_decode? (h : decode? w = some i) : i.sum = w - Word.ignored w := by
  have hAddress := Word.eq_sum_address w
  have hByte := Word.eq_sum_byte w
  have hNibble := Word.eq_sum_nibble w
  have hBounds := word_bounds_of_decode? h
  have hFamily : 0 ≤ Word.family w ∧ Word.family w ≤ 0xF := by
    unfold Word.family
    omega
  have hCounts : Word.family w ≠ 0x5 → Word.family w ≠ 0x8 → Word.family w ≠ 0x9 →
      Word.ignored w = 0 := by
    intro h5 h8 h9
    simp [Word.ignored, h5, h8, h9]
  unfold decode? at h
  rw [if_pos hBounds] at h
  split at h
  -- The families with tables of their own, 0, 8, E and F.
  case h_1 =>
    cases h
    rw [sum_ofSystem (by omega), hCounts (by omega) (by omega) (by omega), Int.sub_zero]
  case h_9 => exact sum_of_ofArithmetic? (by omega) h
  case h_15 =>
    rw [sum_of_ofKeys? (by omega) h, hCounts (by omega) (by omega) (by omega), Int.sub_zero]
  case h_16 =>
    have hLast : Word.family w = 0xF := by grind
    rw [sum_of_ofMisc? hLast h, hCounts (by omega) (by omega) (by omega), Int.sub_zero]
  -- The families 5 and 9, of which the low nibble is passed over.
  case h_6 hFive =>
    have hIgnored : Word.ignored w = Word.nibble w := if_pos (.inl (by omega))
    cases h
    simp only [sum, BinaryOp.regCode]
    omega
  case h_10 hNine =>
    have hIgnored : Word.ignored w = Word.nibble w := if_pos (.inr (by omega))
    cases h
    simp only [sum, BinaryOp.regCode]
    omega
  all_goals
    cases h
    simp only [sum, AddressOp.code, BinaryOp.immCode, randomCode, drawCode]
    omega

theorem encode_of_decode? (h : decode? w = some i) : i.encode = w - Word.ignored w := by
  rw [encode_eq_sum (fits_of_decode? h), sum_of_decode? h]

/-- A call to the host is decoded from its address only, so never from the words of `CLS` and
`RET`. -/
theorem eq_of_decode?_sys {addr : Int} (h : decode? w = some (.address .sys addr)) : w = addr := by
  have hSum : 0 + addr = w - Word.ignored w := sum_of_decode? h
  obtain ⟨-, hHigh⟩ : 0 ≤ addr ∧ addr ≤ 0xFFF := fits_of_decode? h
  have hBounds := word_bounds_of_decode? h
  have hIgnored := Word.ignored_eq_zero_or w
  unfold Word.family at hIgnored
  omega

/-- What was decoded is carried out as such. -/
theorem executed_of_decode? (h : decode? w = some i) : i.executed = i := by
  rw [executed_eq_self_iff]
  constructor
  · rintro rfl
    rw [eq_of_decode?_sys h] at h
    cases h
  · rintro rfl
    rw [eq_of_decode?_sys h] at h
    cases h

/-! ## Both ways -/

/-- The word of an instruction whose registers exist is a 16-bit word whatever its other operands are,
and it is decoded to the instruction with these operands cut to their width, unless it is that of
`CLS` or `RET`, which a call to the host at two addresses has.  The other way round, what a word is
decoded to fits, is decoded from its own word again, and differs in this word from the first one only
in what decoding passes over, where it has zeros. -/
theorem encode_decode?_inverse :
    (∀ i : Instr, (∀ r ∈ i.registers, r.Exists) →
      (0 ≤ i.encode ∧ i.encode ≤ 0xFFFF) ∧
      (∀ addr, i = .address .sys addr → addr % 0x1000 = 0x0E0 →
        decode? i.encode = some (.bare .clear)) ∧
      (∀ addr, i = .address .sys addr → addr % 0x1000 = 0x0EE →
        decode? i.encode = some (.bare .ret)) ∧
      ((∀ addr, i = .address .sys addr → addr % 0x1000 ≠ 0x0E0 ∧ addr % 0x1000 ≠ 0x0EE) →
        decode? i.encode = some i.cut)) ∧
    ∀ w i, decode? w = some i →
      i.Fits ∧ decode? i.encode = some i ∧ i.encode = w - Word.ignored w := by
  refine ⟨fun i hExists => ?_, fun w i hDecode => ?_⟩
  · have hDecode := decode?_encode_eq_cut hExists
    refine ⟨encode_cut i ▸ (fits_cut hExists).encode_bounds, ?_, ?_, ?_⟩
    · rintro addr rfl hClear
      rw [hDecode, cut, executed, if_pos hClear]
    · rintro addr rfl hReturn
      rw [hDecode, cut, executed, if_neg (by omega), if_pos hReturn]
    · intro hOther
      rw [hDecode, executed_eq_self_iff.2]
      constructor
      · intro hCut
        obtain ⟨addr, rfl, hLow⟩ := exists_of_cut_eq_address hCut
        exact (hOther addr rfl).1 hLow
      · intro hCut
        obtain ⟨addr, rfl, hLow⟩ := exists_of_cut_eq_address hCut
        exact (hOther addr rfl).2 hLow
  · have hFits := fits_of_decode? hDecode
    refine ⟨hFits, ?_, encode_of_decode? hDecode⟩
    rw [decode?_encode hFits, executed_of_decode? hDecode]

/-- A sprite of minus one rows is encoded as one of fifteen, a call to the host beyond twelve bits as
`CLS`, and a shift with a second register loses it. -/
theorem encode_decode?_inverse_of_shift :
    (∀ r ∈ (draw ⟨15⟩ ⟨10⟩ (-1)).registers, r.Exists) ∧ (0x10E0 : Int) % 0x1000 = 0x0E0 ∧
      decode? 0x81F6 = some (.single .shiftRight ⟨1⟩) ∧
      decode? (draw ⟨15⟩ ⟨10⟩ (-1)).encode = some (.draw ⟨15⟩ ⟨10⟩ 15) ∧
      decode? (address .sys 0x10E0).encode = some (.bare .clear) ∧
      (single .shiftRight ⟨1⟩).encode = 0x8106 := by
  obtain ⟨hEncode, hDecode⟩ := encode_decode?_inverse
  have hExists : ∀ r ∈ (draw ⟨15⟩ ⟨10⟩ (-1)).registers, r.Exists := by
    simp [registers, Reg.Exists]
  have hShift : decode? 0x81F6 = some (.single .shiftRight ⟨1⟩) := rfl
  refine ⟨hExists, rfl, hShift, ?_, ?_, ?_⟩
  · exact (hEncode _ hExists).2.2.2 fun addr hSys => Instr.noConfusion hSys
  · exact (hEncode (.address .sys 0x10E0) fun r hr => absurd hr List.not_mem_nil).2.1 0x10E0 rfl rfl
  · exact (hDecode 0x81F6 _ hShift).2.2

end Instr

end Chip8
