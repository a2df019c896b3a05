import Chip8.Hardware
import Chip8.Instr.Word

/-!
# The operands of decoded instructions

An `Instr` may carry any integers.  The instructions that `Instr.decode?` gives do not: their
registers exist, their addresses have twelve bits, their bytes eight and their nibbles four.
`Instr.Fits` says this of an instruction, and `fits_of_decode?` says it of every decoded one, so what
is proved for instructions that fit holds for whatever word lies in memory.
-/

namespace Chip8

/-! ## Registers that exist -/

/-- The register of a place in the register file. -/
def Reg.ofSlot (k : Fin registerCount) : Reg := ⟨k.val⟩

/-- The register is one of `V0` to `VF`. -/
def Reg.Exists (r : Reg) : Prop := 0 ≤ r.index ∧ r.index < registerCount

theorem Reg.exists_ofSlot (k : Fin registerCount) : (Reg.ofSlot k).Exists :=
  ⟨Int.natCast_nonneg k.val, Int.ofNat_lt.2 k.isLt⟩

/-- A register that exists has a place. -/
theorem Reg.Exists.eq_ofSlot {r : Reg} (h : r.Exists) : ∃ k, r = Reg.ofSlot k := by
  obtain ⟨n⟩ := r
  obtain ⟨hlow, hhigh⟩ := h
  have hslot : n.toNat < registerCount := (Int.toNat_lt hlow).2 hhigh
  exact ⟨⟨n.toNat, hslot⟩, congrArg Reg.mk (Int.toNat_of_nonneg hlow).symm⟩

/-! ## Operands that fit -/

/-- The operand is a register that exists, or a byte. -/
def Operand.Fits : Operand → Prop
  | .reg r => r.Exists
  | .imm n => 0 ≤ n ∧ n ≤ 0xFF

/-- Every operand fits its field of the opcode word. -/
def Instr.Fits : Instr → Prop
  | .bare _ => True
  | .address _ addr => 0 ≤ addr ∧ addr ≤ 0xFFF
  | .binary _ x y => x.Exists ∧ y.Fits
  | .pair _ x y => x.Exists ∧ y.Exists
  | .single _ x => x.Exists
  | .random x mask => x.Exists ∧ 0 ≤ mask ∧ mask ≤ 0xFF
  | .draw x y rows => x.Exists ∧ y.Exists ∧ 0 ≤ rows ∧ rows ≤ 0xF

/-! ## The fields of a word -/

namespace Word

theorem exists_x (w : Int) : (x w).Exists :=
  ⟨Int.emod_nonneg _ (by decide), Int.emod_lt_of_pos _ (by decide)⟩

theorem exists_y (w : Int) : (y w).Exists :=
  ⟨Int.emod_nonneg _ (by decide), Int.emod_lt_of_pos _ (by decide)⟩

theorem address_bounds (w : Int) : 0 ≤ address w ∧ address w ≤ 0xFFF := by
  unfold address
  omega

theorem byte_bounds (w : Int) : 0 ≤ byte w ∧ byte w ≤ 0xFF := by
  unfold byte
  omega

theorem nibble_bounds (w : Int) : 0 ≤ nibble w ∧ nibble w ≤ 0xF := by
  unfold nibble
  omega

end Word

namespace Instr

theorem fits_ofSystem (w : Int) : (ofSystem w).Fits := by
  unfold ofSystem
  split
  · trivial
  · split
    · trivial
    · exact Word.address_bounds w

theorem fits_of_ofArithmetic? {w : Int} {i : Instr} (h : ofArithmetic? w = some i) : i.Fits := by
  have hx := Word.exists_x w
  have hy := Word.exists_y w
  unfold ofArithmetic? at h
  split at h <;> cases h <;> simp [Fits, Operand.Fits, hx, hy]

theorem fits_of_ofKeys? {w : Int} {i : Instr} (h : ofKeys? w = some i) : i.Fits := by
  have hx := Word.exists_x w
  unfold ofKeys? at h
  split at h <;> cases h <;> exact hx

theorem fits_of_ofMisc? {w : Int} {i : Instr} (h : ofMisc? w = some i) : i.Fits := by
  have hx := Word.exists_x w
  unfold ofMisc? at h
  split at h <;> cases h <;> exact hx

/-- Decoding accepts 16-bit words only. -/
theorem word_bounds_of_decode? {w : Int} {i : Instr} (h : decode? w = some i) :
    0 ≤ w ∧ w ≤ 0xFFFF := by
  unfold decode? at h
  split at h
  · next hw => exact hw
  · cases h

/-- Whatever the word, the operands of its instruction fit. -/
theorem fits_of_decode? {w : Int} {i : Instr} (h : decode? w = some i) : i.Fits := by
  have hx := Word.exists_x w
  have hy := Word.exists_y w
  have hAddress := Word.address_bounds w
  have hByte := Word.byte_bounds w
  have hNibble := Word.nibble_bounds w
  unfold decode? at h
  rw [if_pos (word_bounds_of_decode? h)] at h
  split at h
  · cases h
    exact fits_ofSystem w
  · cases h
    exact hAddress
  · cases h
    exact hAddress
  · cases h
    exact ⟨hx, hByte⟩
  · cases h
    exact ⟨hx, hByte⟩
  · cases h
    exact ⟨hx, hy⟩
  · cases h
    exact ⟨hx, hByte⟩
  · cases h
    exact ⟨hx, hByte⟩
  · exact fits_of_ofArithmetic? h
  · cases h
    exact ⟨hx, hy⟩
  · cases h
    exact hAddress
  · cases h
    exact hAddress
  · cases h
    exact ⟨hx, hByte⟩
  · cases h
    exact ⟨hx, hy, hNibble⟩
  · exact fits_of_ofKeys? h
  · exact fits_of_ofMisc? h

end Instr

end Chip8
