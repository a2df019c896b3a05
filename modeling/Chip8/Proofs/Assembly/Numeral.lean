import Chip8.Hex
import Chip8.Proofs.Assembly.Spelling

/-!
# Numbers as they are written

The hexadecimal digits of a number have that number as their value, with or without zeros before
them.  So addresses and bytes are spelled by what `addressText` and `byteText` write, and the rows of
a sprite by their decimal digits.
-/

namespace Chip8.Assembly

/-! ## Digits -/

theorem isHexDigit_digit {d : Nat} (h : d < 16) : isHexDigit (Hex.digit d) = true := by
  have hAll : ∀ d : Fin 16, isHexDigit (Hex.digit d) = true := by decide
  exact hAll ⟨d, h⟩

theorem digitValue_digit {d : Nat} (h : d < 16) : digitValue (Hex.digit d) = d := by
  have hAll : ∀ d : Fin 16, digitValue (Hex.digit d) = d := by decide
  exact hAll ⟨d, h⟩

theorem digitsValue_append_singleton (base : Nat) (ds : List Char) (c : Char) :
    digitsValue base (ds ++ [c]) = base * digitsValue base ds + digitValue c := by
  rw [digitsValue, List.foldl_append]
  rfl

/-- Zeros before the first digit do not count. -/
theorem digitsValue_zeros_append (base k : Nat) (ds : List Char) :
    digitsValue base (List.replicate k '0' ++ ds) = digitsValue base ds := by
  have hZeros : (List.replicate k '0').foldl (fun value c => base * value + digitValue c) 0 = 0 := by
    induction k with
    | zero => rfl
    | succ k ih =>
        rw [List.replicate_succ, List.foldl_cons]
        exact ih
  rw [digitsValue, List.foldl_append, hZeros]
  rfl

theorem digitsValue_digits (n : Nat) : digitsValue 16 (Hex.digits n) = n := by
  induction n using Hex.digits.induct with
  | case1 n h =>
      rw [Hex.digits, if_pos h]
      exact (Nat.zero_add _).trans (digitValue_digit h)
  | case2 n h ih =>
      rw [Hex.digits, if_neg h, digitsValue_append_singleton, ih,
        digitValue_digit (Nat.mod_lt n (by decide))]
      exact Nat.div_add_mod n 16

theorem isHexDigit_of_mem_digits {n : Nat} {c : Char} (h : c ∈ Hex.digits n) :
    isHexDigit c = true := by
  induction n using Hex.digits.induct with
  | case1 n hn =>
      rw [Hex.digits, if_pos hn, List.mem_singleton] at h
      rw [h]
      exact isHexDigit_digit hn
  | case2 n hn ih =>
      rw [Hex.digits, if_neg hn, List.mem_append, List.mem_singleton] at h
      rcases h with h | rfl
      · exact ih h
      · exact isHexDigit_digit (Nat.mod_lt n (by decide))

/-- A number that is not negative is written as zeros and its digits. -/
theorem toList_padded {n : Int} (h : 0 ≤ n) (width : Nat) :
    ∃ k, (Hex.padded width n).toList = List.replicate k '0' ++ Hex.digits n.toNat := by
  have hAbs : n.natAbs = n.toNat := by omega
  refine ⟨width - (Hex.digits n.toNat).length, ?_⟩
  simp [Hex.padded, hAbs, Int.not_lt.2 h]

/-! ## Hexadecimal numerals -/

theorem isWord_hex {ds : List Char} (hDigits : ∀ c ∈ ds, isHexDigit c = true) :
    IsWord ('0' :: 'x' :: ds) := by
  refine ⟨List.cons_ne_nil _ _, fun c hc => ?_⟩
  rcases List.mem_cons.1 hc with rfl | hc
  · decide
  · rcases List.mem_cons.1 hc with rfl | hc
    · decide
    · exact isNameChar_of_isHexDigit (hDigits c hc)

theorem spells_hex {field : Field} {ds : List Char} {n : Nat} (hne : ds ≠ [])
    (hDigits : ∀ c ∈ ds, isHexDigit c = true) (hn : digitsValue 16 ds = n)
    (hLimit : n ≤ field.limit) :
    (Token.number field).Spells ('0' :: 'x' :: ds) [.number n] := by
  have hNumeral : Numeral.ofText? ('0' :: 'x' :: ds) = some ⟨16, 2, ds⟩ := by
    have hEmpty : ds.isEmpty = false := List.isEmpty_eq_false_iff.2 hne
    simp [Numeral.ofText?, Numeral.hex?, List.takeWhile_eq_self_iff.2 hDigits, hEmpty]
  have hLength : (⟨16, 2, ds⟩ : Numeral).length = ('0' :: 'x' :: ds).length := by
    simp only [Numeral.length, List.length_cons]
    omega
  have hValue : (⟨16, 2, ds⟩ : Numeral).inField field = .ok n := by
    subst hn
    rw [Numeral.inField, if_neg (by simp)]
    exact if_pos hLimit
  rw [Token.Spells, Token.readHere, Cursor.readNumber]
  simp only [hNumeral, hValue, hLength, Token.advance_word]

/-- A number is spelled by its padded digits. -/
theorem spells_padded {field : Field} {n : Int} (hLow : 0 ≤ n) (hLimit : n.toNat ≤ field.limit)
    (width : Nat) :
    IsWord ('0' :: 'x' :: (Hex.padded width n).toList) ∧
      (Token.number field).Spells ('0' :: 'x' :: (Hex.padded width n).toList)
        [.number n.toNat] := by
  obtain ⟨k, hText⟩ := toList_padded hLow width
  have hValue : digitsValue 16 (List.replicate k '0' ++ Hex.digits n.toNat) = n.toNat := by
    rw [digitsValue_zeros_append, digitsValue_digits]
  have hDigits : ∀ c ∈ List.replicate k '0' ++ Hex.digits n.toNat, isHexDigit c = true := by
    intro c hc
    rcases List.mem_append.1 hc with hc | hc
    · rw [List.eq_of_mem_replicate hc]
      decide
    · exact isHexDigit_of_mem_digits hc
  have hne : List.replicate k '0' ++ Hex.digits n.toNat ≠ [] :=
    List.append_ne_nil_of_right_ne_nil _ (Hex.digits_ne_nil n.toNat)
  rw [hText]
  exact ⟨isWord_hex hDigits, spells_hex hne hDigits hValue hLimit⟩

/-! ## Operands -/

namespace Token

variable {w : List Char} {n : Nat}

theorem spells_address_of_number (h : (number .address).Spells w [.number n]) :
    address.Spells w [.number n] := by
  simp only [Spells, readHere] at h ⊢
  rw [h]
  rfl

theorem spells_regOrByte_of_number (h : (number .byte).Spells w [.number n]) :
    regOrByte.Spells w [.number n] := by
  have hReg : Cursor.reg? ⟨none, w⟩ = none :=
    reg?_of_ofText? (ofText?_ne_none_of_spells_number h)
  simp only [Spells, readHere] at h ⊢
  rw [Cursor.readReg, hReg]
  exact h

theorem spells_reg {r : Reg} (h : Cursor.reg? ⟨none, w⟩ = some r) (hLength : w.length = 2) :
    reg.Spells w [.reg r] := by
  rw [Spells, readHere, Cursor.readReg, h, ← hLength]
  simp only [advance_word]

theorem spells_regOrByte_of_reg {r : Reg} (h : reg.Spells w [.reg r]) :
    regOrByte.Spells w [.reg r] := by
  simp only [Spells, readHere] at h ⊢
  rw [h]
  rfl

end Token

end Chip8.Assembly
