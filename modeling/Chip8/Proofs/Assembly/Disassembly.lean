import Chip8.Instr.Text
import Chip8.Proofs.Instr.Encoding
import Chip8.Proofs.Assembly.Grammar
import Chip8.Proofs.Assembly.Numeral

/-!
# Mnemonics are spellings

What `Instr.text` writes are the tokens of a form in the usual spacing, with the operands in their
places.  So the text of an instruction that fits spells that very instruction, and lines of such
texts spell the instructions in order.
-/

namespace Chip8.Assembly

open Text

/-! ## The usual spacing -/

namespace Token

/-- The text of a token that is always the same, up to its case. -/
def fixed? : Token → Option (List Char)
  | .keyword word => some word.toList
  | .mark c => some [c]
  | .index => some ['I']
  | .v0 => some ['V', '0']
  | .reg => none
  | .number _ => none
  | .address => none
  | .regOrByte => none
  | .name => none
  | .line => none

/-- The blanks before a token, where `gap` is usual. -/
def gapBefore : Token → List Char → List Char
  | .mark c, gap => if c = ',' ∨ c = ']' then [] else gap
  | _, gap => gap

/-- The blanks that are usual after a token. -/
def gapAfter : Token → List Char
  | .mark c => if c = '[' then [] else [' ']
  | _ => [' ']

theorem spells_of_fixed? {t : Token} {w : List Char} (ht : t.Plain) (h : t.fixed? = some w) :
    t.Spells w [] := by
  cases t with
  | keyword word =>
      cases h
      exact spells_keyword ht.isWord ht.map_upper
  | mark a =>
      cases h
      exact spells_mark a
  | index =>
      cases h
      rfl
  | v0 =>
      cases h
      rfl
  | _ => cases h

theorem isWord_of_fixed? {t : Token} {w : List Char} (ht : t.Plain) (hMark : t.isMark = false)
    (h : t.fixed? = some w) : IsWord w := by
  cases t with
  | keyword word =>
      cases h
      exact ht.isWord
  | mark a => cases hMark
  | index =>
      cases h
      exact isWord_of_all (by decide) (by decide)
  | v0 =>
      cases h
      exact isWord_of_all (by decide) (by decide)
  | _ => cases h

theorem gapBefore_of_not_isMark {t : Token} (h : t.isMark = false) (gap : List Char) :
    t.gapBefore gap = gap := by
  cases t with
  | mark c => cases h
  | _ => rfl

theorem gapBefore_eq (t : Token) (gap : List Char) : t.gapBefore gap = [] ∨ t.gapBefore gap = gap := by
  cases t with
  | mark c => exact ite_eq_or_eq _ _ _
  | _ => exact .inr rfl

theorem gapAfter_eq (t : Token) : t.gapAfter = [' '] ∨ t = .mark '[' ∧ t.gapAfter = [] := by
  cases t with
  | mark c =>
      by_cases hc : c = '['
      · subst hc
        exact .inr ⟨rfl, rfl⟩
      · exact .inl (if_neg hc)
  | _ => exact .inl rfl

theorem trivia_gapBefore (t : Token) {gap : List Char} (h : Trivia gap) :
    Trivia (t.gapBefore gap) := by
  rcases t.gapBefore_eq gap with hGap | hGap
  · rw [hGap]
    exact .nil
  · rw [hGap]
    exact h

theorem trivia_gapAfter (t : Token) : Trivia t.gapAfter := by
  rcases t.gapAfter_eq with hGap | ⟨-, hGap⟩
  · rw [hGap]
    exact .blank (by decide) .nil
  · rw [hGap]
    exact .nil

/-- A word may follow every token in the usual spacing. -/
theorem clear_gapAfter {t : Token} {w : List Char} (h : t = .mark '[' → w = ['[']) :
    Clear (t.gapAfter.getLast?.or w.getLast?) := by
  intro c hc
  rcases t.gapAfter_eq with hGap | ⟨hBracket, hGap⟩
  · rw [hGap] at hc
    cases hc
    decide
  · rw [hGap, h hBracket] at hc
    cases hc
    decide

end Token

/-- The tokens that are written in their own way each time. -/
def operandsOf (ts : List Token) : List Token := ts.filter (·.fixed?.isNone)

/-- The lexemes of tokens in the usual spacing, where `os` are the operands and `gap` comes first. -/
def spaceOut (gap : List Char) : List Token → List (List Char) → List Lexeme
  | [], _ => []
  | t :: ts, os =>
    match t.fixed?, os with
    | some w, os => ⟨t.gapBefore gap, w⟩ :: spaceOut t.gapAfter ts os
    | none, o :: os => ⟨t.gapBefore gap, o⟩ :: spaceOut t.gapAfter ts os
    | none, [] => []

section Spacing

variable {t : Token} {ts : List Token} {w : List Char} {os : List (List Char)}

theorem spaceOut_fixed (h : t.fixed? = some w) (gap : List Char) :
    spaceOut gap (t :: ts) os = ⟨t.gapBefore gap, w⟩ :: spaceOut t.gapAfter ts os := by
  simp only [spaceOut, h]

theorem spaceOut_operand (h : t.fixed? = none) (gap : List Char) :
    spaceOut gap (t :: ts) (w :: os) = ⟨t.gapBefore gap, w⟩ :: spaceOut t.gapAfter ts os := by
  simp only [spaceOut, h]

theorem isMark_of_fixed?_eq_none (h : t.fixed? = none) : t.isMark = false := by
  cases t with
  | mark a => cases h
  | _ => rfl

/-- Tokens in the usual spacing are spelled if their operands are. -/
theorem spellsAll_spaceOut {args : List Arg} (hPlain : ∀ t ∈ ts, t.Plain)
    (h : SpellsAll (operandsOf ts) (os.map (Lexeme.mk [])) args) (gap : List Char) :
    SpellsAll ts (spaceOut gap ts os) args := by
  induction ts generalizing os args gap with
  | nil =>
      cases os with
      | nil => exact h
      | cons o os => cases h
  | cons t ts ih =>
      have ht := hPlain t List.mem_cons_self
      have hRest := fun u hu => hPlain u (List.mem_cons_of_mem t hu)
      cases hFixed : t.fixed? with
      | some w =>
          rw [operandsOf, List.filter_cons_of_neg (by simp [hFixed])] at h
          rw [spaceOut_fixed hFixed]
          exact .cons (Token.spells_of_fixed? ht hFixed) (ih hRest h t.gapAfter)
      | none =>
          rw [operandsOf, List.filter_cons_of_pos (by simp [hFixed])] at h
          cases os with
          | nil => cases h
          | cons o os =>
              rw [spaceOut_operand hFixed]
              cases h with
              | cons hFirst hOthers => exact .cons hFirst (ih hRest hOthers t.gapAfter)

/-- Tokens in the usual spacing are well spaced if their operands are words. -/
theorem wellSpaced_spaceOut {gap : List Char} {before : Option Char}
    (hPlain : ∀ t ∈ ts, t.Plain) (hos : ∀ o ∈ os, IsWord o) (hGap : Trivia gap)
    (hClear : Clear (gap.getLast?.or before)) : WellSpaced before (spaceOut gap ts os) := by
  induction ts generalizing os gap before with
  | nil => trivial
  | cons t ts ih =>
      have ht := hPlain t List.mem_cons_self
      have hRest := fun u hu => hPlain u (List.mem_cons_of_mem t hu)
      have hBefore := t.trivia_gapBefore hGap
      have hAfter := t.trivia_gapAfter
      cases hFixed : t.fixed? with
      | some w =>
          rw [spaceOut_fixed hFixed]
          refine ⟨hBefore, ?_, ih hRest hos hAfter (Token.clear_gapAfter ?_)⟩
          · by_cases hMark : t.isMark = true
            · obtain ⟨c, rfl⟩ := Token.isMark_eq_true_iff.1 hMark
              cases hFixed
              exact .inl ⟨c, ht, rfl⟩
            · have hNot := Bool.eq_false_iff.2 hMark
              refine .inr ⟨Token.isWord_of_fixed? ht hNot hFixed, ?_⟩
              rw [Token.gapBefore_of_not_isMark hNot]
              exact hClear
          · rintro rfl
            exact (Option.some.inj hFixed).symm
      | none =>
          cases os with
          | nil =>
              simp only [spaceOut, hFixed]
              trivial
          | cons o os =>
              have hMark := isMark_of_fixed?_eq_none hFixed
              rw [spaceOut_operand hFixed]
              refine ⟨hBefore, .inr ⟨hos o List.mem_cons_self, ?_⟩, ?_⟩
              · rw [Token.gapBefore_of_not_isMark hMark]
                exact hClear
              · refine ih hRest (fun u hu => hos u (List.mem_cons_of_mem o hu)) hAfter
                  (Token.clear_gapAfter ?_)
                rintro rfl
                cases hMark

/-- The usual spacing has no tabs but those of its first gap. -/
theorem tab_notMem_spaceOut {gap : List Char} (hGap : '\t' ∉ gap) :
    ∀ x ∈ spaceOut gap ts os, '\t' ∉ x.gap := by
  induction ts generalizing os gap with
  | nil => exact fun x hx => nomatch hx
  | cons t ts ih =>
      have hBefore : '\t' ∉ t.gapBefore gap := by
        rcases t.gapBefore_eq gap with h | h
        · rw [h]
          exact List.not_mem_nil
        · rw [h]
          exact hGap
      have hAfter : '\t' ∉ t.gapAfter := by
        rcases t.gapAfter_eq with h | ⟨-, h⟩
        · rw [h]
          decide
        · rw [h]
          exact List.not_mem_nil
      intro x hx
      cases hFixed : t.fixed? with
      | some w =>
          rw [spaceOut_fixed hFixed] at hx
          rcases List.mem_cons.1 hx with rfl | hx
          · exact hBefore
          · exact ih hAfter x hx
      | none =>
          cases os with
          | nil =>
              simp only [spaceOut, hFixed] at hx
              cases hx
          | cons o os =>
              rw [spaceOut_operand hFixed] at hx
              rcases List.mem_cons.1 hx with rfl | hx
              · exact hBefore
              · exact ih hAfter x hx

end Spacing

/-! ## Instructions -/

/-- The form in which an instruction is written. -/
def formOf : Instr → Form
  | .bare op => .bare op
  | .address op _ => .address op
  | .binary op _ _ => .binary op
  | .pair op _ _ => .pair op
  | .single op _ => .single op
  | .random _ _ => .random
  | .draw _ _ _ => .draw

/-- The operands of an instruction as they are written. -/
def operandTexts : Instr → List (List Char)
  | .bare _ => []
  | .address _ addr => [(addressText addr).toList]
  | .binary _ x y => [x.text.toList, y.text.toList]
  | .pair _ x y => [x.text.toList, y.text.toList]
  | .single _ x => [x.text.toList]
  | .random x mask => [x.text.toList, (byteText mask).toList]
  | .draw x y rows => [x.text.toList, y.text.toList, (toString rows).toList]

/-- The lexemes of an instruction as it is written, after a gap. -/
def lexemesOf (gap : List Char) (i : Instr) : List Lexeme :=
  spaceOut gap (formOf i).tokens (operandTexts i)

section Text

attribute [local simp] spaceOut textOf Form.tokens Form.comma Form.atIndex Token.fixed?
  Token.gapBefore Token.gapAfter

/-- The lexemes of an instruction make up the line that is written for it. -/
theorem textOf_lexemesOf (gap : List Char) (i : Instr) :
    textOf (lexemesOf gap i) = gap ++ i.text.toList := by
  unfold lexemesOf operandTexts formOf Instr.text
  cases i with
  | bare op => cases op <;> simp [BareOp.text]
  | address op addr => cases op <;> simp [AddressOp.lead]
  | binary op x y => cases op <;> simp [BinaryOp.text]
  | pair op x y => cases op <;> simp [PairOp.text]
  | single op x => cases op <;> simp [SingleOp.frame]
  | random x mask => simp
  | draw x y rows => simp

end Text

theorem formOf_ne_unknown (i : Instr) : formOf i ≠ .unknown := by
  cases i <;> exact fun h => nomatch h

/-! ### Operands -/

theorem reg_text {r : Reg} (h : r.Exists) :
    IsWord r.text.toList ∧ Token.reg.Spells r.text.toList [.reg r] := by
  obtain ⟨k, rfl⟩ := h.eq_ofSlot
  have hText : (Reg.ofSlot k).text.toList = ['V', Hex.digit k.val] := by
    have hDigits : Hex.digits k.val = [Hex.digit k.val] := by
      rw [Hex.digits, if_pos k.isLt]
    have hSign : ¬(k.val : Int) < 0 := by omega
    simp [Reg.text, Reg.ofSlot, Hex.text, Hex.padded, hDigits, hSign]
  have hDigit : isHexDigit (Hex.digit k.val) = true := isHexDigit_digit k.isLt
  have hReg : Cursor.reg? ⟨none, ['V', Hex.digit k.val]⟩ = some (Reg.ofSlot k) := by
    rw [Token.reg?_eq_some (.inl rfl) hDigit, digitValue_digit k.isLt]
    rfl
  rw [hText]
  refine ⟨⟨List.cons_ne_nil _ _, fun c hc => ?_⟩, Token.spells_reg hReg rfl⟩
  rcases List.mem_cons.1 hc with rfl | hc
  · decide
  · rw [List.mem_singleton.1 hc]
    exact isNameChar_of_isHexDigit hDigit

theorem address_text {addr : Int} (hLow : 0 ≤ addr) (hHigh : addr ≤ 0xFFF) :
    IsWord (addressText addr).toList ∧
      Token.address.Spells (addressText addr).toList [.number addr.toNat] := by
  have hLimit : addr.toNat ≤ Field.address.limit := by
    show addr.toNat ≤ 0xFFF
    omega
  obtain ⟨hWord, hSpells⟩ := spells_padded hLow hLimit 3
  have hText : (addressText addr).toList = '0' :: 'x' :: (Hex.padded 3 addr).toList := by
    simp [addressText]
  rw [hText]
  exact ⟨hWord, Token.spells_address_of_number hSpells⟩

theorem byte_text {n : Int} (hLow : 0 ≤ n) (hHigh : n ≤ 0xFF) :
    IsWord (byteText n).toList ∧
      (Token.number .byte).Spells (byteText n).toList [.number n.toNat] := by
  have hLimit : n.toNat ≤ Field.byte.limit := by
    show n.toNat ≤ 0xFF
    omega
  obtain ⟨hWord, hSpells⟩ := spells_padded hLow hLimit 2
  have hText : (byteText n).toList = '0' :: 'x' :: (Hex.padded 2 n).toList := by
    simp [byteText]
  rw [hText]
  exact ⟨hWord, hSpells⟩

theorem rows_text {n : Int} (hLow : 0 ≤ n) (hHigh : n ≤ 0xF) :
    IsWord (toString n).toList ∧
      (Token.number .nibble).Spells (toString n).toList [.number n.toNat] := by
  have hAll : ∀ k : Fin 16, (toString (k.val : Int)).toList ≠ [] ∧
      (toString (k.val : Int)).toList.all Cursor.isNameChar = true ∧
      (Token.number .nibble).readHere ⟨none, (toString (k.val : Int)).toList⟩ =
        .hit [.number k.val] ⟨(toString (k.val : Int)).toList.getLast?, []⟩ := by
    decide +kernel
  obtain ⟨k, rfl⟩ := Int.eq_ofNat_of_zero_le hLow
  obtain ⟨hne, hChars, hSpells⟩ := hAll ⟨k, by omega⟩
  exact ⟨isWord_of_all hne hChars, hSpells⟩

/-- What an operand says. -/
def argOf : Operand → Arg
  | .reg r => .reg r
  | .imm n => .number n.toNat

theorem operand_text {y : Operand} (h : y.Fits) :
    IsWord y.text.toList ∧ Token.regOrByte.Spells y.text.toList [argOf y] := by
  cases y with
  | reg r =>
      obtain ⟨hWord, hSpells⟩ := reg_text h
      exact ⟨hWord, Token.spells_regOrByte_of_reg hSpells⟩
  | imm n =>
      obtain ⟨hWord, hSpells⟩ := byte_text h.1 h.2
      exact ⟨hWord, Token.spells_regOrByte_of_number hSpells⟩

/-! ### Whole instructions -/

/-- What the operands of an instruction say. -/
def argsOf : Instr → List Arg
  | .bare _ => []
  | .address _ addr => [.number addr.toNat]
  | .binary _ x y => [.reg x, argOf y]
  | .pair _ x y => [.reg x, .reg y]
  | .single _ x => [.reg x]
  | .random x mask => [.reg x, .number mask.toNat]
  | .draw x y rows => [.reg x, .reg y, .number rows.toNat]

theorem statement?_formOf {i : Instr} (h : i.Fits) :
    (formOf i).statement? (argsOf i) = some (.instr i) := by
  cases i with
  | address op addr => simp [formOf, argsOf, Form.statement?, Int.toNat_of_nonneg h.1]
  | binary op x y =>
      cases y with
      | reg y => rfl
      | imm n => simp [formOf, argsOf, argOf, Form.statement?, Int.toNat_of_nonneg h.2.1]
  | random x mask => simp [formOf, argsOf, Form.statement?, Int.toNat_of_nonneg h.2.1]
  | draw x y rows => simp [formOf, argsOf, Form.statement?, Int.toNat_of_nonneg h.2.2.1]
  | _ => rfl

theorem SpellsAll.operand {t : Token} {ts : List Token} {w : List Char} {os : List (List Char)}
    {a : Arg} {args : List Arg} (hFirst : t.Spells w [a])
    (hRest : SpellsAll ts (os.map (Lexeme.mk [])) args) :
    SpellsAll (t :: ts) ((w :: os).map (Lexeme.mk [])) (a :: args) :=
  .cons (x := ⟨[], w⟩) hFirst hRest

/-- The operands of an instruction that fits are words that spell what they should. -/
theorem operandTexts_spell {i : Instr} (h : i.Fits) :
    (∀ o ∈ operandTexts i, IsWord o) ∧
      SpellsAll (operandsOf (formOf i).tokens) ((operandTexts i).map (Lexeme.mk [])) (argsOf i) := by
  cases i with
  | bare op =>
      have hTokens : operandsOf (formOf (.bare op)).tokens = [] := by cases op <;> rfl
      rw [hTokens]
      exact ⟨fun o ho => (nomatch ho), .nil⟩
  | address op addr =>
      have hTokens : operandsOf (formOf (.address op addr)).tokens = [.address] := by
        cases op <;> rfl
      obtain ⟨hWord, hSpells⟩ := address_text h.1 h.2
      rw [hTokens]
      exact ⟨by simpa [operandTexts] using hWord, .operand hSpells .nil⟩
  | binary op x y =>
      have hTokens : operandsOf (formOf (.binary op x y)).tokens = [.reg, .regOrByte] := by
        cases op <;> rfl
      obtain ⟨hxWord, hx⟩ := reg_text h.1
      obtain ⟨hyWord, hy⟩ := operand_text h.2
      rw [hTokens]
      exact ⟨by simp [operandTexts, hxWord, hyWord], .operand hx (.operand hy .nil)⟩
  | pair op x y =>
      have hTokens : operandsOf (formOf (.pair op x y)).tokens = [.reg, .reg] := by
        cases op <;> rfl
      obtain ⟨hxWord, hx⟩ := reg_text h.1
      obtain ⟨hyWord, hy⟩ := reg_text h.2
      rw [hTokens]
      exact ⟨by simp [operandTexts, hxWord, hyWord], .operand hx (.operand hy .nil)⟩
  | single op x =>
      have hTokens : operandsOf (formOf (.single op x)).tokens = [.reg] := by cases op <;> rfl
      obtain ⟨hWord, hSpells⟩ := reg_text h
      rw [hTokens]
      exact ⟨by simpa [operandTexts] using hWord, .operand hSpells .nil⟩
  | random x mask =>
      obtain ⟨hxWord, hx⟩ := reg_text h.1
      obtain ⟨hMaskWord, hMask⟩ := byte_text h.2.1 h.2.2
      exact ⟨by simp [operandTexts, hxWord, hMaskWord], .operand hx (.operand hMask .nil)⟩
  | draw x y rows =>
      obtain ⟨hxWord, hx⟩ := reg_text h.1
      obtain ⟨hyWord, hy⟩ := reg_text h.2.1
      obtain ⟨hRowsWord, hRows⟩ := rows_text h.2.2.1 h.2.2.2
      exact ⟨by simpa [operandTexts] using ⟨hxWord, hyWord, hRowsWord⟩,
        .operand hx (.operand hy (.operand hRows .nil))⟩

theorem tail_formOf_spells (i : Instr) : (formOf i).tail.Spells [] [] := by
  cases i with
  | single op x => cases op <;> first | exact .none | exact .noRegister
  | _ => exact .none

/-- What is written for an instruction that fits spells the instruction. -/
theorem formOf_spells {i : Instr} (h : i.Fits) (gap : List Char) :
    (formOf i).Spells (lexemesOf gap i) (.instr i) := by
  have hTokens := spellsAll_spaceOut (Form.plain_of_mem_tokens (formOf_ne_unknown i))
    (operandTexts_spell h).2 gap
  have hStatement := statement?_formOf h
  rw [← List.append_nil (argsOf i)] at hStatement
  have hSpells := Form.Spells.intro hTokens (tail_formOf_spells i) hStatement
  rwa [List.append_nil] at hSpells

theorem wellSpaced_lexemesOf {i : Instr} (h : i.Fits) {gap : List Char} {before : Option Char}
    (hGap : Trivia gap) (hClear : Clear (gap.getLast?.or before)) :
    WellSpaced before (lexemesOf gap i) :=
  wellSpaced_spaceOut (Form.plain_of_mem_tokens (formOf_ne_unknown i)) (operandTexts_spell h).1
    hGap hClear

end Chip8.Assembly
