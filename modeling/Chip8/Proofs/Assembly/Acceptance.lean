import Chip8.Proofs.Assembly.Parts
import Chip8.Proofs.Assembly.Tabs

/-!
# Every way to write a program is read

Whatever a statement is written as, some form spells it, and the forms before it miss it.  So a source
that is made up of statements, each written in any way and with any spacing, tabs included, has just
these statements in this order (`statements_of_writtenAll`).
-/

namespace Chip8.Assembly

open Text

/-! ## Parts -/

theorem isNumeral_spells {field : Field} {w : List Char} {n : Nat} (h : IsNumeral w n)
    (hLimit : n ≤ field.limit) : (Token.number field).Spells w [.number n] := by
  obtain ⟨m, hNumeral, hLength, hValue, hShort⟩ := exists_ofText?_of_isNumeral h
  have hField : m.inField field = .ok n :=
    Numeral.inField_eq_ok_iff.2 ⟨hShort, hValue.symm, hValue ▸ hLimit⟩
  rw [Token.Spells, Token.readHere, Cursor.readNumber]
  simp only [hNumeral, hField, hLength, Token.advance_word]

theorem IsName.isWord {w : List Char} (h : IsName w) : IsWord w := by
  obtain ⟨c, rest, rfl, hStart, hRest⟩ := h
  exact ⟨List.cons_ne_nil _ _, List.forall_mem_cons.2 ⟨isNameChar_of_isNameStart hStart, hRest⟩⟩

theorem IsName.spells {w : List Char} (h : IsName w) :
    Token.name.Spells w [.text (String.ofList w)] := by
  have hWord := h.isWord
  obtain ⟨c, rest, rfl, hStart, -⟩ := h
  exact Token.spells_name hWord hStart

/-- A name is no number, so where an address is expected it is that of a label. -/
theorem IsName.spells_address {w : List Char} (h : IsName w) :
    Token.address.Spells w [.text (String.ofList w)] := by
  have hName := h.spells
  have hNumeral : Numeral.ofText? w = none := by
    refine Option.eq_none_iff_forall_ne_some.2 fun m hm => ?_
    obtain ⟨c, rest, rfl, hStart, -⟩ := h
    have hNever : ∀ c, Cursor.isNameStart c = true → ¬c.isDigit = true := by
      intro c hc hDigit
      have hChar : Cursor.isNameChar c = true := by
        simp [Cursor.isNameChar, Char.isAlphanum, hDigit]
      exact forall_isNameChar (p := fun c => Cursor.isNameStart c = true → ¬c.isDigit = true)
        (by decide +kernel) hChar hc hDigit
    exact hNever c hStart (Token.isDigit_of_ofText? hm)
  simp only [Token.Spells, Token.readHere] at hName ⊢
  rw [Cursor.readNumber]
  simp only [hNumeral]
  exact hName

theorem Part.Written.spells_reg {r : Reg} {w : List Char} (h : (Part.reg r).Written w) :
    Token.reg.Spells w [.reg r] := by
  cases h with
  | reg hv hc =>
      obtain ⟨hHex, rfl⟩ := isDigit_iff.1 hc
      exact Token.spells_reg (Token.reg?_eq_some hv hHex) rfl

theorem eq_of_upper_eq_mark {c a : Char} (hc : IsLexeme [c]) (ha : a ∈ marks) (h : upper c = a) :
    c = a := by
  subst h
  rcases hc with ⟨b, hb, hEq⟩ | hWord
  · obtain rfl := List.singleton_inj.1 hEq
    exact (upper_of_mem_marks hb).symm
  · have hName := hWord.2 c List.mem_cons_self
    rw [isNameChar_of_upper_mem_marks ha] at hName
    cases hName

theorem reg?_of_map_upper {w : List Char} (hw : IsWord w) (h : w.map upper = ['V', '0']) :
    Cursor.reg? ⟨none, w⟩ = some ⟨0⟩ := by
  obtain ⟨v, rest, rfl, hv, hRest⟩ := List.map_eq_cons_iff.1 h
  obtain ⟨d, rfl, hd⟩ := List.map_eq_singleton_iff.1 hRest
  have hLetter : v = 'V' ∨ v = 'v' :=
    forall_isNameChar (p := fun c => upper c = 'V' → c = 'V' ∨ c = 'v') (by decide +kernel)
      (hw.2 v (by simp)) hv
  obtain rfl : d = '0' :=
    forall_isNameChar (p := fun c => upper c = '0' → c = '0') (by decide +kernel)
      (hw.2 d (by simp)) hd
  exact Token.reg?_eq_some hLetter (by decide)

/-- A part that is always the same spells its token in every case of its letters. -/
theorem Token.spells_of_map_upper {t : Token} {w text : List Char} (ht : t.Plain)
    (hw : IsLexeme w) (hFixed : t.fixed? = some text) (h : w.map upper = text) :
    t.Spells w [] := by
  subst h
  cases t with
  | keyword word =>
      have hText := Option.some.inj hFixed
      refine spells_keyword (hw.resolve_left ?_) hText.symm
      rintro ⟨c, hc, rfl⟩
      have hUpper : (upper c).isUpper = true :=
        List.all_eq_true.1 ht.2.1 (upper c) (by simp [hText])
      have hNever : ∀ c ∈ marks, (upper c).isUpper = false := forall_mem_marks.2 (by decide)
      rw [hNever c hc] at hUpper
      cases hUpper
  | mark a =>
      obtain ⟨c, rfl, hUpper⟩ := List.map_eq_singleton_iff.1 (Option.some.inj hFixed).symm
      rw [eq_of_upper_eq_mark hw ht hUpper]
      exact spells_mark a
  | index =>
      obtain ⟨c, rfl, hUpper⟩ := List.map_eq_singleton_iff.1 (Option.some.inj hFixed).symm
      simp [Spells, readHere, hUpper, Cursor.advance]
  | v0 =>
      have hText := (Option.some.inj hFixed).symm
      have hWord : IsWord w := by
        refine hw.resolve_left ?_
        rintro ⟨c, -, rfl⟩
        exact absurd (congrArg List.length hText) (by simp)
      have hLength : w.length = 2 := by
        rw [← List.length_map, hText]
        rfl
      rw [Spells, readHere, if_pos (reg?_of_map_upper hWord hText), ← hLength, advance_word]
  | _ => cases hFixed

/-- However a part is written, it spells the token that stands for it. -/
theorem Token.Reads.spells {t : Token} {p : Part} {args : List Arg} {w : List Char}
    (h : t.Reads p args) (ht : t.Plain) (hw : IsLexeme w) (hWritten : p.Written w) :
    t.Spells w args := by
  cases h with
  | fixed hFixed =>
      cases hWritten with
      | fixed hUpper => exact spells_of_map_upper ht hw hFixed hUpper
  | reg hr => exact hWritten.spells_reg
  | number hn =>
      cases hWritten with
      | number hNumeral => exact isNumeral_spells hNumeral hn
  | address hn =>
      cases hWritten with
      | number hNumeral => exact spells_address_of_number (isNumeral_spells hNumeral hn)
  | label s =>
      cases hWritten with
      | name hName => exact hName.spells_address
  | operand hr => exact spells_regOrByte_of_reg hWritten.spells_reg
  | byte hn =>
      cases hWritten with
      | number hNumeral => exact spells_regOrByte_of_number (isNumeral_spells hNumeral hn)
  | name s =>
      cases hWritten with
      | name hName => exact hName.spells

/-! ## Statements -/

section Lexemes

variable {ts : List Token} {ps qs : List Part} {args : List Arg} {xs : List Lexeme}

/-- However parts are written, the first of the lexemes spell the tokens that stand for them. -/
theorem ReadsAll.exists_spellsAll (h : ReadsAll ts ps args) (hPlain : ∀ t ∈ ts, t.Plain)
    (hxs : ∀ x ∈ xs, IsLexeme x.chars)
    (hWritten : List.Forall₂ (fun p (x : Lexeme) => p.Written x.chars) (ps ++ qs) xs) :
    ∃ ys zs, xs = ys ++ zs ∧ SpellsAll ts ys args ∧
      List.Forall₂ (fun p (x : Lexeme) => p.Written x.chars) qs zs := by
  induction h generalizing xs with
  | nil => exact ⟨[], xs, rfl, .nil, hWritten⟩
  | @cons t ts p ps args more hFirst hRest ih =>
      obtain ⟨x, rest, hx, hOthers, rfl⟩ := List.forall₂_cons_left_iff.1 hWritten
      obtain ⟨ht, hts⟩ := List.forall_mem_cons.1 hPlain
      obtain ⟨hLexeme, hLexemes⟩ := List.forall_mem_cons.1 hxs
      obtain ⟨ys, zs, rfl, hSpells, hLeft⟩ := ih hts hLexemes hOthers
      exact ⟨x :: ys, zs, rfl, .cons (hFirst.spells ht hLexeme hx) hSpells, hLeft⟩

/-- However what follows the tokens is written, the lexemes spell it. -/
theorem Tail.Reads.spells {t : Tail} (h : t.Reads ps args) (hxs : ∀ x ∈ xs, IsLexeme x.chars)
    (hWritten : List.Forall₂ (fun p (x : Lexeme) => p.Written x.chars) ps xs) :
    t.Spells xs args := by
  cases h with
  | none =>
      cases hWritten
      exact .none
  | noRegister =>
      cases hWritten
      exact .noRegister
  | @register r hr =>
      rw [← List.append_nil [Part.comma, .reg r]] at hWritten
      have hReads : ReadsAll [Form.comma, .reg] [.comma, .reg r] [.reg r] :=
        .cons (.fixed rfl) (.cons (.reg hr) .nil)
      obtain ⟨ys, zs, rfl, hSpells, hEnd⟩ := hReads.exists_spellsAll (by decide) hxs hWritten
      cases hEnd
      rw [List.append_nil]
      exact .register hSpells
  | @numbers field ns hns =>
      induction ns generalizing xs with
      | nil =>
          cases hWritten
          exact .noNumber field
      | cons n ns ih =>
          obtain ⟨hn, hns⟩ := List.forall_mem_cons.1 hns
          have hReads : ReadsAll [Form.comma, .number field] [.comma, .number n] [.number n] :=
            .cons (.fixed rfl) (.cons (.number hn) .nil)
          have hPlain : ∀ t ∈ [Form.comma, .number field], t.Plain := by
            cases field <;> decide
          obtain ⟨ys, zs, rfl, hSpells, hRest⟩ :=
            hReads.exists_spellsAll hPlain hxs hWritten
          exact .number hSpells (ih (fun x hx => hxs x (List.mem_append_right ys hx)) hns hRest)

/-- However a statement is written, the lexemes spell it in the form that stands for its parts. -/
theorem Form.Reads.spells {f : Form} {s : Statement} (hf : f ≠ .unknown) (h : f.Reads ps s)
    (hxs : ∀ x ∈ xs, IsLexeme x.chars)
    (hWritten : List.Forall₂ (fun p (x : Lexeme) => p.Written x.chars) ps xs) :
    f.Spells xs s := by
  obtain ⟨hTokens, hTail, hStatement⟩ := h
  obtain ⟨ys, zs, rfl, hSpells, hRest⟩ :=
    hTokens.exists_spellsAll (Form.plain_of_mem_tokens hf) hxs hWritten
  exact .intro hSpells (hTail.spells (fun x hx => hxs x (List.mem_append_right ys hx)) hRest)
    hStatement

end Lexemes

/-! ## Programs -/

/-- However statements are written, the lexemes spell them. -/
theorem WrittenAll.spellsProgram {found : List Statement} {xs : List Lexeme}
    (h : WrittenAll found (xs.map Lexeme.chars)) (hxs : ∀ x ∈ xs, IsLexeme x.chars) :
    SpellsProgram xs found := by
  generalize hChars : xs.map Lexeme.chars = ws at h
  induction h generalizing xs with
  | nil =>
      obtain rfl := List.map_eq_nil_iff.1 hChars
      exact .nil
  | @cons s found ws rest hFirst hRest ih =>
      obtain ⟨ys, zs, rfl, rfl, rfl⟩ := List.map_eq_append_iff.1 hChars
      obtain ⟨hFits, ps, hConsists, hWritten⟩ := hFirst
      obtain ⟨f, hf, hReads⟩ := exists_form_reads_iff.2 ⟨hFits, hConsists⟩
      have hSpells := hReads.spells hf (fun x hx => hxs x (List.mem_append_left zs hx))
        (List.forall₂_map_right_iff.1 hWritten)
      exact .cons hf hSpells (ih (fun x hx => hxs x (List.mem_append_right ys hx)) rfl)

/-- A source has the statements that are written in it, whatever the spelling and the spacing: each
word is set off from the words next to it, and the last comment need not end. -/
theorem statements_of_writtenAll {source : String} {found : List Statement} {xs : List Lexeme}
    {trailing : List Char} (hSource : source.toList = textOf xs ++ trailing)
    (hSpaced : WellSpaced none xs) (hTrailing : Trailing trailing)
    (hWritten : WrittenAll found (xs.map Lexeme.chars)) : statements source = .ok found := by
  obtain ⟨ys, rest, hText, hChars, hSpacedTabs, hEnd⟩ :=
    exists_textOf_expandTabsFrom hSpaced hTrailing 0
  rw [← hChars] at hWritten
  rw [statements, Text.expandTabs, hSource, hText]
  exact statementsOfText_of_spells (hWritten.spellsProgram hSpacedTabs.isLexeme) hSpacedTabs hEnd

/-- A label that looks like a mnemonic, a jump to it, a shift with a second register and data, in
mixed case, with a tab, comments and a binary number. -/
theorem statements_of_writtenAll_mixed : ∃ xs trailing,
    "LD:jp\tv0 ,LD;x\nshr vA,V1 dB 0B01;".toList = textOf xs ++ trailing ∧ WellSpaced none xs ∧
      Trailing trailing ∧
      WrittenAll [.label "LD", .ref .jumpV0 "LD", .instr (.single .shiftRight ⟨0xA⟩), .bytes [1]]
        (xs.map Lexeme.chars) ∧
      statements "LD:jp\tv0 ,LD;x\nshr vA,V1 dB 0B01;" =
        .ok [.label "LD", .ref .jumpV0 "LD", .instr (.single .shiftRight ⟨0xA⟩), .bytes [1]] := by
  obtain ⟨xs, hxs⟩ : ∃ xs : List Lexeme, xs = [⟨[], ['L', 'D']⟩, ⟨[], [':']⟩, ⟨[], ['j', 'p']⟩,
      ⟨['\t'], ['v', '0']⟩, ⟨[' '], [',']⟩, ⟨[], ['L', 'D']⟩, ⟨[';', 'x', '\n'], ['s', 'h', 'r']⟩,
      ⟨[' '], ['v', 'A']⟩, ⟨[], [',']⟩, ⟨[], ['V', '1']⟩, ⟨[' '], ['d', 'B']⟩,
      ⟨[' '], ['0', 'B', '0', '1']⟩] := ⟨_, rfl⟩
  have hSource : "LD:jp\tv0 ,LD;x\nshr vA,V1 dB 0B01;".toList = textOf xs ++ [';'] := by
    subst hxs
    decide
  have hSpaced : WellSpaced none xs := by
    have hSpace : Trivia [' '] := .blank (by decide) .nil
    have hTab : Trivia ['\t'] := .blank (by decide) .nil
    have hComment : Trivia [';', 'x', '\n'] := .comment (by decide : '\n' ∉ ['x']) .nil
    subst hxs
    simp only [WellSpaced, Trivia.nil, hSpace, hTab, hComment, true_and, and_true]
    decide
  have hTrailing : Trailing [';'] := .inr ⟨[], [], .nil, List.not_mem_nil, rfl⟩
  have hWritten : WrittenAll
      [.label "LD", .ref .jumpV0 "LD", .instr (.single .shiftRight ⟨0xA⟩), .bytes [1]]
      (xs.map Lexeme.chars) := by
    have hFixed : ∀ text w : List Char, w.map upper = text → (Part.fixed text).Written w :=
      fun _ _ h => .fixed h
    have hName : (Part.name "LD").Written ['L', 'D'] :=
      .name (w := ['L', 'D']) ⟨'L', ['D'], rfl, by decide, List.forall_mem_singleton.2 (by decide)⟩
    have hNumber : (Part.number 1).Written ['0', 'B', '0', '1'] :=
      .number (n := 1) (.bin (.inr rfl)
        (.snoc (n := 0) (d := 1) (.single (by decide) (by decide)) (by decide) (by decide)))
    have hReg : (Part.reg ⟨0xA⟩).Written ['v', 'A'] := .reg (d := 0xA) (.inr rfl) (by decide)
    have hOther : (Part.reg ⟨1⟩).Written ['V', '1'] := .reg (d := 1) (.inl rfl) (by decide)
    subst hxs
    show WrittenAll _ ([['L', 'D'], [':']] ++ ([['j', 'p'], ['v', '0'], [','], ['L', 'D']] ++
      ([['s', 'h', 'r'], ['v', 'A'], [','], ['V', '1']] ++ ([['d', 'B'], ['0', 'B', '0', '1']] ++ []))))
    refine .cons ⟨trivial, _, .plain _, ?_⟩ (.cons ⟨trivial, _, .plain _, ?_⟩
      (.cons ⟨Reg.exists_ofSlot 0xA, _, .shift _ (.inl rfl) (Reg.exists_ofSlot 1), ?_⟩
        (.cons ⟨⟨List.cons_ne_nil _ _, by decide⟩, _, .plain _, ?_⟩ .nil)))
    · exact .cons hName (.cons (hFixed _ _ rfl) .nil)
    · exact .cons (hFixed _ _ rfl) (.cons (hFixed _ _ rfl) (.cons (hFixed _ _ rfl)
        (.cons hName .nil)))
    · exact .cons (hFixed _ _ rfl) (.cons hReg (.cons (hFixed _ _ rfl) (.cons hOther .nil)))
    · exact .cons (hFixed _ _ rfl) (.cons hNumber .nil)
  exact ⟨xs, [';'], hSource, hSpaced, hTrailing, hWritten,
    statements_of_writtenAll hSource hSpaced hTrailing hWritten⟩

end Chip8.Assembly
