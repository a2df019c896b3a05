import Chip8.Proofs.Assembly.Spacing

/-!
# Spelling

A token is spelled by a lexeme if it is read there to the end, and it misses a lexeme if it is not
read there at all.  From the lexemes of a source alone it follows whether a sequence of tokens is read
(`readAll_of_spellsAll`) or not (`readAll_of_missesAll`).  Whatever the spelling of one token, some
others are known to miss it: `Token.clashes` lists what the grammar needs of this.
-/

namespace Chip8.Assembly

open Text

/-- The text is a word or a mark. -/
def IsLexeme (w : List Char) : Prop := IsMark w ∨ IsWord w

namespace Token

/-- The text is a way to write the token, and says `args`. -/
def Spells (t : Token) (w : List Char) (args : List Arg) : Prop :=
  t.readHere ⟨none, w⟩ = .hit args ⟨w.getLast?, []⟩

/-- The token cannot be read at the text. -/
def Misses (t : Token) (w : List Char) : Prop :=
  t.readHere ⟨none, w⟩ = .miss

theorem not_spells_of_misses {t : Token} {w : List Char} {args : List Arg} (h : t.Misses w) :
    ¬t.Spells w args := by
  rw [Misses] at h
  rw [Spells, h]
  exact fun hSpells => nomatch hSpells

end Token

/-- The lexemes are a way to write the tokens one after the other, and say `args`. -/
inductive SpellsAll : List Token → List Lexeme → List Arg → Prop where
  | nil : SpellsAll [] [] []
  | cons {t : Token} {ts : List Token} {x : Lexeme} {xs : List Lexeme} {args more : List Arg}
      (hFirst : t.Spells x.chars args) (hRest : SpellsAll ts xs more) :
      SpellsAll (t :: ts) (x :: xs) (args ++ more)

/-- The tokens cannot be read at the lexemes: one of them is not there, and those before it are. -/
inductive MissesAll : List Token → List Lexeme → Prop where
  | atEnd (t : Token) (ts : List Token) : MissesAll (t :: ts) []
  | here {t : Token} (ts : List Token) {x : Lexeme} (xs : List Lexeme)
      (hFirst : t.Misses x.chars) : MissesAll (t :: ts) (x :: xs)
  | later {t : Token} {ts : List Token} {x : Lexeme} {xs : List Lexeme} {args : List Arg}
      (hFirst : t.Spells x.chars args) (hRest : MissesAll ts xs) : MissesAll (t :: ts) (x :: xs)

section Reading

variable {ts : List Token} {xs ys : List Lexeme} {args : List Arg} {before : Option Char}
  {trailing : List Char}

/-- Tokens are read where they are spelled, and what comes after them is left. -/
theorem readAll_of_spellsAll (hPlain : ∀ t ∈ ts, t.Plain) (h : SpellsAll ts xs args)
    (hSpaced : WellSpaced before (xs ++ ys)) (hTrailing : Trailing trailing) :
    ∃ last, WellSpaced last ys ∧
      Token.readAll ts ⟨before, textOf (xs ++ ys) ++ trailing⟩ =
        .hit args ⟨last, textOf ys ++ trailing⟩ := by
  induction h generalizing before with
  | nil => exact ⟨before, hSpaced, rfl⟩
  | @cons t ts x xs args more hFirst hRest ih =>
      rw [List.cons_append] at hSpaced ⊢
      have hRead := Token.read_textOf_cons (hPlain t List.mem_cons_self) hSpaced hTrailing
      rw [hFirst] at hRead
      obtain ⟨last, hLast, hOthers⟩ :=
        ih (fun u hu => hPlain u (List.mem_cons_of_mem t hu)) hSpaced.2.2
      refine ⟨last, hLast, ?_⟩
      rw [Token.readAll, hRead]
      show (Token.readAll ts ⟨x.chars.getLast?, textOf (xs ++ ys) ++ trailing⟩).map _ = _
      rw [hOthers]
      rfl

/-- Tokens that miss the lexemes are not read. -/
theorem readAll_of_missesAll (hPlain : ∀ t ∈ ts, t.Plain) (h : MissesAll ts xs)
    (hSpaced : WellSpaced before xs) (hTrailing : Trailing trailing) :
    Token.readAll ts ⟨before, textOf xs ++ trailing⟩ = .miss := by
  induction h generalizing before with
  | atEnd t ts =>
      rw [Token.readAll]
      show (t.read ⟨before, trailing⟩).andThen _ = _
      rw [Token.read_trailing t before hTrailing]
      rfl
  | @here t ts x xs hFirst =>
      rw [Token.readAll, Token.read_textOf_cons (hPlain t List.mem_cons_self) hSpaced hTrailing,
        hFirst]
      rfl
  | @later t ts x xs args hFirst hRest ih =>
      have hOthers := ih (fun u hu => hPlain u (List.mem_cons_of_mem t hu)) hSpaced.2.2
      rw [Token.readAll, Token.read_textOf_cons (hPlain t List.mem_cons_self) hSpaced hTrailing,
        hFirst]
      show (Token.readAll ts ⟨x.chars.getLast?, textOf xs ++ trailing⟩).map _ = _
      rw [hOthers]
      rfl

end Reading

/-! ## Spellings of the tokens -/

namespace Token

variable {w : List Char} {args : List Arg}

theorem advance_length (before : Option Char) (w : List Char) :
    (⟨before, w⟩ : Cursor).advance w.length = ⟨w.getLast?.or before, []⟩ := by
  induction w generalizing before with
  | nil => rfl
  | cons c w ih =>
      rw [List.length_cons, Cursor.advance, ih, List.getLast?_cons]
      cases w.getLast? <;> rfl

theorem advance_word (w : List Char) :
    (⟨none, w⟩ : Cursor).advance w.length = ⟨w.getLast?, []⟩ := by
  rw [advance_length, Option.or_none]

theorem spells_keyword {word : String} (hw : IsWord w) (h : w.map upper = word.toList) :
    (keyword word).Spells w [] := by
  have hLength : word.toList.length = w.length := by rw [← h, List.length_map]
  rw [Spells, readHere, atKeyword_alone hw, decide_eq_true h, hLength,
    advance_word]
  rfl

theorem misses_keyword {word : String} (hw : IsWord w) (h : w.map upper ≠ word.toList) :
    (keyword word).Misses w := by
  rw [Misses, readHere, atKeyword_alone hw, decide_eq_false h]
  rfl

/-! ### Marks -/

theorem spells_mark (a : Char) : (mark a).Spells [a] [] := by
  simp [Spells, readHere, Cursor.advance]

theorem misses_mark_of_ne {a b : Char} (h : a ≠ b) : (mark a).Misses [b] := by
  simp [Misses, readHere, h.symm]

theorem misses_mark_of_isWord {a : Char} (ha : a ∈ marks) (hw : IsWord w) : (mark a).Misses w := by
  obtain ⟨hne, hChars⟩ := hw
  obtain ⟨c, w, rfl⟩ := List.exists_cons_of_ne_nil hne
  have hNe : c ≠ a := by
    rintro rfl
    exact notMem_delimiters_of_isNameChar (hChars c List.mem_cons_self)
      (mem_delimiters_of_mem_marks ha)
  simp [Misses, readHere, hNe]

/-- At a mark only a mark is read. -/
theorem misses_of_isMark {t : Token} (ht : t.Plain) (hMark : ∀ a, t ≠ .mark a) (hw : IsMark w) :
    t.Misses w := by
  obtain ⟨c, hc, rfl⟩ := hw
  refine readHere_of_clear ht hMark ?_
  intro d hd
  cases hd
  exact mem_delimiters_of_mem_marks hc

theorem isWord_of_spells {t : Token} (ht : t.Plain) (hMark : ∀ a, t ≠ .mark a) (hw : IsLexeme w)
    (h : t.Spells w args) : IsWord w := by
  rcases hw with hw | hw
  · exact absurd h (not_spells_of_misses (misses_of_isMark ht hMark hw))
  · exact hw

/-! ### Registers -/

/-- A word that names a register is a `V` and a hexadecimal digit. -/
theorem exists_of_reg? {r : Reg} (hw : IsWord w) (h : Cursor.reg? ⟨none, w⟩ = some r) :
    ∃ v d, w = [v, d] ∧ (v = 'V' ∨ v = 'v') ∧ isHexDigit d = true ∧ r = ⟨digitValue d⟩ := by
  obtain ⟨v, d, rest, hText, hv, hd, hEnd, rfl⟩ := reg?_eq_some_iff.1 h
  obtain rfl : w = v :: d :: rest := hText
  cases rest with
  | nil => exact ⟨v, d, rfl, hv, hd, rfl⟩
  | cons e rest =>
      have hNot : isWordChar e = false := hEnd
      rw [isWordChar_of_isNameChar (hw.2 e (by simp))] at hNot
      cases hNot

theorem reg?_eq_some {v d : Char} (hv : v = 'V' ∨ v = 'v') (hd : isHexDigit d = true) :
    Cursor.reg? ⟨none, [v, d]⟩ = some ⟨digitValue d⟩ := by
  simp [Cursor.reg?, hv, hd]

theorem exists_reg?_of_readReg {c next : Cursor} (h : c.readReg = .hit args next) :
    ∃ r, c.reg? = some r := by
  unfold Cursor.readReg at h
  split at h
  · next r hr => exact ⟨r, hr⟩
  · cases h

theorem misses_reg (h : Cursor.reg? ⟨none, w⟩ = none) : reg.Misses w := by
  rw [Misses, readHere, Cursor.readReg, h]

theorem misses_v0 (h : Cursor.reg? ⟨none, w⟩ ≠ some ⟨0⟩) : v0.Misses w := by
  rw [Misses, readHere, if_neg h]

/-! ### Numbers -/

/-- A numeral begins with a digit. -/
theorem isDigit_of_ofText? {c : Char} {n : Numeral} (h : Numeral.ofText? (c :: w) = some n) :
    c.isDigit = true := by
  by_cases hZero : c = '0'
  · subst hZero
    decide
  · rw [Numeral.ofText?, hex?_eq_marked?, bin?_eq_marked?, marked?_of_ne hZero,
      marked?_of_ne hZero, Option.none_or, Option.none_or] at h
    by_cases hDigit : c.isDigit = true
    · exact hDigit
    · simp [Numeral.dec?, hDigit] at h

theorem exists_ofText?_of_readNumber {field : Field} {c next : Cursor}
    (h : c.readNumber field = .hit args next) : ∃ n, Numeral.ofText? c.rest = some n := by
  unfold Cursor.readNumber at h
  split at h
  · cases h
  · next n hn => exact ⟨n, hn⟩

theorem ofText?_ne_none_of_spells_number {field : Field} (h : (number field).Spells w args) :
    Numeral.ofText? w ≠ none := by
  intro hNone
  rw [Spells, readHere, Cursor.readNumber] at h
  simp only [hNone] at h
  cases h

/-- No number is the name of a register. -/
theorem reg?_of_ofText? (h : Numeral.ofText? w ≠ none) : Cursor.reg? ⟨none, w⟩ = none := by
  obtain ⟨n, hn⟩ := Option.ne_none_iff_exists'.1 h
  match w with
  | [] => rfl
  | [c] => rfl
  | c :: d :: w =>
      have hDigit := isDigit_of_ofText? hn
      have hLetter : c ≠ 'V' ∧ c ≠ 'v' := by
        constructor
        all_goals
          rintro rfl
          exact absurd hDigit (by decide)
      simp [Cursor.reg?, hLetter.1, hLetter.2]

/-! ### Names -/

theorem spells_name (hw : IsWord w) (hStart : w.head?.any Cursor.isNameStart = true) :
    name.Spells w [.text (String.ofList w)] := by
  have hName : Cursor.name ⟨none, w⟩ = w := by
    rw [Cursor.name, if_pos hStart]
    exact List.takeWhile_eq_self_iff.2 hw.2
  rw [Spells, readHere, hName, Cursor.readText, if_neg (by simpa using hw.1), advance_word]

theorem misses_name (hStart : w.head?.any Cursor.isNameStart = false) : name.Misses w := by
  rw [Misses, readHere, Cursor.name, if_neg (by simp [hStart])]
  rfl

/-! ## Tokens that miss the spellings of others -/

/-- Whether the token is a mark. -/
def isMark : Token → Bool
  | .mark _ => true
  | _ => false

/-- Whether the first token misses all spellings of the second. -/
def clashes : Token → Token → Bool
  | .keyword k, .keyword l => k != l
  | .keyword _, .reg => true
  | .keyword _, .regOrByte => true
  | .mark a, .mark b => a != b
  | g, t => g.isMark != t.isMark

/-- Whether every lexeme is missed by the token or spells it. -/
def settled : Token → Bool
  | .keyword _ => true
  | .mark _ => true
  | .v0 => true
  | .reg => true
  | .name => true
  | _ => false

theorem isMark_eq_true_iff {t : Token} : t.isMark = true ↔ ∃ a, t = .mark a := by
  cases t <;> simp [isMark]

/-- No keyword of the grammar stands where a register does. -/
theorem not_keywordAt_of_reg? {word : String} {c : Cursor} {r : Reg} (ht : (keyword word).Plain)
    (h : c.reg? = some r) : ¬KeywordAt word.toList c.rest := by
  obtain ⟨v, d, rest, hText, hv, hd, hEnd, -⟩ := reg?_eq_some_iff.1 h
  obtain ⟨hne, hUpper, hNoReg⟩ := ht
  rw [hText]
  generalize word.toList = k at *
  intro hAt
  match k with
  | [] => exact hne rfl
  | [a] =>
      -- The word would end where the digit stands.
      obtain ⟨-, -, hDigit⟩ := keywordAt_cons_iff.1 hAt
      have hName := isKeywordChar_upper_of_isNameChar (isNameChar_of_isHexDigit hd)
      have hNot : isKeywordChar (upper d) = false := hDigit
      rw [hName] at hNot
      cases hNot
  | [a, b] =>
      obtain ⟨rfl, hSecond⟩ := keywordAt_cons_iff.1 hAt
      obtain ⟨rfl, -⟩ := keywordAt_cons_iff.1 hSecond
      have hLetter : upper v = 'V' := by
        rcases hv with rfl | rfl
        · decide
        · decide
      rw [reg?_eq_some (.inl hLetter) (isHexDigit_upper hd)] at hNoReg
      cases hNoReg
  | a :: b :: x :: k =>
      -- The word would go on after the digit, and a register ends there.
      obtain ⟨-, hSecond⟩ := keywordAt_cons_iff.1 hAt
      obtain ⟨-, hThird⟩ := keywordAt_cons_iff.1 hSecond
      cases rest with
      | nil => exact absurd hThird.length_le (Nat.not_succ_le_zero _)
      | cons e rest =>
          obtain ⟨rfl, -⟩ := keywordAt_cons_iff.1 hThird
          have hCapital : (upper e).isUpper = true := List.all_eq_true.1 hUpper _ (by simp)
          have hNot : isWordChar e = false := hEnd
          rw [isWordChar_of_isUpper_upper hCapital] at hNot
          cases hNot

/-- No keyword of the grammar stands where a number does. -/
theorem not_keywordAt_of_ofText? {word : String} {text : List Char} {n : Numeral}
    (ht : (keyword word).Plain) (h : Numeral.ofText? text = some n) :
    ¬KeywordAt word.toList text := by
  intro hAt
  obtain ⟨a, k, hWord⟩ := List.exists_cons_of_ne_nil ht.1
  have hUpper : a.isUpper = true := List.all_eq_true.1 ht.2.1 a (by simp [hWord])
  rw [hWord] at hAt
  cases text with
  | nil => exact absurd hAt.length_le (Nat.not_succ_le_zero _)
  | cons c text =>
      obtain ⟨rfl, -⟩ := keywordAt_cons_iff.1 hAt
      have hDigit := isDigit_of_ofText? h
      have hName : Cursor.isNameChar c = true := by
        rw [Cursor.isNameChar, Char.isAlphanum, hDigit, Bool.or_true, Bool.true_or]
      have hNever : c.isDigit = true → ¬(upper c).isUpper = true :=
        forall_isNameChar (p := fun c => c.isDigit = true → ¬(upper c).isUpper = true)
          (by decide +kernel) hName
      exact hNever hDigit hUpper

theorem readHere_keyword_of_not {word : String} {c : Cursor} (h : ¬KeywordAt word.toList c.rest) :
    (keyword word).readHere c = .miss := by
  have hAt : ¬c.atKeyword word.toList = true := fun hAt => h (atKeyword_eq_true_iff.1 hAt).2.1
  rw [readHere, if_neg hAt]

theorem keywordAt_of_readHere {word : String} {c next : Cursor}
    (h : (keyword word).readHere c = .hit args next) : KeywordAt word.toList c.rest := by
  rw [readHere] at h
  split at h
  · next hAt => exact (atKeyword_eq_true_iff.1 hAt).2.1
  · cases h

theorem head?_of_readHere_mark {a : Char} {c next : Cursor}
    (h : (mark a).readHere c = .hit args next) : c.rest.head? = some a := by
  rw [readHere] at h
  split at h
  · next hHead => exact hHead
  · cases h

theorem readHere_mark_of_ne {a : Char} {c : Cursor} (h : c.rest.head? ≠ some a) :
    (mark a).readHere c = .miss := by
  rw [readHere, if_neg h]

/-- What is read where a mark stands is a mark. -/
theorem isMark_of_readHere {t : Token} {a : Char} {c next : Cursor} (ht : t.Plain) (ha : a ∈ marks)
    (hHead : c.rest.head? = some a) (h : t.readHere c = .hit args next) : t.isMark = true := by
  by_contra hMark
  have hClear : Clear c.rest.head? := by
    rw [hHead, clear_some]
    exact mem_delimiters_of_mem_marks ha
  have hMiss : t.readHere c = .miss :=
    readHere_of_clear ht (fun b hb => hMark (isMark_eq_true_iff.2 ⟨b, hb⟩)) hClear
  rw [hMiss] at h
  cases h

/-- Where a token is read, those that clash with it are not. -/
theorem readHere_of_clashes {g t : Token} (h : g.clashes t = true) (hg : g.Plain) (ht : t.Plain)
    {c next : Cursor} (hHit : t.readHere c = .hit args next) : g.readHere c = .miss := by
  unfold clashes at h
  split at h
  · next k l =>
      refine readHere_keyword_of_not fun hAt => bne_iff_ne.1 h ?_
      exact String.toList_inj.1 (eq_of_keywordAt hg.isKeywordChar ht.isKeywordChar hAt
        (keywordAt_of_readHere hHit))
  · next k =>
      obtain ⟨r, hr⟩ := exists_reg?_of_readReg hHit
      exact readHere_keyword_of_not (not_keywordAt_of_reg? hg hr)
  · next k =>
      rw [readHere, Attempt.orElse_eq_hit_iff] at hHit
      rcases hHit with hReg | ⟨-, hByte⟩
      · obtain ⟨r, hr⟩ := exists_reg?_of_readReg hReg
        exact readHere_keyword_of_not (not_keywordAt_of_reg? hg hr)
      · obtain ⟨n, hn⟩ := exists_ofText?_of_readNumber hByte
        exact readHere_keyword_of_not (not_keywordAt_of_ofText? hg hn)
  · next a b =>
      refine readHere_mark_of_ne ?_
      rw [head?_of_readHere_mark hHit]
      exact fun hSame => bne_iff_ne.1 h (Option.some.inj hSame).symm
  · -- Of the others one is a mark, and where that one stands the other is not read.
    next hOther =>
      by_cases hMark : g.isMark = true
      · obtain ⟨a, rfl⟩ := isMark_eq_true_iff.1 hMark
        refine readHere_mark_of_ne fun hHead => ?_
        rw [isMark_of_readHere ht hg hHead hHit] at h
        cases h
      · have hTarget : t.isMark = true := by
          simpa [hMark] using h
        obtain ⟨b, rfl⟩ := isMark_eq_true_iff.1 hTarget
        have hClear : Clear c.rest.head? := by
          rw [head?_of_readHere_mark hHit, clear_some]
          exact mem_delimiters_of_mem_marks ht
        exact readHere_of_clear hg (fun a ha => hMark (isMark_eq_true_iff.2 ⟨a, ha⟩)) hClear

theorem spells_or_misses {g : Token} (h : g.settled = true) (hg : g.Plain) (hw : IsLexeme w) :
    (∃ args, g.Spells w args) ∨ g.Misses w := by
  by_cases hMark : g.isMark = true
  · obtain ⟨a, rfl⟩ := isMark_eq_true_iff.1 hMark
    rcases hw with ⟨b, -, rfl⟩ | hw
    · by_cases hEq : a = b
      · subst hEq
        exact .inl ⟨[], spells_mark a⟩
      · exact .inr (misses_mark_of_ne hEq)
    · exact .inr (misses_mark_of_isWord hg hw)
  · rcases hw with hw | hw
    · exact .inr (misses_of_isMark hg (fun a ha => hMark (isMark_eq_true_iff.2 ⟨a, ha⟩)) hw)
    · cases g with
      | keyword word =>
          by_cases hWord : w.map upper = word.toList
          · exact .inl ⟨[], spells_keyword hw hWord⟩
          · exact .inr (misses_keyword hw hWord)
      | v0 =>
          by_cases hReg : Cursor.reg? ⟨none, w⟩ = some ⟨0⟩
          · obtain ⟨v, d, rfl, -⟩ := exists_of_reg? hw hReg
            refine .inl ⟨[], ?_⟩
            rw [Spells, readHere, if_pos hReg]
            rfl
          · exact .inr (misses_v0 hReg)
      | reg =>
          cases hReg : Cursor.reg? ⟨none, w⟩ with
          | none => exact .inr (misses_reg hReg)
          | some r =>
              obtain ⟨v, d, rfl, -⟩ := exists_of_reg? hw hReg
              refine .inl ⟨[.reg r], ?_⟩
              rw [Spells, readHere, Cursor.readReg, hReg]
              rfl
      | name =>
          by_cases hStart : w.head?.any Cursor.isNameStart = true
          · exact .inl ⟨_, spells_name hw hStart⟩
          · exact .inr (misses_name (by simpa using hStart))
      | mark a => exact absurd rfl hMark
      | _ => cases h

end Token

/-- Whether tokens that are tried miss the lexemes of a statement with the tokens `ts`.  At the end
of the statement a mark misses the word with which the next one begins, unless more of the statement
may follow there. -/
def clashesAll (atEnd : Bool) : List Token → List Token → Bool
  | [], _ => false
  | .mark _ :: _, [] => atEnd
  | _ :: _, [] => false
  | g :: gs, t :: ts => g.clashes t || (g.settled && clashesAll atEnd gs ts)

theorem missesAll_of_clashesAll {atEnd : Bool} {gs ts : List Token} {xs ys : List Lexeme}
    {args : List Arg} (hgs : ∀ g ∈ gs, g.Plain) (hts : ∀ t ∈ ts, t.Plain)
    (h : clashesAll atEnd gs ts = true) (hSpells : SpellsAll ts xs args)
    (hxs : ∀ x ∈ xs, IsLexeme x.chars)
    (hEnd : atEnd = true → ∀ y ∈ ys.head?, IsWord y.chars) : MissesAll gs (xs ++ ys) := by
  induction hSpells generalizing gs with
  | nil =>
      -- The statement is over, and a mark is looked for where the next one begins, if there is one.
      cases gs with
      | nil => cases h
      | cons g gs =>
          by_cases hMark : g.isMark = true
          · obtain ⟨a, rfl⟩ := Token.isMark_eq_true_iff.1 hMark
            cases ys with
            | nil => exact .atEnd _ _
            | cons y ys =>
                exact .here _ _ (Token.misses_mark_of_isWord (hgs _ List.mem_cons_self)
                  (hEnd h y rfl))
          · cases g with
            | mark a => exact absurd rfl hMark
            | _ => cases h
  | @cons t ts x xs args more hFirst hRest ih =>
      cases gs with
      | nil => cases h
      | cons g gs =>
          have hg : g.Plain := hgs g List.mem_cons_self
          have hx : IsLexeme x.chars := hxs x List.mem_cons_self
          simp only [clashesAll, Bool.or_eq_true, Bool.and_eq_true] at h
          rcases h with hClash | ⟨hSettled, hOthers⟩
          · exact .here _ _ (Token.readHere_of_clashes hClash hg (hts t List.mem_cons_self) hFirst)
          · -- Should `g` be there all the same, one of the later tokens is not.
            rcases Token.spells_or_misses hSettled hg hx with ⟨found, hFound⟩ | hMiss
            · exact .later hFound (ih (fun u hu => hgs u (List.mem_cons_of_mem g hu))
                (fun u hu => hts u (List.mem_cons_of_mem t hu)) hOthers
                fun u hu => hxs u (List.mem_cons_of_mem x hu))
            · exact .here _ _ hMiss

end Chip8.Assembly
