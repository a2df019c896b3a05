import Chip8.Assembly.Assemble
import Chip8.Proofs.Assembly.Layout
import Chip8.Proofs.Assembly.Parts

/-!
# What a source consists of

What is read of a source is what is written there.  Each token that is read takes the characters of
one lexeme, with trivia before it, and the statement that is made of the tokens is one that these
lexemes are a way to write.  So a source that is assembled consists of statements and trivia to its
last character, and its bytes are those of just these statements (`assemble_accounts_for_source`).
-/

namespace Chip8.Assembly

open Text

/-! ## Lexemes that cover a text -/

/-- The lexeme is not part of a longer one: it is a mark, or no letter, digit or underscore comes
after it, or it is a numeral and no longer one begins there. -/
def StandsAlone (w rest : List Char) : Prop :=
  IsMark w ∨ (∀ c ∈ rest.head?, Cursor.isNameChar c = false) ∨
    (∃ n, IsNumeral w n) ∧ ∀ v n, IsNumeral v n → v <+: w ++ rest → v.length ≤ w.length

/-- Each of the lexemes stands alone in the text that goes on with `rest`. -/
def StandAlone : List Lexeme → List Char → Prop
  | [], _ => True
  | x :: xs, rest => StandsAlone x.chars (textOf xs ++ rest) ∧ StandAlone xs rest

/-- The lexemes make up the text as far as `rest`, with trivia between them. -/
structure Covers (text : List Char) (xs : List Lexeme) (rest : List Char) : Prop where
  text_eq : text = textOf xs ++ rest
  trivia : ∀ x ∈ xs, Trivia x.gap
  alone : StandAlone xs rest

namespace Covers

variable {text mid rest : List Char} {xs ys : List Lexeme}

theorem nil (text : List Char) : Covers text [] text :=
  ⟨rfl, fun _ hx => (nomatch hx), trivial⟩

theorem cons {x : Lexeme} (hGap : Trivia x.gap) (hAlone : StandsAlone x.chars mid)
    (h : Covers mid xs rest) : Covers (x.gap ++ (x.chars ++ mid)) (x :: xs) rest where
  text_eq := by rw [textOf_cons, h.text_eq, List.append_assoc, List.append_assoc]
  trivia := List.forall_mem_cons.2 ⟨hGap, h.trivia⟩
  alone := ⟨h.text_eq ▸ hAlone, h.alone⟩

theorem append (hxs : Covers text xs mid) (hys : Covers mid ys rest) :
    Covers text (xs ++ ys) rest := by
  induction xs generalizing text with
  | nil =>
      obtain ⟨rfl, -, -⟩ := hxs
      exact hys
  | cons x xs ih =>
      obtain ⟨rfl, hTrivia, hAlone, hOthers⟩ := hxs
      obtain ⟨hGap, hGaps⟩ := List.forall_mem_cons.1 hTrivia
      rw [textOf_cons, List.append_assoc, List.append_assoc]
      exact cons hGap hAlone (ih ⟨rfl, hGaps, hOthers⟩)

end Covers

/-! ## Trivia that is skipped -/

/-- The text is what may stand before `rest`. -/
def GapBefore (rest gap : List Char) : Prop := Trivia gap ∨ rest = [] ∧ Trailing gap

theorem Trailing.blank {c : Char} {text : List Char} (hc : isBlank c = true) (h : Trailing text) :
    Trailing (c :: text) := by
  rcases h with h | ⟨gap, body, hGap, hBody, rfl⟩
  · exact .inl (.blank hc h)
  · exact .inr ⟨c :: gap, body, .blank hc hGap, hBody, rfl⟩

theorem Trailing.comment {body text : List Char} (hBody : '\n' ∉ body) (h : Trailing text) :
    Trailing (';' :: (body ++ '\n' :: text)) := by
  rcases h with h | ⟨gap, last, hGap, hLast, rfl⟩
  · exact .inl (.comment hBody h)
  · refine .inr ⟨';' :: (body ++ '\n' :: gap), last, .comment hBody hGap, hLast, ?_⟩
    simp

theorem GapBefore.blank {c : Char} {rest gap : List Char} (hc : isBlank c = true)
    (h : GapBefore rest gap) : GapBefore rest (c :: gap) :=
  h.imp (.blank hc) fun h => ⟨h.1, h.2.blank hc⟩

theorem GapBefore.comment {body rest gap : List Char} (hBody : '\n' ∉ body)
    (h : GapBefore rest gap) : GapBefore rest (';' :: (body ++ '\n' :: gap)) :=
  h.imp (.comment hBody) fun h => ⟨h.1, h.2.comment hBody⟩

/-- What is skipped is trivia, or the end of the source.  Inside a comment this is said of the whole
comment, of which `body` has been passed. -/
theorem exists_gapBefore_skipFrom (text : List Char) (before : Option Char) :
    (∃ gap, text = gap ++ (Cursor.skipFrom false before text).rest ∧
      GapBefore (Cursor.skipFrom false before text).rest gap) ∧
    ∀ body, '\n' ∉ body →
      ∃ gap, text = gap ++ (Cursor.skipFrom true before text).rest ∧
        GapBefore (Cursor.skipFrom true before text).rest (';' :: (body ++ gap)) := by
  induction text generalizing before with
  | nil =>
      refine ⟨⟨[], rfl, .inl .nil⟩, fun body hBody => ⟨[], rfl, .inr ⟨rfl, ?_⟩⟩⟩
      exact .inr ⟨[], body, .nil, hBody, by simp⟩
  | cons c text ih =>
      constructor
      · by_cases hBlank : isBlank c = true
        · obtain ⟨gap, hText, hGap⟩ := (ih (some c)).1
          simp only [Cursor.skipFrom, hBlank, if_true, Bool.false_eq_true, if_false]
          exact ⟨c :: gap, congrArg (List.cons c) hText, hGap.blank hBlank⟩
        · by_cases hComment : c = ';'
          · subst hComment
            obtain ⟨gap, hText, hGap⟩ := (ih (some ';')).2 [] List.not_mem_nil
            simp only [Cursor.skipFrom, hBlank, if_true, Bool.false_eq_true, if_false]
            exact ⟨';' :: gap, congrArg (List.cons ';') hText, hGap⟩
          · simp only [Cursor.skipFrom, hBlank, hComment, Bool.false_eq_true, if_false]
            exact ⟨[], rfl, .inl .nil⟩
      · intro body hBody
        by_cases hEnd : c = '\n'
        · subst hEnd
          obtain ⟨gap, hText, hGap⟩ := (ih (some '\n')).1
          simp only [Cursor.skipFrom, if_true, ne_eq, not_true_eq_false, decide_false]
          exact ⟨'\n' :: gap, congrArg (List.cons '\n') hText, hGap.comment hBody⟩
        · have hMore : '\n' ∉ body ++ [c] := by simp [hBody, Ne.symm hEnd]
          obtain ⟨gap, hText, hGap⟩ := (ih (some c)).2 (body ++ [c]) hMore
          simp only [Cursor.skipFrom, if_true, ne_eq, hEnd, not_false_eq_true, decide_true]
          rw [List.append_assoc] at hGap
          exact ⟨c :: gap, congrArg (List.cons c) hText, hGap⟩

theorem exists_gapBefore_skip (c : Cursor) :
    ∃ gap, c.rest = gap ++ c.skip.rest ∧ GapBefore c.skip.rest gap :=
  (exists_gapBefore_skipFrom c.rest c.before).1

/-! ## Tokens -/

theorem standsAlone_of_head? {p : Char → Bool} (hp : ∀ c, Cursor.isNameChar c = true → p c = true)
    {rest : List Char} (h : rest.head?.any p = false) (w : List Char) : StandsAlone w rest := by
  refine .inr (.inl fun c hc => Bool.eq_false_iff.2 fun hChar => ?_)
  rw [Option.mem_def.1 hc] at h
  exact absurd (hp c hChar) (Bool.eq_false_iff.1 h)

/-- What is read as a keyword is one, and no name goes on after it. -/
theorem exists_written_of_atKeyword {c : Cursor} {word : List Char}
    (h : c.atKeyword word = true) : ∃ w, (Part.fixed word).Written w ∧
      c.rest = w ++ (c.advance word.length).rest ∧ StandsAlone w (c.advance word.length).rest := by
  simp only [Cursor.atKeyword, Bool.and_eq_true, decide_eq_true_eq, Bool.not_eq_true'] at h
  obtain ⟨⟨⟨-, hWord⟩, -⟩, hEnd⟩ := h
  rw [Cursor.rest_advance]
  refine ⟨c.rest.take word.length, .fixed hWord, (List.take_append_drop _ _).symm, ?_⟩
  exact standsAlone_of_head? (fun _ => isKeywordChar_upper_of_isNameChar) hEnd _

/-- A single character is read as itself in capitals. -/
theorem written_of_head? {c : Cursor} {a : Char} (h : c.rest.head? = some a) :
    (Part.fixed [upper a]).Written [a] ∧ c.rest = [a] ++ (c.advance 1).rest := by
  obtain ⟨rest, hText⟩ := List.head?_eq_some_iff.1 h
  rw [Cursor.rest_advance, hText]
  exact ⟨.fixed rfl, rfl⟩

/-- What is read as a register is one. -/
theorem exists_written_of_reg? {c : Cursor} {r : Reg} (h : c.reg? = some r) : r.Exists ∧
    ∃ w, (Part.reg r).Written w ∧ c.rest = w ++ (c.advance 2).rest ∧
      StandsAlone w (c.advance 2).rest := by
  obtain ⟨v, d, rest, hText, hv, hd, hEnd, rfl⟩ := reg?_eq_some_iff.1 h
  obtain ⟨k, hDigit, hBound⟩ := (isDigitTest_hex d).1 hd
  obtain ⟨-, rfl⟩ := isDigit_iff.1 hDigit
  rw [Cursor.rest_advance, hText]
  refine ⟨⟨Int.natCast_nonneg _, Int.ofNat_lt.2 hBound⟩, [v, d], .reg hv hDigit, rfl, ?_⟩
  exact standsAlone_of_head? (fun _ => isWordChar_of_isNameChar) hEnd _

theorem exists_written_of_readReg {c next : Cursor} {args : List Arg}
    (h : c.readReg = .hit args next) : ∃ r w, r.Exists ∧ args = [.reg r] ∧
      (Part.reg r).Written w ∧ c.rest = w ++ next.rest ∧ StandsAlone w next.rest := by
  unfold Cursor.readReg at h
  split at h
  · next r hReg =>
      cases h
      obtain ⟨hr, w, hWritten, hText, hAlone⟩ := exists_written_of_reg? hReg
      exact ⟨r, w, hr, rfl, hWritten, hText, hAlone⟩
  · cases h

theorem map_upper_of_written_v0 {w : List Char} (h : (Part.reg ⟨0⟩).Written w) :
    w.map upper = ['V', '0'] := by
  generalize hr : (⟨0⟩ : Reg) = r at h
  cases h with
  | @reg v c d hv hc =>
      obtain rfl : d = 0 := (Int.ofNat_inj.1 (congrArg Reg.index hr)).symm
      have hZero : c = '0' := by
        have hRows : ∀ row ∈ digitRows, row[0]? = some '0' := by decide
        obtain ⟨row, hRow, hAt⟩ := hc
        rw [hRows row hRow] at hAt
        exact (Option.some.inj hAt).symm
      rw [hZero]
      rcases hv with rfl | rfl
      · rfl
      · rfl

/-- What is read as a number is a numeral of it, and no longer one stands there. -/
theorem exists_written_of_readNumber {field : Field} {c next : Cursor} {args : List Arg}
    (h : c.readNumber field = .hit args next) : ∃ (n : Nat) (w : List Char),
      n ≤ field.limit ∧ args = [.number n] ∧ (Part.number n).Written w ∧
        c.rest = w ++ next.rest ∧ StandsAlone w next.rest := by
  unfold Cursor.readNumber at h
  split at h
  · cases h
  · next m hNumeral =>
      split at h
      · next n hField =>
          cases h
          obtain ⟨hShort, rfl, hLimit⟩ := Numeral.inField_eq_ok_iff.1 hField
          have hWritten := isNumeral_of_ofText? hNumeral hShort
          have hText : c.rest = c.rest.take m.length ++ (c.advance m.length).rest := by
            rw [Cursor.rest_advance, List.take_append_drop]
          refine ⟨_, _, hLimit, rfl, .number hWritten, hText, .inr (.inr ⟨⟨_, hWritten⟩, ?_⟩)⟩
          intro v k hv hPrefix
          rw [← hText] at hPrefix
          rw [List.length_take_of_le (length_le_of_ofText? hNumeral)]
          exact length_le_of_isNumeral hNumeral hv hPrefix
      · cases h

theorem drop_length_takeWhile (p : Char → Bool) (text : List Char) :
    text.drop (text.takeWhile p).length = text.dropWhile p := by
  have hSplit := congrArg (List.drop (text.takeWhile p).length)
    (List.takeWhile_append_dropWhile (p := p) (l := text))
  rw [List.drop_left] at hSplit
  exact hSplit.symm

/-- What is read as a name is one, and it goes on as far as it can. -/
theorem exists_written_of_name {c next : Cursor} {args : List Arg}
    (h : c.readText c.name = .hit args next) : ∃ w, args = [.text (String.ofList w)] ∧
      (Part.name (String.ofList w)).Written w ∧ c.rest = w ++ next.rest ∧
        StandsAlone w next.rest := by
  unfold Cursor.readText at h
  split at h
  · cases h
  · next hne =>
      cases h
      by_cases hStart : c.rest.head?.any Cursor.isNameStart = true
      · have hName : c.name = c.rest.takeWhile Cursor.isNameChar := if_pos hStart
        have hRest : (c.advance c.name.length).rest = c.rest.dropWhile Cursor.isNameChar := by
          rw [Cursor.rest_advance, hName, drop_length_takeWhile]
        rw [hRest, hName]
        refine ⟨_, rfl, .name ?_, List.takeWhile_append_dropWhile.symm, ?_⟩
        · cases hText : c.rest with
          | nil =>
              rw [hText] at hStart
              cases hStart
          | cons a rest =>
              rw [hText] at hStart
              have hFirst : Cursor.isNameStart a = true := hStart
              rw [List.takeWhile_cons_of_pos (isNameChar_of_isNameStart hFirst)]
              exact ⟨a, _, rfl, hFirst, fun d hd => List.mem_takeWhile_imp hd⟩
        · refine standsAlone_of_head? (fun _ => id) ?_ _
          have hEnd := List.head?_dropWhile_not Cursor.isNameChar c.rest
          cases hHead : (c.rest.dropWhile Cursor.isNameChar).head? with
          | none => rfl
          | some d =>
              rw [hHead] at hEnd
              exact hEnd
      · have hName : c.name = [] := if_neg hStart
        rw [hName] at hne
        exact absurd rfl hne

/-- A token that is read takes the characters of a part that it stands for. -/
theorem Token.exists_part_of_readHere {t : Token} {c next : Cursor} {args : List Arg}
    (ht : t.Plain) (h : t.readHere c = .hit args next) : ∃ p w, t.Reads p args ∧
      p.Written w ∧ c.rest = w ++ next.rest ∧ (t ≠ .index → StandsAlone w next.rest) := by
  cases t with
  | keyword word =>
      simp only [readHere] at h
      split at h
      · next hAt =>
          cases h
          obtain ⟨w, hWritten, hText, hAlone⟩ := exists_written_of_atKeyword hAt
          exact ⟨_, w, .fixed rfl, hWritten, hText, fun _ => hAlone⟩
      · cases h
  | mark a =>
      simp only [readHere] at h
      split at h
      · next hHead =>
          cases h
          obtain ⟨hWritten, hText⟩ := written_of_head? hHead
          rw [upper_of_mem_marks ht] at hWritten
          exact ⟨_, [a], .fixed rfl, hWritten, hText, fun _ => .inl ⟨a, ht, rfl⟩⟩
      · cases h
  | index =>
      simp only [readHere] at h
      split at h
      · next hLetter =>
          cases h
          obtain ⟨a, hHead, hUpper⟩ := Option.map_eq_some_iff.1 hLetter
          obtain ⟨hWritten, hText⟩ := written_of_head? hHead
          rw [hUpper] at hWritten
          exact ⟨_, [a], .fixed rfl, hWritten, hText, fun hNot => absurd rfl hNot⟩
      · cases h
  | v0 =>
      simp only [readHere] at h
      split at h
      · next hReg =>
          cases h
          obtain ⟨-, w, hWritten, hText, hAlone⟩ := exists_written_of_reg? hReg
          exact ⟨_, w, .fixed rfl, .fixed (map_upper_of_written_v0 hWritten), hText,
            fun _ => hAlone⟩
      · cases h
  | reg =>
      obtain ⟨r, w, hr, rfl, hWritten, hText, hAlone⟩ := exists_written_of_readReg h
      exact ⟨_, w, .reg hr, hWritten, hText, fun _ => hAlone⟩
  | number field =>
      obtain ⟨n, w, hLimit, rfl, hWritten, hText, hAlone⟩ := exists_written_of_readNumber h
      exact ⟨_, w, .number hLimit, hWritten, hText, fun _ => hAlone⟩
  | address =>
      simp only [readHere, Attempt.orElse_eq_hit_iff] at h
      rcases h with h | ⟨-, h⟩
      · obtain ⟨n, w, hLimit, rfl, hWritten, hText, hAlone⟩ := exists_written_of_readNumber h
        exact ⟨_, w, .address hLimit, hWritten, hText, fun _ => hAlone⟩
      · obtain ⟨w, rfl, hWritten, hText, hAlone⟩ := exists_written_of_name h
        exact ⟨_, w, .label _, hWritten, hText, fun _ => hAlone⟩
  | regOrByte =>
      simp only [readHere, Attempt.orElse_eq_hit_iff] at h
      rcases h with h | ⟨-, h⟩
      · obtain ⟨r, w, hr, rfl, hWritten, hText, hAlone⟩ := exists_written_of_readReg h
        exact ⟨_, w, .operand hr, hWritten, hText, fun _ => hAlone⟩
      · obtain ⟨n, w, hLimit, rfl, hWritten, hText, hAlone⟩ := exists_written_of_readNumber h
        exact ⟨_, w, .byte hLimit, hWritten, hText, fun _ => hAlone⟩
  | name =>
      obtain ⟨w, rfl, hWritten, hText, hAlone⟩ := exists_written_of_name h
      exact ⟨_, w, .name _, hWritten, hText, fun _ => hAlone⟩
  | line => exact absurd ht id

/-! ## Tokens in order -/

/-- Each letter `I` has a mark after it. -/
def boxed : List Token → Bool
  | [] => true
  | .index :: ts => ts.head?.any (·.isMark) && boxed ts
  | _ :: ts => boxed ts

theorem Form.boxed_tokens (f : Form) : boxed f.tokens = true := by
  have hAll : ∀ f ∈ Form.order, boxed f.tokens = true := by decide
  exact hAll f f.mem_order

theorem boxed_of_cons {t : Token} {ts : List Token} (h : boxed (t :: ts) = true) :
    boxed ts = true := by
  cases t with
  | index => exact (Bool.and_eq_true_iff.1 h).2
  | _ => exact h

/-- Before trivia and a mark a lexeme stands alone. -/
theorem standsAlone_of_mark {a : Char} {ts : List Token} {ps : List Part} {args : List Arg}
    {xs : List Lexeme} {rest : List Char} (ha : a ∈ marks) (hTrivia : ∀ x ∈ xs, Trivia x.gap)
    (hReads : ReadsAll (.mark a :: ts) ps args)
    (hWritten : List.Forall₂ (fun p (x : Lexeme) => p.Written x.chars) ps xs) (w : List Char) :
    StandsAlone w (textOf xs ++ rest) := by
  obtain ⟨qs, rfl, -⟩ := (readsAll_fixed_cons_iff rfl).1 hReads
  obtain ⟨x, ys, hMark, -, rfl⟩ := List.forall₂_cons_left_iff.1 hWritten
  have hGap := hTrivia x List.mem_cons_self
  refine .inr (.inl fun c hc => ?_)
  rw [textOf_cons, List.append_assoc, List.append_assoc] at hc
  cases hFirst : x.gap with
  | cons d gap =>
      rw [hFirst] at hGap hc
      exact isNameChar_of_mem_delimiters (hGap.clear_head? c hc)
  | nil =>
      rw [hFirst] at hc
      cases hMark with
      | fixed hUpper =>
          obtain ⟨b, hChars, hb⟩ := List.map_eq_singleton_iff.1 hUpper
          rw [hChars] at hc
          cases hc
          exact isNameChar_of_upper_mem_marks (hb ▸ ha)

/-- Tokens that are read take the characters of parts that they stand for, with trivia before
each. -/
theorem exists_covers_of_readAll {ts : List Token} {c next : Cursor} {args : List Arg}
    (hPlain : ∀ t ∈ ts, t.Plain) (hBoxed : boxed ts = true)
    (h : Token.readAll ts c = .hit args next) : ∃ ps xs, ReadsAll ts ps args ∧
      List.Forall₂ (fun p (x : Lexeme) => p.Written x.chars) ps xs ∧
        Covers c.rest xs next.rest := by
  induction ts generalizing c args with
  | nil =>
      cases h
      exact ⟨[], [], .nil, .nil, .nil _⟩
  | cons t ts ih =>
      obtain ⟨ht, hts⟩ := List.forall_mem_cons.1 hPlain
      obtain ⟨first, mid, hRead, hMap⟩ := Attempt.andThen_eq_hit_iff.1 h
      obtain ⟨more, hMore, rfl⟩ := Attempt.map_eq_hit_iff.1 hMap
      obtain ⟨p, w, hReads, hWritten, hText, hAlone⟩ := Token.exists_part_of_readHere ht hRead
      obtain ⟨ps, xs, hOthers, hOthersWritten, hCovers⟩ := ih hts (boxed_of_cons hBoxed) hMore
      obtain ⟨gap, hSkip, hGap⟩ := exists_gapBefore_skip c
      have hne : c.skip.rest ≠ [] := by
        intro hEnd
        have := Token.length_lt_of_readHere hRead
        rw [hEnd] at this
        exact absurd this (Nat.not_lt_zero _)
      have hTrivia : Trivia gap := hGap.resolve_right fun h => hne h.1
      have hStands : StandsAlone w mid.rest := by
        by_cases hIndex : t = .index
        · -- Nothing looks at what comes after this letter but the mark that has to.
          subst hIndex
          obtain ⟨hHead, -⟩ := Bool.and_eq_true_iff.1 hBoxed
          cases ts with
          | nil => cases hHead
          | cons u us =>
              obtain ⟨a, rfl⟩ := Token.isMark_eq_true_iff.1 hHead
              rw [hCovers.text_eq]
              exact standsAlone_of_mark (hts _ List.mem_cons_self) hCovers.trivia hOthers
                hOthersWritten w
        · exact hAlone hIndex
      refine ⟨p :: ps, ⟨gap, w⟩ :: xs, .cons hReads hOthers, .cons hWritten hOthersWritten, ?_⟩
      rw [hSkip, hText]
      exact Covers.cons (x := ⟨gap, w⟩) hTrivia hStands hCovers

/-! ## Statements -/

theorem Tail.Reads.cons_number {field : Field} {n : Nat} {ps : List Part} {args : List Arg}
    (hn : n ≤ field.limit) (h : (Tail.numbers field).Reads ps args) :
    (Tail.numbers field).Reads (.comma :: .number n :: ps) (.number n :: args) := by
  cases h with
  | numbers hns => exact .numbers (List.forall_mem_cons.2 ⟨hn, hns⟩)

theorem exists_covers_of_readNumbers {field : Field} {c next : Cursor} {args : List Arg}
    (h : readNumbers field c = .hit args next) : ∃ ps xs,
      (Tail.numbers field).Reads ps args ∧
        List.Forall₂ (fun p (x : Lexeme) => p.Written x.chars) ps xs ∧
          Covers c.rest xs next.rest := by
  fun_induction readNumbers field c generalizing args with
  | case1 c hMiss =>
      cases h
      exact ⟨[], [], .numbers (List.forall_mem_nil _), .nil, .nil _⟩
  | case2 c e hAbort => cases h
  | case3 c first mid hHit ih =>
      obtain ⟨others, hOthers, rfl⟩ := Attempt.map_eq_hit_iff.1 h
      have hPlain : ∀ t ∈ [Form.comma, .number field], t.Plain := by
        cases field <;> decide
      obtain ⟨ps, xs, hReads, hWritten, hCovers⟩ := exists_covers_of_readAll hPlain rfl hHit
      obtain ⟨qs, ys, hMore, hMoreWritten, hMoreCovers⟩ := ih hOthers
      obtain ⟨rest, rfl, hNumber⟩ := readsAll_comma_cons_iff.1 hReads
      obtain ⟨p, rfl, hp⟩ := readsAll_singleton_iff.1 hNumber
      refine ⟨_, xs ++ ys, ?_, List.rel_append hWritten hMoreWritten, hCovers.append hMoreCovers⟩
      cases hp with
      | fixed hNone => cases hNone
      | number hn => exact hMore.cons_number hn

/-- What is read after the tokens of a form takes the characters of parts that it stands for. -/
theorem Tail.exists_covers_of_read {t : Tail} {c next : Cursor} {args : List Arg}
    (h : t.read c = .hit args next) : ∃ ps xs, t.Reads ps args ∧
      List.Forall₂ (fun p (x : Lexeme) => p.Written x.chars) ps xs ∧
        Covers c.rest xs next.rest := by
  cases t with
  | none =>
      cases h
      exact ⟨[], [], .none, .nil, .nil _⟩
  | register =>
      rw [Tail.read, Attempt.orElse_eq_hit_iff] at h
      rcases h with h | ⟨-, h⟩
      · obtain ⟨found, hRead, rfl⟩ := Attempt.map_eq_hit_iff.1 h
        obtain ⟨ps, xs, hReads, hWritten, hCovers⟩ :=
          exists_covers_of_readAll (by decide) rfl hRead
        obtain ⟨rest, rfl, hReg⟩ := readsAll_comma_cons_iff.1 hReads
        obtain ⟨r, hr, rfl, rfl⟩ := readsAll_reg_iff.1 hReg
        exact ⟨_, xs, .register hr, hWritten, hCovers⟩
      · cases h
        exact ⟨[], [], .noRegister, .nil, .nil _⟩
  | numbers field => exact exists_covers_of_readNumbers h

/-- A statement that is read in a form other than the last is written where it is read. -/
theorem Form.exists_covers_of_read {f : Form} {c next : Cursor} {s : Statement}
    (hf : f ≠ .unknown) (h : f.read c = .hit s next) :
    ∃ xs, s.Written (xs.map Lexeme.chars) ∧ Covers c.rest xs next.rest := by
  obtain ⟨args, mid, hTokens, h⟩ := Attempt.andThen_eq_hit_iff.1 h
  obtain ⟨more, last, hTail, h⟩ := Attempt.andThen_eq_hit_iff.1 h
  split at h
  · next found hStatement =>
      cases h
      obtain ⟨ps, xs, hReads, hWritten, hCovers⟩ :=
        exists_covers_of_readAll (Form.plain_of_mem_tokens hf) f.boxed_tokens hTokens
      obtain ⟨qs, ys, hMore, hMoreWritten, hMoreCovers⟩ := Tail.exists_covers_of_read hTail
      have hForm : f.Reads (ps ++ qs) s := .intro hReads hMore hStatement
      obtain ⟨hFits, hConsists⟩ := exists_form_reads_iff.1 ⟨f, hf, hForm⟩
      refine ⟨xs ++ ys, ⟨hFits, _, hConsists, ?_⟩, hCovers.append hMoreCovers⟩
      exact List.forall₂_map_right_iff.2 (List.rel_append hWritten hMoreWritten)
  · cases h

theorem Form.exists_line_of_statement? {args : List Arg} {s : Statement}
    (h : Form.unknown.statement? args = some s) : ∃ line, s = .unknown line := by
  match args, h with
  | [.text line], h => exact ⟨line, (Option.some.inj h).symm⟩
  | [.reg r], h => cases h
  | [.number n], h => cases h
  | [], h => cases h
  | first :: second :: rest, h => simp [Form.statement?] at h

/-- What the last form makes of a line is no statement that can be written. -/
theorem exists_line_of_read {c next : Cursor} {s : Statement}
    (h : Form.read .unknown c = .hit s next) : ∃ line, s = .unknown line := by
  obtain ⟨args, mid, hTokens, h⟩ := Attempt.andThen_eq_hit_iff.1 h
  obtain ⟨more, last, hTail, h⟩ := Attempt.andThen_eq_hit_iff.1 h
  split at h
  · next found hStatement =>
      cases h
      exact Form.exists_line_of_statement? hStatement
  · cases h

/-- The form of a statement is the first that does not miss. -/
theorem exists_split_of_readFirst {fs : List Form} {c next : Cursor} {s : Statement}
    (h : readFirst fs c = .hit s next) : ∃ pre f post, fs = pre ++ f :: post ∧
      (∀ g ∈ pre, g.read c = .miss) ∧ f.read c = .hit s next := by
  induction fs with
  | nil => cases h
  | cons f fs ih =>
      rcases Attempt.orElse_eq_hit_iff.1 h with h | ⟨hMiss, h⟩
      · exact ⟨[], f, fs, rfl, List.forall_mem_nil _, h⟩
      · obtain ⟨pre, g, post, rfl, hPre, hRead⟩ := ih h
        exact ⟨f :: pre, g, post, rfl, List.forall_mem_cons.2 ⟨hMiss, hPre⟩, hRead⟩

/-- A statement that is read is an unknown line, or it is written where it is read. -/
theorem exists_covers_of_readStatement {c next : Cursor} {s : Statement}
    (h : readStatement c = .hit s next) : (∃ line, s = .unknown line) ∨
      ∃ xs, s.Written (xs.map Lexeme.chars) ∧ Covers c.rest xs next.rest := by
  obtain ⟨pre, f, post, -, -, hRead⟩ := exists_split_of_readFirst h
  by_cases hf : f = .unknown
  · subst hf
    exact .inl (exists_line_of_read hRead)
  · exact .inr (Form.exists_covers_of_read hf hRead)

/-! ## Sources -/

/-- Of the statements that are read each is an unknown line, or its operands fit. -/
theorem fits_of_readStatements {c stop : Cursor} {found : List Statement}
    (h : readStatements c = .ok (found, stop)) :
    ∀ s ∈ found, (∃ line, s = .unknown line) ∨ s.Fits := by
  fun_induction readStatements c generalizing found with
  | case1 c hMiss =>
      cases h
      exact fun s hs => nomatch hs
  | case2 c e hAbort => cases h
  | case3 c s next hHit others stop hRest ih =>
      cases h
      refine List.forall_mem_cons.2 ⟨?_, ih hRest⟩
      exact (exists_covers_of_readStatement hHit).imp id fun ⟨_, hWritten, _⟩ => hWritten.1
  | case4 c s next hHit e hRest ih => cases h

/-- Statements that are read are written one after the other, if there is no unknown line among
them. -/
theorem exists_covers_of_readStatements {c stop : Cursor} {found : List Statement}
    (h : readStatements c = .ok (found, stop)) (hKnown : ∀ line, .unknown line ∉ found) :
    ∃ xs last, WrittenAll found (xs.map Lexeme.chars) ∧ Covers c.rest xs last.rest ∧
      stop = Cursor.skip last := by
  fun_induction readStatements c generalizing found with
  | case1 c hMiss =>
      cases h
      exact ⟨[], c, .nil, .nil _, rfl⟩
  | case2 c e hAbort => cases h
  | case3 c s next hHit others stop hRest ih =>
      cases h
      obtain ⟨ys, last, hOthers, hOthersCover, hStop⟩ :=
        ih hRest fun line hLine => hKnown line (List.mem_cons_of_mem s hLine)
      rcases exists_covers_of_readStatement hHit with ⟨line, rfl⟩ | ⟨xs, hWritten, hCovers⟩
      · exact absurd List.mem_cons_self (hKnown line)
      · refine ⟨xs ++ ys, last, ?_, hCovers.append hOthersCover, hStop⟩
        rw [List.map_append]
        exact .cons hWritten hOthers
  | case4 c s next hHit e hRest ih => cases h

theorem statementsOfText_eq_ok_iff {text : List Char} {found : List Statement} :
    statementsOfText text = .ok found ↔
      ∃ stop, readStatements (.start text) = .ok (found, stop) ∧ stop.rest = [] := by
  unfold statementsOfText
  rw [bind_eq_ok_iff]
  constructor
  · rintro ⟨⟨others, stop⟩, hRead, hEnd⟩
    by_cases hStop : stop.rest.isEmpty = true
    · simp only [hStop, if_true, pure_eq_ok, Except.ok.injEq] at hEnd
      exact ⟨stop, hEnd ▸ hRead, List.isEmpty_iff.1 hStop⟩
    · simp only [hStop] at hEnd
      cases hEnd
  · rintro ⟨stop, hRead, hStop⟩
    exact ⟨(found, stop), hRead, by simp [hStop]⟩

/-- A text that is read to its end consists of its statements, if there is no unknown line among
them, and trivia. -/
theorem exists_covers_of_statementsOfText {text : List Char} {found : List Statement}
    (h : statementsOfText text = .ok found) (hKnown : ∀ line, .unknown line ∉ found) :
    ∃ xs trailing, Covers text xs trailing ∧ Trailing trailing ∧
      WrittenAll found (xs.map Lexeme.chars) := by
  obtain ⟨stop, hRead, hStop⟩ := statementsOfText_eq_ok_iff.1 h
  obtain ⟨xs, last, hWritten, hCovers, rfl⟩ := exists_covers_of_readStatements hRead hKnown
  obtain ⟨gap, hText, hGap⟩ := exists_gapBefore_skip last
  rw [hStop, List.append_nil] at hText
  refine ⟨xs, last.rest, hCovers, ?_, hWritten⟩
  rw [hText]
  exact hGap.elim .inl And.right

/-- A source that is assembled consists of trivia and statements that are written out in full, with
no character left over, and the bytes are those of these statements, each laid out once and in order,
and linked. -/
theorem assemble_accounts_for_source {source : String} {out : List UInt8}
    (h : assemble source = .ok out) : ∃ found xs trailing,
      Covers (Text.expandTabs source.toList) xs trailing ∧ Trailing trailing ∧
        WrittenAll found (xs.map Lexeme.chars) ∧ statements source = .ok found ∧
          (∀ line, .unknown line ∉ found) ∧ (layOut found >>= Layout.link) = .ok out := by
  obtain ⟨found, hFound, hBytes⟩ := bind_eq_ok_iff.1 h
  obtain ⟨final, hFinal, hLink⟩ := bind_eq_ok_iff.1 hBytes
  have hKnown : ∀ line, .unknown line ∉ found := Layout.unknown_notMem_of_foldlM_add hFinal
  obtain ⟨xs, trailing, hCovers, hTrailing, hWritten⟩ :=
    exists_covers_of_statementsOfText hFound hKnown
  exact ⟨found, xs, trailing, hCovers, hTrailing, hWritten, hFound, hKnown, hBytes⟩

/-- A number that ends where a label begins, with nothing between them. -/
theorem assemble_accounts_for_source_without_gap :
    assemble "LD V0,0b1F:JP F;x" = .ok [0x60, 0x01, 0x12, 0x02] ∧ ∃ xs trailing,
      Covers (Text.expandTabs "LD V0,0b1F:JP F;x".toList) xs trailing ∧ Trailing trailing ∧
        WrittenAll [.instr (.binary .load ⟨0⟩ (.imm 1)), .label "F", .ref .jump "F"]
          (xs.map Lexeme.chars) := by
  have hAssemble : assemble "LD V0,0b1F:JP F;x" = .ok [0x60, 0x01, 0x12, 0x02] :=
    toOption_eq_some_iff.1 (by decide +kernel)
  have hSource : statements "LD V0,0b1F:JP F;x" =
      .ok [.instr (.binary .load ⟨0⟩ (.imm 1)), .label "F", .ref .jump "F"] :=
    toOption_eq_some_iff.1 (by decide +kernel)
  obtain ⟨found, xs, trailing, hCovers, hTrailing, hWritten, hFound, -⟩ :=
    assemble_accounts_for_source hAssemble
  rw [hSource] at hFound
  cases hFound
  exact ⟨hAssemble, xs, trailing, hCovers, hTrailing, hWritten⟩

end Chip8.Assembly
