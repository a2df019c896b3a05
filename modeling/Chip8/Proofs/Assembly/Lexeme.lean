import Chip8.Assembly.Token
import Mathlib.Data.List.Basic
import Mathlib.Data.List.TakeWhile

/-!
# Lexemes

A source that is written token by token consists of words and marks.  A word is a run of ASCII
letters, digits and underscores with a delimiter or an end on either side.  No token but the rest of
a line reaches past a delimiter, so what comes after one does not matter (`readHere_append`).  Reading
a token at a word or a mark is thus reading it in the text of that lexeme alone (`readHere_word`,
`readHere_mark`).
-/

namespace Chip8.Assembly

open Text

/-! ## Characters -/

/-- The marks of the grammar. -/
def marks : List Char := [',', ':', '[', ']']

/-- The characters that end a word. -/
def delimiters : List Char := [' ', '\n', '\r', '\t', ';'] ++ marks

/-- What holds of each of the marks holds of all. -/
theorem forall_mem_marks {p : Char → Prop} :
    (∀ a ∈ marks, p a) ↔ p ',' ∧ p ':' ∧ p '[' ∧ p ']' := by
  simp [marks]

theorem toNat_lt_of_isNameChar {c : Char} (h : Cursor.isNameChar c = true) : c.toNat < 128 := by
  delta Cursor.isNameChar Char.isAlphanum Char.isAlpha Char.isUpper Char.isLower Char.isDigit at h
  simp only [Bool.or_eq_true, Bool.and_eq_true, decide_eq_true_eq, UInt32.le_iff_toNat_le,
    ge_iff_le] at h
  have hVal : c.toNat = c.val.toNat := rfl
  have hZ : 'Z'.val.toNat = 90 := rfl
  have hz : 'z'.val.toNat = 122 := rfl
  have h9 : '9'.val.toNat = 57 := rfl
  rcases h with (((h | h) | h) | rfl)
  · omega
  · omega
  · omega
  · decide

/-- There are few characters of names, so what holds of all of them can be checked one by one. -/
theorem forall_isNameChar {p : Char → Prop}
    (h : ∀ n : Fin 128, Cursor.isNameChar (Char.ofNat n) = true → p (Char.ofNat n)) {c : Char}
    (hc : Cursor.isNameChar c = true) : p c := by
  have hChar := h ⟨c.toNat, toNat_lt_of_isNameChar hc⟩
  rw [Char.ofNat_toNat] at hChar
  exact hChar hc

theorem isKeywordChar_upper_of_isNameChar {c : Char} (h : Cursor.isNameChar c = true) :
    isKeywordChar (upper c) = true :=
  forall_isNameChar (p := fun c => isKeywordChar (upper c) = true) (by decide +kernel) h

theorem isNameChar_of_isKeywordChar_upper {c : Char} (h : isKeywordChar (upper c) = false) :
    Cursor.isNameChar c = false := by
  refine Bool.eq_false_iff.2 fun hName => ?_
  rw [isKeywordChar_upper_of_isNameChar hName] at h
  cases h

theorem upper_of_mem_marks {a : Char} (h : a ∈ marks) : upper a = a := by
  have hAll : ∀ a ∈ marks, upper a = a := forall_mem_marks.2 (by decide)
  exact hAll a h

/-- Only a mark has a mark as its capital. -/
theorem isNameChar_of_upper_mem_marks {c : Char} (h : upper c ∈ marks) :
    Cursor.isNameChar c = false := by
  have hAll : ∀ a ∈ marks, isKeywordChar a = false := forall_mem_marks.2 (by decide)
  exact isNameChar_of_isKeywordChar_upper (hAll _ h)

theorem isNameChar_of_isNameStart {c : Char} (h : Cursor.isNameStart c = true) :
    Cursor.isNameChar c = true := by
  simp only [Cursor.isNameStart, Cursor.isNameChar, Char.isAlphanum, Bool.or_eq_true] at h ⊢
  exact h.imp .inl id

theorem isWordChar_of_isNameChar {c : Char} (h : Cursor.isNameChar c = true) :
    isWordChar c = true :=
  forall_isNameChar (p := fun c => isWordChar c = true) (by decide +kernel) h

theorem notMem_delimiters_of_isNameChar {c : Char} (h : Cursor.isNameChar c = true) :
    c ∉ delimiters :=
  forall_isNameChar (p := fun c => c ∉ delimiters) (by decide +kernel) h

theorem isNameChar_of_isHexDigit {c : Char} (h : isHexDigit c = true) :
    Cursor.isNameChar c = true := by
  simp only [isHexDigit, Bool.or_eq_true, Bool.and_eq_true, decide_eq_true_eq] at h
  delta Cursor.isNameChar Char.isAlphanum Char.isAlpha Char.isUpper Char.isLower
  simp only [Bool.or_eq_true, Bool.and_eq_true, decide_eq_true_eq, ge_iff_le]
  rcases h with (h | ⟨hLow, hHigh⟩) | ⟨hLow, hHigh⟩
  · exact .inl (.inr h)
  · exact .inl (.inl (.inr ⟨hLow, UInt32.le_trans hHigh (by decide)⟩))
  · exact .inl (.inl (.inl ⟨hLow, UInt32.le_trans hHigh (by decide)⟩))

/-- Whatever has a capital letter as its capital is a letter. -/
theorem isWordChar_of_isUpper_upper {c : Char} (h : (upper c).isUpper = true) :
    isWordChar c = true := by
  unfold upper at h
  split at h
  · next hLongS =>
      subst hLongS
      decide +kernel
  · split at h
    · next hDotless =>
        subst hDotless
        decide +kernel
    · have hAlpha : c.isAlpha = true := by
        delta Char.isAlpha
        rw [Bool.or_eq_true]
        by_cases hLower : c.isLower = true
        · exact .inr hLower
        · have hSame : c.toUpper = c := dif_neg fun ⟨hLow, hHigh⟩ =>
            hLower (Bool.and_eq_true_iff.2 ⟨decide_eq_true hLow, decide_eq_true hHigh⟩)
          rw [hSame] at h
          exact .inl h
      refine isWordChar_of_isNameChar ?_
      delta Cursor.isNameChar Char.isAlphanum
      rw [hAlpha, Bool.true_or, Bool.true_or]

theorem isHexDigit_upper {c : Char} (h : isHexDigit c = true) : isHexDigit (upper c) = true :=
  forall_isNameChar (p := fun c => isHexDigit c = true → isHexDigit (upper c) = true)
    (by decide +kernel) (isNameChar_of_isHexDigit h) h

/-- What no delimiter is can be checked one by one. -/
theorem eq_false_of_mem_delimiters {p : Char → Bool} (h : delimiters.any p = false) {c : Char}
    (hc : c ∈ delimiters) : p c = false :=
  Bool.eq_false_iff.2 (List.any_eq_false.1 h c hc)

theorem isKeywordChar_upper_of_mem_delimiters {c : Char} (h : c ∈ delimiters) :
    isKeywordChar (upper c) = false :=
  eq_false_of_mem_delimiters (p := fun c => isKeywordChar (upper c)) (by decide) h

theorem upper_ne_of_isKeywordChar {c a : Char} (hc : isKeywordChar (upper c) = false)
    (ha : isKeywordChar a = true) : upper c ≠ a := by
  rintro rfl
  rw [hc] at ha
  cases ha

/-- What holds of each white space character can be checked one by one. -/
theorem forall_isSpace {p : Char → Prop}
    (h : ∀ r ∈ spaceRanges, ∀ k : Fin (r.2 + 1 - r.1), p (Char.ofNat (r.1 + k))) {c : Char}
    (hc : isSpace c = true) : p c := by
  obtain ⟨r, hr, hBounds⟩ := List.any_eq_true.1 hc
  rw [Bool.and_eq_true, decide_eq_true_eq, decide_eq_true_eq] at hBounds
  have hPlace : r.1 + (c.toNat - r.1) = c.toNat := Nat.add_sub_cancel' hBounds.1
  have hChar := h r hr ⟨c.toNat - r.1, by omega⟩
  rwa [hPlace, Char.ofNat_toNat] at hChar

/-- White space is part of no word. -/
theorem isKeywordChar_upper_of_isSpace {c : Char} (h : isSpace c = true) :
    isKeywordChar (upper c) = false :=
  forall_isSpace (p := fun c => isKeywordChar (upper c) = false) (by decide +kernel) h

theorem isWordChar_of_mem_delimiters {c : Char} (h : c ∈ delimiters) : isWordChar c = false :=
  eq_false_of_mem_delimiters (by decide) h

theorem isNameChar_of_mem_delimiters {c : Char} (h : c ∈ delimiters) :
    Cursor.isNameChar c = false :=
  eq_false_of_mem_delimiters (by decide) h

theorem isHexDigit_of_mem_delimiters {c : Char} (h : c ∈ delimiters) : isHexDigit c = false :=
  eq_false_of_mem_delimiters (by decide) h

/-! ## Words and marks -/

/-- The text is a word. -/
def IsWord (w : List Char) : Prop := w ≠ [] ∧ ∀ c ∈ w, Cursor.isNameChar c = true

theorem isWord_of_all {w : List Char} (hne : w ≠ []) (h : w.all Cursor.isNameChar = true) :
    IsWord w :=
  ⟨hne, List.all_eq_true.1 h⟩

/-- The text is a mark. -/
def IsMark (w : List Char) : Prop := ∃ c ∈ marks, w = [c]

/-- No word goes on with the character, if there is one. -/
def Clear (o : Option Char) : Prop := ∀ c ∈ o, c ∈ delimiters

theorem clear_none : Clear none := fun _ h => nomatch h

theorem clear_some {c : Char} : Clear (some c) ↔ c ∈ delimiters := by
  simp [Clear]

instance (w : List Char) : Decidable (IsWord w) :=
  decidable_of_iff (w ≠ [] ∧ w.all Cursor.isNameChar = true) (and_congr Iff.rfl List.all_eq_true)

instance (w : List Char) : Decidable (IsMark w) :=
  decidable_of_iff (w ∈ marks.map (· :: [])) (by simp only [IsMark, List.mem_map, eq_comm])

instance : (o : Option Char) → Decidable (Clear o)
  | none => isTrue clear_none
  | some _ => decidable_of_iff _ clear_some.symm

theorem mem_delimiters_of_mem_marks {c : Char} (h : c ∈ marks) : c ∈ delimiters :=
  List.mem_append_right _ h

/-- A run of characters that no delimiter belongs to ends where the word does. -/
theorem takeWhile_append_of_clear {p : Char → Bool} (hp : ∀ c ∈ delimiters, p c = false)
    {w rest : List Char} (hRest : Clear rest.head?) :
    (w ++ rest).takeWhile p = w.takeWhile p := by
  induction w with
  | nil =>
      cases rest with
      | nil => rfl
      | cons d rest =>
          rw [List.nil_append, List.takeWhile_cons, hp d (hRest d rfl)]
          rfl
  | cons c w ih => rw [List.cons_append, List.takeWhile_cons, List.takeWhile_cons, ih]

section Word

variable {w rest : List Char} {before start : Option Char}

/-! ## Keywords -/

/-- The keyword stands at the front of the text, and does not end inside a longer word. -/
def KeywordAt (k text : List Char) : Prop :=
  (text.take k.length).map upper = k ∧
    (text.drop k.length).head?.any (fun a => isKeywordChar (upper a)) = false

theorem atKeyword_eq_true_iff {k : List Char} {c : Cursor} : c.atKeyword k = true ↔
    k ≠ [] ∧ KeywordAt k c.rest ∧ c.before.any (fun a => isKeywordChar (upper a)) = false := by
  simp only [Cursor.atKeyword, KeywordAt, Bool.and_eq_true, Bool.not_eq_true', decide_eq_true_eq,
    List.isEmpty_eq_false_iff]
  constructor
  · rintro ⟨⟨⟨hne, hTake⟩, hBefore⟩, hEnd⟩
    exact ⟨hne, ⟨hTake, hEnd⟩, hBefore⟩
  · rintro ⟨hne, ⟨hTake, hEnd⟩, hBefore⟩
    exact ⟨⟨⟨hne, hTake⟩, hBefore⟩, hEnd⟩

theorem KeywordAt.length_le {k text : List Char} (h : KeywordAt k text) :
    k.length ≤ text.length := by
  have hLength := congrArg List.length h.1
  rw [List.length_map, List.length_take] at hLength
  omega

theorem any_isKeywordChar_of_clear (h : Clear before) :
    before.any (fun a => isKeywordChar (upper a)) = false := by
  cases before with
  | none => rfl
  | some d => exact isKeywordChar_upper_of_mem_delimiters (h d rfl)

theorem keywordAt_nil_of_clear (h : Clear rest.head?) : KeywordAt [] rest :=
  ⟨rfl, any_isKeywordChar_of_clear h⟩

theorem not_keywordAt_of_noWord {a : Char} {k : List Char} (ha : Text.isKeywordChar a = true)
    (h : rest.head?.any (fun a => isKeywordChar (upper a)) = false) : ¬KeywordAt (a :: k) rest := by
  rintro ⟨hTake, -⟩
  cases rest with
  | nil => cases hTake
  | cons d rest => exact upper_ne_of_isKeywordChar h ha (List.cons.inj hTake).1

theorem keywordAt_cons_iff {a c : Char} {k text : List Char} :
    KeywordAt (a :: k) (c :: text) ↔ upper c = a ∧ KeywordAt k text := by
  simp only [KeywordAt, List.length_cons, List.take_succ_cons, List.drop_succ_cons, List.map_cons,
    List.cons.injEq, and_assoc]

/-- A keyword does not reach past a delimiter. -/
theorem keywordAt_append_iff {k : List Char} (hk : ∀ c ∈ k, isKeywordChar c = true)
    (hRest : Clear rest.head?) : KeywordAt k (w ++ rest) ↔ KeywordAt k w := by
  induction w generalizing k with
  | nil =>
      cases k with
      | nil => exact iff_of_true (keywordAt_nil_of_clear hRest) (keywordAt_nil_of_clear clear_none)
      | cons a k =>
          have ha := hk a List.mem_cons_self
          exact iff_of_false (not_keywordAt_of_noWord ha (any_isKeywordChar_of_clear hRest))
            (not_keywordAt_of_noWord ha rfl)
  | cons c w ih =>
      cases k with
      | nil => rfl
      | cons a k =>
          rw [List.cons_append, keywordAt_cons_iff, keywordAt_cons_iff,
            ih fun x hx => hk x (List.mem_cons_of_mem a hx)]

/-- A keyword is read at a word exactly if it is that word.  If it is shorter, the word goes on where
it ends; if it is longer, the word ends where it should go on. -/
theorem keywordAt_word_iff {k : List Char} (hw : ∀ c ∈ w, Cursor.isNameChar c = true) :
    KeywordAt k w ↔ w.map upper = k := by
  induction w generalizing k with
  | nil =>
      cases k with
      | nil => exact iff_of_true (keywordAt_nil_of_clear clear_none) rfl
      | cons a k => simp [KeywordAt]
  | cons c w ih =>
      cases k with
      | nil => simp [KeywordAt, isKeywordChar_upper_of_isNameChar (hw c List.mem_cons_self)]
      | cons a k =>
          rw [keywordAt_cons_iff, ih fun x hx => hw x (List.mem_cons_of_mem c hx), List.map_cons,
            List.cons.injEq]

/-- Only one keyword is read at a place: where a shorter one ends a longer one goes on. -/
theorem eq_of_keywordAt {k l text : List Char} (hk : ∀ c ∈ k, isKeywordChar c = true)
    (hl : ∀ c ∈ l, isKeywordChar c = true) (hkText : KeywordAt k text) (hlText : KeywordAt l text) :
    k = l := by
  have hEnds : ∀ (a : Char) (m text : List Char), isKeywordChar a = true → KeywordAt [] text →
      ¬KeywordAt (a :: m) text := by
    rintro a m text ha ⟨-, hEnd⟩ ⟨hTake, -⟩
    cases text with
    | nil => cases hTake
    | cons c text =>
        have hNot : isKeywordChar (upper c) = false := hEnd
        rw [(List.cons.inj hTake).1, ha] at hNot
        cases hNot
  induction k generalizing l text with
  | nil =>
      cases l with
      | nil => rfl
      | cons b l => exact absurd hlText (hEnds b l text (hl b List.mem_cons_self) hkText)
  | cons a k ih =>
      cases l with
      | nil => exact absurd hkText (hEnds a k text (hk a List.mem_cons_self) hlText)
      | cons b l =>
          cases text with
          | nil => exact absurd hkText.length_le (Nat.not_succ_le_zero _)
          | cons c text =>
              obtain ⟨rfl, hkRest⟩ := keywordAt_cons_iff.1 hkText
              obtain ⟨rfl, hlRest⟩ := keywordAt_cons_iff.1 hlText
              rw [ih (fun x hx => hk x (List.mem_cons_of_mem _ hx))
                (fun x hx => hl x (List.mem_cons_of_mem _ hx)) hkRest hlRest]

theorem atKeyword_append {k : List Char} (hk : ∀ c ∈ k, isKeywordChar c = true)
    (hRest : Clear rest.head?)
    (hBefore : before.any (fun a => isKeywordChar (upper a)) =
      start.any (fun a => isKeywordChar (upper a))) :
    Cursor.atKeyword k ⟨before, w ++ rest⟩ = Cursor.atKeyword k ⟨start, w⟩ := by
  rw [Bool.eq_iff_iff, atKeyword_eq_true_iff, atKeyword_eq_true_iff, keywordAt_append_iff hk hRest,
    hBefore]

theorem atKeyword_alone {k : List Char} (hw : IsWord w) :
    Cursor.atKeyword k ⟨none, w⟩ = decide (w.map upper = k) := by
  rw [Bool.eq_iff_iff, decide_eq_true_iff, atKeyword_eq_true_iff, keywordAt_word_iff hw.2]
  constructor
  · exact fun h => h.2.1
  · rintro rfl
    exact ⟨mt List.map_eq_nil_iff.1 hw.1, rfl, rfl⟩

/-! ## Registers and names -/

theorem reg?_eq_some_iff {c : Cursor} {r : Reg} : c.reg? = some r ↔ ∃ v d rest,
    c.rest = v :: d :: rest ∧ (v = 'V' ∨ v = 'v') ∧ isHexDigit d = true ∧
      rest.head?.any isWordChar = false ∧ r = ⟨digitValue d⟩ := by
  obtain ⟨before, text⟩ := c
  constructor
  · intro h
    unfold Cursor.reg? at h
    split at h
    · next v d rest hText =>
        split at h
        · next hAll =>
            simp only [Bool.and_eq_true, Bool.or_eq_true, decide_eq_true_eq,
              Bool.not_eq_true'] at hAll
            exact ⟨v, d, rest, hText, hAll.1.1, hAll.1.2, hAll.2, (Option.some.inj h).symm⟩
        · cases h
    · cases h
  · rintro ⟨v, d, rest, hText, hv, hd, hEnd, rfl⟩
    obtain rfl : text = v :: d :: rest := hText
    simp [Cursor.reg?, hv, hd, hEnd]

theorem reg?_append (start : Option Char) (hw : w ≠ []) (hRest : Clear rest.head?) :
    Cursor.reg? ⟨before, w ++ rest⟩ = Cursor.reg? ⟨start, w⟩ := by
  match w with
  | [] => exact absurd rfl hw
  | [v] =>
      cases rest with
      | nil => rfl
      | cons d rest => simp [Cursor.reg?, isHexDigit_of_mem_delimiters (hRest d rfl)]
  | [v, d] =>
      cases rest with
      | nil => rfl
      | cons e rest => simp [Cursor.reg?, isWordChar_of_mem_delimiters (hRest e rfl)]
  -- The third character decides here.
  | v :: d :: e :: w => rfl

theorem name_append (start : Option Char) (hw : w ≠ []) (hRest : Clear rest.head?) :
    Cursor.name ⟨before, w ++ rest⟩ = Cursor.name ⟨start, w⟩ := by
  unfold Cursor.name
  rw [List.head?_append_of_ne_nil w hw,
    takeWhile_append_of_clear (fun c => isNameChar_of_mem_delimiters) hRest]

/-! ## Numerals -/

/-- The numeral of a base that is marked by a zero and one of two letters. -/
def marked? (a b : Char) (base : Nat) (isDigit : Char → Bool) : List Char → Option Numeral
  | '0' :: c :: rest =>
    let digits := rest.takeWhile isDigit
    if (c = a || c = b) && !digits.isEmpty then some ⟨base, 2, digits⟩ else none
  | _ => none

theorem hex?_eq_marked? (text : List Char) :
    Numeral.hex? text = marked? 'x' 'X' 16 isHexDigit text := rfl

theorem bin?_eq_marked? (text : List Char) :
    Numeral.bin? text = marked? 'b' 'B' 2 isBinDigit text := rfl

theorem marked?_of_ne {a b x : Char} {base : Nat} {isDigit : Char → Bool} {text : List Char}
    (hx : x ≠ '0') : marked? a b base isDigit (x :: text) = none := by
  unfold marked?
  split
  · next h => exact absurd (List.cons.inj h).1 hx
  · rfl

theorem marked?_append_of_clear {a b : Char} {base : Nat} {isDigit : Char → Bool}
    (ha : a ∉ delimiters) (hb : b ∉ delimiters) (hDigits : ∀ c ∈ delimiters, isDigit c = false)
    (hw : w ≠ []) (hRest : Clear rest.head?) :
    marked? a b base isDigit (w ++ rest) = marked? a b base isDigit w := by
  obtain ⟨x, w, rfl⟩ := List.exists_cons_of_ne_nil hw
  by_cases hZero : x = '0'
  · subst hZero
    cases w with
    | cons c w =>
        simp only [marked?, List.cons_append, takeWhile_append_of_clear hDigits hRest]
    | nil =>
        cases rest with
        | nil => rfl
        | cons d rest =>
            -- A zero alone is no beginning of such a numeral, whatever delimiter comes after it.
            have hd : d ∈ delimiters := hRest d rfl
            have hNeither : d ≠ a ∧ d ≠ b := ⟨fun h => ha (h ▸ hd), fun h => hb (h ▸ hd)⟩
            simp [marked?, hNeither.1, hNeither.2]
  · rw [List.cons_append, marked?_of_ne hZero, marked?_of_ne hZero]

theorem ofText?_append (hw : w ≠ []) (hRest : Clear rest.head?) :
    Numeral.ofText? (w ++ rest) = Numeral.ofText? w := by
  have hDec : (w ++ rest).takeWhile Char.isDigit = w.takeWhile Char.isDigit :=
    takeWhile_append_of_clear (fun _ => eq_false_of_mem_delimiters (by decide)) hRest
  unfold Numeral.ofText? Numeral.dec?
  rw [hex?_eq_marked?, hex?_eq_marked?, bin?_eq_marked?, bin?_eq_marked?, hDec,
    marked?_append_of_clear (by decide) (by decide) (fun c => isHexDigit_of_mem_delimiters) hw
      hRest,
    marked?_append_of_clear (by decide) (by decide)
      (fun c => eq_false_of_mem_delimiters (by decide)) hw hRest]

theorem length_le_of_marked? {a b : Char} {base : Nat} {isDigit : Char → Bool} {text : List Char}
    {n : Numeral} (h : marked? a b base isDigit text = some n) : n.length ≤ text.length := by
  unfold marked? at h
  split at h
  · next c rest =>
      have hDigits := (List.takeWhile_sublist isDigit (l := rest)).length_le
      dsimp only at h
      split at h
      · cases h
        simp only [Numeral.length, List.length_cons]
        omega
      · cases h
  · cases h

/-- A numeral has no more characters than the text that it stands in. -/
theorem length_le_of_ofText? {text : List Char} {n : Numeral}
    (h : Numeral.ofText? text = some n) : n.length ≤ text.length := by
  simp only [Numeral.ofText?, Option.or_eq_some_iff] at h
  rcases h with h | ⟨-, h | ⟨-, h⟩⟩
  · exact length_le_of_marked? h
  · exact length_le_of_marked? h
  · have hDigits := (List.takeWhile_sublist Char.isDigit (l := text)).length_le
    simp only [Numeral.dec?] at h
    split at h
    · cases h
    · cases h
      simp only [Numeral.length]
      omega

end Word

/-! ## Tokens at lexemes -/

/-- The cursor in a text that goes on with `rest`. -/
def Cursor.followedBy (rest : List Char) (c : Cursor) : Cursor := ⟨c.before, c.rest ++ rest⟩

/-- The attempt, made in a text that goes on with `rest`. -/
def Attempt.followedBy {α : Type} (rest : List Char) : Attempt α → Attempt α
  | .miss => .miss
  | .abort e => .abort e
  | .hit value next => .hit value (next.followedBy rest)

theorem Attempt.followedBy_orElse {α : Type} (rest : List Char) (a b : Attempt α) :
    (a.orElse fun _ => b).followedBy rest =
      (a.followedBy rest).orElse fun _ => b.followedBy rest := by
  cases a <;> rfl

/-- The token is one of a grammar of words and marks: keywords have letters only and are no names of
registers, and the rest of a line is no token. -/
def Token.Plain : Token → Prop
  | .keyword word =>
    word.toList ≠ [] ∧ word.toList.all Char.isUpper = true ∧
      Cursor.reg? ⟨none, word.toList⟩ = none
  | .mark c => c ∈ marks
  | .line => False
  | _ => True

instance : (t : Token) → Decidable t.Plain
  | .keyword _ => inferInstanceAs (Decidable (_ ∧ _ ∧ _))
  | .mark c => inferInstanceAs (Decidable (c ∈ marks))
  | .line => isFalse id
  | .index => isTrue trivial
  | .v0 => isTrue trivial
  | .reg => isTrue trivial
  | .number _ => isTrue trivial
  | .address => isTrue trivial
  | .regOrByte => isTrue trivial
  | .name => isTrue trivial

theorem Token.Plain.isKeywordChar {word : String} (h : (Token.keyword word).Plain) :
    ∀ c ∈ word.toList, isKeywordChar c = true := by
  intro c hc
  simp only [Text.isKeywordChar, List.all_eq_true.1 h.2.1 c hc, Bool.true_or]

theorem Token.Plain.isWord {word : String} (h : (Token.keyword word).Plain) :
    IsWord word.toList := by
  refine ⟨h.1, fun c hc => ?_⟩
  have hUpper : c.isUpper = true := List.all_eq_true.1 h.2.1 c hc
  delta Cursor.isNameChar Char.isAlphanum Char.isAlpha
  rw [hUpper, Bool.true_or, Bool.true_or, Bool.true_or]

/-- A keyword is given in upper case. -/
theorem Token.Plain.map_upper {word : String} (h : (Token.keyword word).Plain) :
    word.toList.map upper = word.toList := by
  have hUpper : ∀ c ∈ word.toList, upper c = id c := fun c hc =>
    forall_isNameChar (p := fun c => c.isUpper = true → upper c = c) (by decide +kernel)
      (h.isWord.2 c hc) (List.all_eq_true.1 h.2.1 c hc)
  rw [List.map_congr_left hUpper, List.map_id]

theorem advance_append {n : Nat} {w : List Char} (before start : Option Char) (rest : List Char)
    (hPos : 0 < n) (hn : n ≤ w.length) :
    (⟨before, w ++ rest⟩ : Cursor).advance n =
      ((⟨start, w⟩ : Cursor).advance n).followedBy rest := by
  induction n generalizing w before start with
  | zero => exact absurd hPos (Nat.lt_irrefl 0)
  | succ n ih =>
      cases w with
      | nil => exact absurd hn (Nat.not_succ_le_zero n)
      | cons c w =>
          cases n with
          | zero => rfl
          | succ n => exact ih _ _ (Nat.succ_pos n) (Nat.le_of_succ_le_succ hn)

section Tokens

variable {w rest : List Char} {before start : Option Char}

theorem readText_append {text : List Char} (hText : text.length ≤ w.length) :
    Cursor.readText text ⟨before, w ++ rest⟩ =
      (Cursor.readText text ⟨start, w⟩).followedBy rest := by
  unfold Cursor.readText
  split
  · rfl
  · next hne =>
      have hPos : 0 < text.length := List.length_pos_iff.2 (by simpa using hne)
      rw [advance_append before start rest hPos hText]
      rfl

theorem length_le_of_reg? {r : Reg} (h : Cursor.reg? ⟨before, w⟩ = some r) : 2 ≤ w.length := by
  unfold Cursor.reg? at h
  split at h
  · next hText =>
      rw [show w = _ from hText, List.length_cons, List.length_cons]
      omega
  · cases h

theorem readReg_append (start : Option Char) (hw : w ≠ []) (hRest : Clear rest.head?) :
    Cursor.readReg ⟨before, w ++ rest⟩ = (Cursor.readReg ⟨start, w⟩).followedBy rest := by
  unfold Cursor.readReg
  rw [reg?_append start hw hRest]
  cases hReg : Cursor.reg? ⟨start, w⟩ with
  | none => rfl
  | some r =>
      have hAdvance :=
        advance_append before start rest Nat.two_pos (length_le_of_reg? hReg)
      simp only [hAdvance]
      rfl

theorem readNumber_append (start : Option Char) {field : Field} (hw : w ≠ [])
    (hRest : Clear rest.head?) :
    Cursor.readNumber field ⟨before, w ++ rest⟩ =
      (Cursor.readNumber field ⟨start, w⟩).followedBy rest := by
  unfold Cursor.readNumber
  rw [ofText?_append hw hRest]
  cases hNumeral : Numeral.ofText? w with
  | none => rfl
  | some n =>
      have hDigits := List.length_pos_iff.2 (Numeral.digits_ne_nil_of_ofText? hNumeral)
      have hPos : 0 < n.length := by
        unfold Numeral.length
        omega
      have hAdvance := advance_append before start rest hPos (length_le_of_ofText? hNumeral)
      cases hValue : n.inField field with
      | error e => simp only [hValue, Attempt.followedBy]
      | ok value =>
          simp only [hValue, hAdvance]
          rfl

theorem length_name_le (c : Cursor) : c.name.length ≤ c.rest.length := by
  unfold Cursor.name
  split
  · exact (List.takeWhile_sublist _).length_le
  · exact Nat.zero_le _

theorem readName_append (start : Option Char) (hw : w ≠ []) (hRest : Clear rest.head?) :
    Cursor.readText (Cursor.name ⟨before, w ++ rest⟩) ⟨before, w ++ rest⟩ =
      (Cursor.readText (Cursor.name ⟨start, w⟩) ⟨start, w⟩).followedBy rest := by
  rw [name_append start hw hRest]
  exact readText_append (length_name_le ⟨start, w⟩)

/-- Reading a token does not reach past a delimiter.  Only whether a keyword can begin there is up to
what comes before. -/
theorem readHere_append {t : Token} (ht : t.Plain) (hw : w ≠ []) (hRest : Clear rest.head?)
    (hBefore : before.any (fun a => isKeywordChar (upper a)) =
      start.any (fun a => isKeywordChar (upper a))) :
    t.readHere ⟨before, w ++ rest⟩ = (t.readHere ⟨start, w⟩).followedBy rest := by
  have hLength : 0 < w.length := List.length_pos_iff.2 hw
  have hFirst := advance_append before start rest Nat.one_pos hLength
  -- What decides and how far the cursor goes are the same in both texts, token by token.
  cases t with
  | keyword word =>
      simp only [Token.readHere, atKeyword_append ht.isKeywordChar hRest hBefore]
      split
      · next hAt =>
          obtain ⟨hne, hAt, -⟩ := atKeyword_eq_true_iff.1 hAt
          rw [advance_append before start rest (List.length_pos_iff.2 hne) hAt.length_le]
          rfl
      · rfl
  | mark a =>
      simp only [Token.readHere, List.head?_append_of_ne_nil w hw, hFirst]
      split
      · rfl
      · rfl
  | index =>
      simp only [Token.readHere, List.head?_append_of_ne_nil w hw, hFirst]
      split
      · rfl
      · rfl
  | v0 =>
      simp only [Token.readHere, reg?_append start hw hRest]
      split
      · next hReg =>
          rw [advance_append before start rest Nat.two_pos (length_le_of_reg? hReg)]
          rfl
      · rfl
  | reg => exact readReg_append start hw hRest
  | number field => exact readNumber_append start hw hRest
  | address =>
      simp only [Token.readHere, Attempt.followedBy_orElse]
      rw [readNumber_append start hw hRest, readName_append start hw hRest]
  | regOrByte =>
      simp only [Token.readHere, Attempt.followedBy_orElse]
      rw [readReg_append start hw hRest, readNumber_append start hw hRest]
  | name => exact readName_append start hw hRest
  | line => exact absurd ht id

/-- Reading a token at a word is reading it in the word alone. -/
theorem readHere_word {t : Token} (ht : t.Plain) (hw : IsWord w) (hRest : Clear rest.head?)
    (hBefore : Clear before) :
    t.readHere ⟨before, w ++ rest⟩ = (t.readHere ⟨none, w⟩).followedBy rest :=
  readHere_append ht hw.1 hRest (any_isKeywordChar_of_clear hBefore)

section NoWord

variable {text : List Char}

theorem atKeyword_of_noWord {k : List Char} (hk : ∀ c ∈ k, isKeywordChar c = true)
    (hText : text.head?.any (fun a => isKeywordChar (upper a)) = false) :
    Cursor.atKeyword k ⟨before, text⟩ = false := by
  cases k with
  | nil => rfl
  | cons a k =>
      refine Bool.eq_false_iff.2 fun hAt => ?_
      have hKeyword : KeywordAt (a :: k) text := (atKeyword_eq_true_iff.1 hAt).2.1
      exact not_keywordAt_of_noWord (hk a List.mem_cons_self) hText hKeyword

theorem reg?_of_noWord (hText : text.head?.any (fun a => isKeywordChar (upper a)) = false) :
    Cursor.reg? ⟨before, text⟩ = none := by
  refine Option.eq_none_iff_forall_ne_some.2 fun r hReg => ?_
  obtain ⟨v, d, rest, rfl, hv, -⟩ := reg?_eq_some_iff.1 hReg
  have hNot : isKeywordChar (upper v) = false := hText
  rcases hv with rfl | rfl
  · exact absurd hNot (by decide)
  · exact absurd hNot (by decide)

theorem ofText?_of_noWord (hText : text.head?.any (fun a => isKeywordChar (upper a)) = false) :
    Numeral.ofText? text = none := by
  cases text with
  | nil => exact Numeral.ofText?_nil
  | cons d text =>
      have hName : Cursor.isNameChar d = false := isNameChar_of_isKeywordChar_upper hText
      have hDec : d.isDigit = false := by
        delta Cursor.isNameChar Char.isAlphanum at hName
        rw [Bool.or_eq_false_iff, Bool.or_eq_false_iff] at hName
        exact hName.1.2
      have hZero : d ≠ '0' := by
        rintro rfl
        cases hDec
      rw [Numeral.ofText?, hex?_eq_marked?, bin?_eq_marked?, marked?_of_ne hZero,
        marked?_of_ne hZero]
      simp [Numeral.dec?, hDec]

theorem name_of_noWord (hText : text.head?.any (fun a => isKeywordChar (upper a)) = false) :
    Cursor.name ⟨before, text⟩ = [] := by
  cases text with
  | nil => rfl
  | cons d text =>
      refine if_neg fun hStart => ?_
      have hName : Cursor.isNameChar d = false := isNameChar_of_isKeywordChar_upper hText
      rw [isNameChar_of_isNameStart hStart] at hName
      cases hName

/-- Where no word begins only a mark can be read. -/
theorem readHere_of_noWord {t : Token} (ht : t.Plain) (hMark : ∀ a, t ≠ .mark a)
    (hText : text.head?.any (fun a => isKeywordChar (upper a)) = false) :
    t.readHere ⟨before, text⟩ = .miss := by
  have hReg : Cursor.readReg ⟨before, text⟩ = .miss := by
    rw [Cursor.readReg, reg?_of_noWord hText]
  have hNumber : ∀ field, Cursor.readNumber field ⟨before, text⟩ = .miss := by
    intro field
    simp only [Cursor.readNumber, ofText?_of_noWord hText]
  have hName : Cursor.readText (Cursor.name ⟨before, text⟩) ⟨before, text⟩ = .miss := by
    rw [name_of_noWord hText]
    rfl
  cases t with
  | keyword word => simp [Token.readHere, atKeyword_of_noWord ht.isKeywordChar hText]
  | mark a => exact absurd rfl (hMark a)
  | index =>
      cases text with
      | nil => rfl
      | cons d text =>
          have hLetter : upper d ≠ 'I' := upper_ne_of_isKeywordChar hText (by decide)
          simp [Token.readHere, hLetter]
  | v0 => simp [Token.readHere, reg?_of_noWord hText]
  | reg => exact hReg
  | number field => exact hNumber field
  | address => rw [Token.readHere, hNumber, hName]; rfl
  | regOrByte => rw [Token.readHere, hReg, hNumber]; rfl
  | name => exact hName
  | line => exact absurd ht id

theorem readHere_of_clear {t : Token} (ht : t.Plain) (hMark : ∀ a, t ≠ .mark a)
    (hText : Clear text.head?) : t.readHere ⟨before, text⟩ = .miss :=
  readHere_of_noWord ht hMark (any_isKeywordChar_of_clear hText)

end NoWord

/-- At the end of a text no token can be read. -/
theorem readHere_nil (t : Token) (before : Option Char) : t.readHere ⟨before, []⟩ = .miss := by
  cases t with
  | keyword word =>
      have hAt : Cursor.atKeyword word.toList ⟨before, []⟩ = false := by
        cases word.toList with
        | nil => rfl
        | cons a k => simp [Cursor.atKeyword]
      rw [Token.readHere, hAt]
      rfl
  | _ => rfl

/-- Reading a token at a mark is reading it in the mark alone. -/
theorem readHere_mark {t : Token} (ht : t.Plain) (hw : IsMark w) :
    t.readHere ⟨before, w ++ rest⟩ = (t.readHere ⟨none, w⟩).followedBy rest := by
  obtain ⟨c, hc, rfl⟩ := hw
  have hClear : ∀ text : List Char, Clear ([c] ++ text).head? := by
    intro text d hd
    cases hd
    exact mem_delimiters_of_mem_marks hc
  by_cases hMark : ∃ a, t = .mark a
  · obtain ⟨a, rfl⟩ := hMark
    simp only [Token.readHere, List.singleton_append, List.head?_cons, Option.some.injEq]
    by_cases hc : c = a
    · simp only [hc, if_true]
      rfl
    · simp only [hc, if_false]
      rfl
  · have hOther : ∀ a, t ≠ .mark a := fun a ha => hMark ⟨a, ha⟩
    have hAlone : t.readHere ⟨none, [c]⟩ = .miss := readHere_of_clear ht hOther (hClear [])
    rw [readHere_of_clear ht hOther (hClear rest), hAlone]
    rfl

end Tokens

end Chip8.Assembly
