import Chip8.Proofs.Assembly.Lexeme

/-!
# Spacing

Between the lexemes of a source stand blanks and comments, and two words in a row have to be kept
apart.  A list of `Lexeme`s that is `WellSpaced` is read token by token, each token in the text of its
lexeme (`Token.read_textOf_cons`), so the way in which a source is spaced does not matter.
-/

namespace Chip8.Assembly

open Text

/-! ## Trivia -/

/-- The text is made up of blanks and of comments that end. -/
inductive Trivia : List Char → Prop where
  | nil : Trivia []
  | blank {c : Char} {gap : List Char} (hc : isBlank c = true) (hGap : Trivia gap) :
      Trivia (c :: gap)
  | comment {body gap : List Char} (hBody : '\n' ∉ body) (hGap : Trivia gap) :
      Trivia (';' :: (body ++ '\n' :: gap))

/-- What may stand at the end of a source: its last comment need not end. -/
def Trailing (text : List Char) : Prop :=
  Trivia text ∨ ∃ gap body, Trivia gap ∧ '\n' ∉ body ∧ text = gap ++ ';' :: body

theorem mem_delimiters_of_isBlank {c : Char} (h : isBlank c = true) : c ∈ delimiters := by
  simp only [isBlank, Bool.or_eq_true, decide_eq_true_eq] at h
  rcases h with ((rfl | rfl) | rfl) | rfl
  all_goals decide

theorem Trivia.clear_head? {gap : List Char} (h : Trivia gap) : Clear gap.head? := by
  intro c hc
  cases h with
  | nil => cases hc
  | blank hBlank hGap =>
      cases hc
      exact mem_delimiters_of_isBlank hBlank
  | comment hBody hGap =>
      cases hc
      decide

theorem Trailing.clear_head? {text : List Char} (h : Trailing text) : Clear text.head? := by
  rcases h with h | ⟨gap, body, hGap, -, rfl⟩
  · exact h.clear_head?
  · cases gap with
    | nil =>
        intro c hc
        cases hc
        decide
    | cons c gap => exact hGap.clear_head?

namespace Cursor

theorem skipFrom_comment {body : List Char} (h : '\n' ∉ body) (before : Option Char)
    (rest : List Char) :
    skipFrom true before (body ++ '\n' :: rest) = skipFrom false (some '\n') rest := by
  induction body generalizing before with
  | nil => simp [skipFrom]
  | cons c body ih =>
      rw [List.mem_cons, not_or] at h
      obtain ⟨hc, hBody⟩ := h
      have hNe : c ≠ '\n' := Ne.symm hc
      simp only [List.cons_append, skipFrom, if_true, hNe, decide_true, ne_eq, not_false_eq_true]
      exact ih hBody _

theorem skipFrom_comment_end {body : List Char} (h : '\n' ∉ body) (before : Option Char) :
    (skipFrom true before body).rest = [] := by
  induction body generalizing before with
  | nil => rfl
  | cons c body ih =>
      rw [List.mem_cons, not_or] at h
      obtain ⟨hc, hBody⟩ := h
      have hNe : c ≠ '\n' := Ne.symm hc
      simp only [skipFrom, if_true, hNe, decide_true, ne_eq, not_false_eq_true]
      exact ih hBody _

/-- Skipping passes over trivia. -/
theorem skipFrom_trivia {gap : List Char} (h : Trivia gap) (before : Option Char)
    (rest : List Char) :
    skipFrom false before (gap ++ rest) = skipFrom false (gap.getLast?.or before) rest := by
  induction h generalizing before with
  | nil => rfl
  | @blank c gap hc hGap ih =>
      simp only [List.cons_append, skipFrom, hc, Bool.false_eq_true, if_false, if_true]
      rw [ih, List.getLast?_cons]
      cases gap.getLast? <;> rfl
  | @comment body gap hBody hGap ih =>
      have hSemicolon : isBlank ';' = false := by decide
      simp only [List.cons_append, List.append_assoc, skipFrom, hSemicolon, Bool.false_eq_true,
        if_false, if_true]
      rw [skipFrom_comment hBody, ih]
      congr 1
      simp [List.getLast?_cons, List.getLast?_append]

/-- Skipping passes over the end of a source. -/
theorem skipFrom_trailing {text : List Char} (h : Trailing text) (before : Option Char) :
    (skipFrom false before text).rest = [] := by
  rcases h with h | ⟨gap, body, hGap, hBody, rfl⟩
  · have hSkip := skipFrom_trivia h before []
    rw [List.append_nil] at hSkip
    rw [hSkip]
    rfl
  · have hSemicolon : isBlank ';' = false := by decide
    rw [skipFrom_trivia hGap]
    simp only [skipFrom, hSemicolon, Bool.false_eq_true, if_false, if_true]
    exact skipFrom_comment_end hBody _

/-- Skipping stops at a word or a mark. -/
theorem skipFrom_of_stop {c : Char} (hBlank : isBlank c = false) (hComment : c ≠ ';')
    (before : Option Char) (rest : List Char) :
    skipFrom false before (c :: rest) = ⟨before, c :: rest⟩ := by
  simp only [skipFrom, hBlank, hComment, Bool.false_eq_true, if_false]

end Cursor

/-! ## Spaced lexemes -/

/-- A lexeme with the blanks and comments before it. -/
structure Lexeme where
  /-- The blanks and comments. -/
  gap : List Char
  /-- The word or mark. -/
  chars : List Char
deriving DecidableEq, Repr

/-- The text of lexemes. -/
def textOf (xs : List Lexeme) : List Char := xs.flatMap fun x => x.gap ++ x.chars

/-- The lexemes can be told apart, where the first comes after a character or at the start: a word
has a delimiter before it. -/
def WellSpaced : Option Char → List Lexeme → Prop
  | _, [] => True
  | before, x :: xs =>
    Trivia x.gap ∧ (IsMark x.chars ∨ IsWord x.chars ∧ Clear (x.gap.getLast?.or before)) ∧
      WellSpaced x.chars.getLast? xs

theorem textOf_cons (x : Lexeme) (xs : List Lexeme) :
    textOf (x :: xs) = x.gap ++ (x.chars ++ textOf xs) := by
  rw [textOf, List.flatMap_cons, List.append_assoc]
  rfl

theorem textOf_append (xs ys : List Lexeme) : textOf (xs ++ ys) = textOf xs ++ textOf ys :=
  List.flatMap_append

/-- Lexemes that are well spaced wherever they stand may follow others. -/
theorem WellSpaced.append {before : Option Char} {xs ys : List Lexeme} (hxs : WellSpaced before xs)
    (hys : ∀ last, WellSpaced last ys) : WellSpaced before (xs ++ ys) := by
  induction xs generalizing before with
  | nil => exact hys before
  | cons x xs ih =>
      obtain ⟨hGap, hLexeme, hRest⟩ := hxs
      exact ⟨hGap, hLexeme, ih hRest⟩

/-- After a word comes a delimiter, or nothing. -/
theorem clear_head?_textOf {before : Char} {xs : List Lexeme} {trailing : List Char}
    (hBefore : Cursor.isNameChar before = true) (hSpaced : WellSpaced (some before) xs)
    (hTrailing : Trailing trailing) : Clear (textOf xs ++ trailing).head? := by
  cases xs with
  | nil => exact hTrailing.clear_head?
  | cons x xs =>
      obtain ⟨hGap, hLexeme, -⟩ := hSpaced
      rw [textOf_cons, List.append_assoc]
      cases hFirst : x.gap with
      | cons c gap =>
          rw [hFirst] at hGap
          exact hGap.clear_head?
      | nil =>
          rcases hLexeme with ⟨c, hc, hMark⟩ | ⟨-, hClear⟩
          · rw [hMark]
            intro d hd
            cases hd
            exact mem_delimiters_of_mem_marks hc
          · rw [hFirst] at hClear
            exact absurd (hClear before rfl) (notMem_delimiters_of_isNameChar hBefore)

/-- Skipping ends at the lexeme. -/
theorem skip_textOf_cons {before : Option Char} {x : Lexeme} {xs : List Lexeme}
    (hSpaced : WellSpaced before (x :: xs)) (trailing : List Char) :
    Cursor.skip ⟨before, textOf (x :: xs) ++ trailing⟩ =
      ⟨x.gap.getLast?.or before, x.chars ++ (textOf xs ++ trailing)⟩ := by
  obtain ⟨hGap, hLexeme, -⟩ := hSpaced
  rw [Cursor.skip, textOf_cons, List.append_assoc, List.append_assoc, Cursor.skipFrom_trivia hGap]
  rcases hLexeme with ⟨c, hc, hMark⟩ | ⟨⟨hne, hChars⟩, -⟩
  · have hBlank : isBlank c = false :=
      Bool.eq_false_iff.2 (List.any_eq_false.1 (by decide : marks.any isBlank = false) c hc)
    have hComment : c ≠ ';' := by
      rintro rfl
      exact absurd hc (by decide)
    rw [hMark]
    exact Cursor.skipFrom_of_stop hBlank hComment _ _
  · obtain ⟨c, w, hWord⟩ := List.exists_cons_of_ne_nil hne
    rw [hWord] at hChars ⊢
    have hName := notMem_delimiters_of_isNameChar (hChars c List.mem_cons_self)
    refine Cursor.skipFrom_of_stop ?_ ?_ _ _
    · exact Bool.eq_false_iff.2 fun hBlank => hName (mem_delimiters_of_isBlank hBlank)
    · rintro rfl
      exact hName (by decide)

/-- Reading a token at a lexeme is reading it in the lexeme alone. -/
theorem Token.read_textOf_cons {t : Token} (ht : t.Plain) {before : Option Char} {x : Lexeme}
    {xs : List Lexeme} {trailing : List Char} (hSpaced : WellSpaced before (x :: xs))
    (hTrailing : Trailing trailing) :
    t.read ⟨before, textOf (x :: xs) ++ trailing⟩ =
      (t.readHere ⟨none, x.chars⟩).followedBy (textOf xs ++ trailing) := by
  rw [Token.read, skip_textOf_cons hSpaced]
  obtain ⟨-, hLexeme, hRest⟩ := hSpaced
  rcases hLexeme with hMark | ⟨hWord, hClear⟩
  · exact readHere_mark ht hMark
  · refine readHere_word ht hWord ?_ hClear
    rw [List.getLast?_eq_some_getLast hWord.1] at hRest
    exact clear_head?_textOf (hWord.2 _ (List.getLast_mem hWord.1)) hRest hTrailing

/-- After the last lexeme no token can be read. -/
theorem Token.read_trailing (t : Token) (before : Option Char) {trailing : List Char}
    (hTrailing : Trailing trailing) : t.read ⟨before, trailing⟩ = .miss := by
  have hEnd := Cursor.skipFrom_trailing hTrailing before
  rw [Token.read, Cursor.skip]
  generalize Cursor.skipFrom false before trailing = stop at hEnd ⊢
  obtain ⟨last, rest⟩ := stop
  cases hEnd
  exact readHere_nil t last

theorem tab_notMem_of_isLexeme {w : List Char} (h : IsMark w ∨ IsWord w) : '\t' ∉ w := by
  intro hTab
  rcases h with ⟨c, hc, rfl⟩ | hWord
  · rw [List.mem_singleton] at hTab
    subst hTab
    exact absurd hc (by decide)
  · exact absurd (hWord.2 _ hTab) (by decide)

/-- A text has no tabs if the gaps of its lexemes have none. -/
theorem tab_notMem_textOf {xs : List Lexeme} (hLexemes : ∀ x ∈ xs, IsMark x.chars ∨ IsWord x.chars)
    (hGaps : ∀ x ∈ xs, '\t' ∉ x.gap) : '\t' ∉ textOf xs := by
  intro hTab
  obtain ⟨x, hx, hTab⟩ := List.mem_flatMap.1 hTab
  rcases List.mem_append.1 hTab with hTab | hTab
  · exact hGaps x hx hTab
  · exact tab_notMem_of_isLexeme (hLexemes x hx) hTab

end Chip8.Assembly
