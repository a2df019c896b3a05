import Chip8.Proofs.Assembly.Concatenation
import Chip8.Proofs.Assembly.Outcome

/-!
# The rounds of reading

A text is read in rounds.  Each passes over blanks and comments, and then takes at least one
character: those of a label or a command, or all that is left of a line (`round_of_readStatement`).
So there are no more rounds than characters.

There is a next round wherever the next character is no white space, since the last form takes any
line that does not begin with it (`readStatement_eq_miss_iff`).  So reading ends at the end of the
text, or at the first place where white space stands that is no blank.  In a comment or in a line
that is taken such a character does nothing (`statements_readsInRounds`).
-/

namespace Chip8.Assembly

open Text

/-- The statements are read one after the other, from the one place to the other. -/
inductive Rounds : Cursor → List Statement → Cursor → Prop where
  | nil (c : Cursor) : Rounds c [] c
  | cons {c next last : Cursor} {s : Statement} {found : List Statement}
      (hFirst : readStatement c = .hit s next) (hRest : Rounds next found last) :
      Rounds c (s :: found) last

/-- The statement takes the text as far as `rest`: it is written there, or it is unknown and takes
all that is left of the line. -/
inductive Statement.Takes : Statement → List Char → List Char → Prop where
  | written {s : Statement} {xs : List Lexeme} {text rest : List Char}
      (hWritten : s.Written (xs.map Lexeme.chars)) (hCovers : Covers text xs rest) :
      s.Takes text rest
  | line {taken text rest : List Char} (hText : text = taken ++ rest) (hLine : '\n' ∉ taken)
      (hRest : ∀ a ∈ rest.head?, a = '\n') : (unknown (String.ofList taken)).Takes text rest

/-- What one round does: after blanks and comments at least one character is taken. -/
structure Round (c : Cursor) (s : Statement) (next : Cursor) : Prop where
  skipped : ∃ gap, Trivia gap ∧ c.rest = gap ++ c.skip.rest
  taken : ∃ text, text ≠ [] ∧ c.skip.rest = text ++ next.rest
  takes : s.Takes c.skip.rest next.rest

/-- The character at the offset is in a comment before a statement, or it is taken in a round: in an
unknown line, or in a command, where comments may stand between the lexemes. -/
inductive Passed (text : List Char) (offset : Nat) : Prop where
  | comment {found : List Statement} {c : Cursor} {gap body rest : List Char}
      (hPlace : Rounds (.start text) found c) (hGap : Trivia gap)
      (hText : c.rest = gap ++ ';' :: (body ++ rest)) (hBody : '\n' ∉ body)
      (hFrom : text.length - (body ++ rest).length ≤ offset)
      (hBefore : offset < text.length - rest.length)
  | taken {found : List Statement} {c next : Cursor} {s : Statement}
      (hPlace : Rounds (.start text) found c) (hRead : readStatement c = .hit s next)
      (hFrom : text.length - c.skip.rest.length ≤ offset)
      (hBefore : offset < text.length - next.rest.length)

/-- How a text is read and what comes of it, round by round. -/
structure ReadsInRounds (text : List Char) (outcome : Except Error (List Statement)) : Prop where
  /-- There are no more rounds than characters. -/
  bounded : ∀ found c, Rounds (.start text) found c → found.length + c.rest.length ≤ text.length
  round : ∀ found c s next, Rounds (.start text) found c → readStatement c = .hit s next →
    Round c s next
  /-- There is one more round wherever the next character is no white space. -/
  goes_on : ∀ found c, Rounds (.start text) found c →
    ((∃ s next, readStatement c = .hit s next) ↔ ∃ a ∈ c.skip.rest.head?, isSpace a = false)
  /-- Reading ends where the text does, or at the first place with a character that is white space
  and no blank, at the offset of this character. -/
  ends : ∃ found last, Rounds (.start text) found last ∧
    (∀ front c, Rounds (.start text) front c →
      c = last ∨ ∃ a ∈ c.skip.rest.head?, isSpace a = false) ∧
    (last.skip.rest = [] ∧ outcome = .ok found ∨
      ∃ before a rest, text = before ++ a :: rest ∧ last.skip.rest = a :: rest ∧
        isSpace a = true ∧ isBlank a = false ∧ outcome = .error (.unreadable before.length))
  /-- What is passed stops nothing, whatever it is. -/
  passed : ∀ offset, Passed text offset → outcome ≠ .error (.unreadable offset)

/-! ## Skipping -/

namespace Cursor

/-- Skipping ends where the text does, or at a character that may not be skipped. -/
theorem skipFrom_stops (inComment : Bool) (before : Option Char) (text : List Char) :
    ∀ a ∈ (skipFrom inComment before text).rest.head?, isBlank a = false ∧ a ≠ ';' := by
  induction text generalizing inComment before with
  | nil => exact fun a ha => nomatch ha
  | cons c text ih =>
      rw [skipFrom]
      split
      · exact ih _ _
      · split
        · exact ih _ _
        · split
          · exact ih _ _
          · next hBlank hComment =>
              intro a ha
              cases ha
              exact ⟨Bool.eq_false_iff.2 hBlank, hComment⟩

theorem skip_skip (c : Cursor) : c.skip.skip = c.skip := by
  have hStop : ∀ a ∈ c.skip.rest.head?, isBlank a = false ∧ a ≠ ';' := skipFrom_stops _ _ _
  generalize c.skip = stop at hStop ⊢
  obtain ⟨before, rest⟩ := stop
  cases rest with
  | nil => rfl
  | cons a rest => exact skipFrom_of_stop (hStop a rfl).1 (hStop a rfl).2 _ _

theorem skip_suffix (c : Cursor) : c.skip.rest <:+ c.rest := by
  obtain ⟨gap, hText, -⟩ := exists_gapBefore_skip c
  exact ⟨gap, hText.symm⟩

/-- Inside a comment all is skipped up to the end of the line. -/
theorem skipFrom_comment_suffix {body : List Char} (h : '\n' ∉ body) (before : Option Char)
    (rest : List Char) : (skipFrom true before (body ++ rest)).rest <:+ rest := by
  induction body generalizing before with
  | nil =>
      obtain ⟨gap, hText, -⟩ := (exists_gapBefore_skipFrom rest before).2 [] List.not_mem_nil
      exact ⟨gap, hText.symm⟩
  | cons c body ih =>
      rw [List.mem_cons, not_or] at h
      have hStays : decide (c ≠ '\n') = true := decide_eq_true (Ne.symm h.1)
      rw [List.cons_append, skipFrom, if_pos rfl, hStays]
      exact ih h.2 _

theorem skip_comment_suffix {c : Cursor} {gap body rest : List Char} (hGap : Trivia gap)
    (hBody : '\n' ∉ body) (hText : c.rest = gap ++ ';' :: (body ++ rest)) :
    c.skip.rest <:+ rest := by
  have hSemicolon : isBlank ';' = false := by decide
  rw [skip, hText, skipFrom_trivia hGap, skipFrom, if_neg Bool.false_ne_true,
    if_neg (Bool.eq_false_iff.1 hSemicolon), if_pos rfl]
  exact skipFrom_comment_suffix hBody _ _

end Cursor

theorem readStatement_skip (c : Cursor) : readStatement c.skip = readStatement c :=
  readStatement_congr fun t _ => by rw [Token.read, Token.read, c.skip_skip]

/-! ## Where nothing can be read -/

section Round

variable {c next last mid : Cursor} {s : Statement} {found front : List Statement}

/-- Only a line that begins with white space is not there to be read. -/
theorem line_eq_nil_iff : c.line = [] ↔ ∀ a ∈ c.rest.head?, isSpace a = true := by
  obtain ⟨before, rest⟩ := c
  cases rest with
  | nil => simp [Cursor.line]
  | cons a rest =>
      by_cases hSpace : isSpace a = true
      · simp [Cursor.line, hSpace]
      · have hEnd : a ≠ '\n' := by
          rintro rfl
          exact hSpace (by decide)
        simp [Cursor.line, hSpace, hEnd]

theorem read_unknown (c : Cursor) : Form.unknown.read c =
    if c.skip.line = [] then .miss
    else .hit (.unknown (String.ofList c.skip.line)) (c.skip.advance c.skip.line.length) := by
  simp only [Form.read, Form.tokens, Token.readAll, Token.read, Token.readHere, Cursor.readText,
    List.isEmpty_iff]
  split
  · rfl
  · rfl

theorem Token.read_of_space {t : Token} (ht : t.Plain) (hMark : t.isMark = false)
    (hSpace : ∀ a ∈ c.skip.rest.head?, isSpace a = true) : t.read c = .miss := by
  have hOther : ∀ a, t ≠ .mark a := by
    rintro a rfl
    cases hMark
  have hText : c.skip.rest.head?.any (fun a => isKeywordChar (upper a)) = false := by
    cases hHead : c.skip.rest.head? with
    | none => rfl
    | some a => exact isKeywordChar_upper_of_isSpace (hSpace a hHead)
  exact readHere_of_noWord ht hOther hText

theorem Form.read_of_space (f : Form) (hSpace : ∀ a ∈ c.skip.rest.head?, isSpace a = true) :
    f.read c = .miss := by
  by_cases hf : f = .unknown
  · rw [hf, read_unknown, if_pos (line_eq_nil_iff.2 hSpace)]
  · obtain ⟨t, ts, hTokens, hMark⟩ := exists_tokens_eq hf
    have hPlain := plain_of_mem_tokens hf t (by simp [hTokens])
    refine read_of_miss ?_
    rw [hTokens, Token.readAll, Token.read_of_space hPlain hMark hSpace]
    rfl

theorem readFirst_eq_miss_iff {fs : List Form} :
    readFirst fs c = .miss ↔ ∀ f ∈ fs, f.read c = .miss := by
  refine ⟨fun h => ?_, readFirst_of_miss⟩
  induction fs with
  | nil => exact List.forall_mem_nil _
  | cons f fs ih =>
      rw [readFirst] at h
      cases hFirst : f.read c with
      | miss =>
          rw [hFirst] at h
          exact List.forall_mem_cons.2 ⟨hFirst, ih h⟩
      | abort e =>
          rw [hFirst] at h
          cases h
      | hit s next =>
          rw [hFirst] at h
          cases h

/-- Nothing can be read at the end, and where white space is left that is not skipped. -/
theorem readStatement_eq_miss_iff :
    readStatement c = .miss ↔ ∀ a ∈ c.skip.rest.head?, isSpace a = true := by
  constructor
  · intro h
    have hLast := readFirst_eq_miss_iff.1 h .unknown Form.unknown.mem_order
    rw [read_unknown] at hLast
    split at hLast
    · next hLine => exact line_eq_nil_iff.1 hLine
    · cases hLast
  · exact fun h => readFirst_of_miss fun f _ => f.read_of_space h

theorem exists_isSpace_eq_false_of_readStatement (h : readStatement c = .hit s next) :
    ∃ a ∈ c.skip.rest.head?, isSpace a = false := by
  by_contra hNone
  have hMiss : readStatement c = .miss := by
    refine readStatement_eq_miss_iff.2 fun a ha => ?_
    by_contra hNot
    exact hNone ⟨a, ha, Bool.eq_false_iff.2 hNot⟩
  rw [hMiss] at h
  cases h

/-! ## One round -/

theorem takes_of_read_unknown (h : Form.unknown.read c = .hit s next) :
    s.Takes c.skip.rest next.rest := by
  rw [read_unknown] at h
  split at h
  · cases h
  · next hLine =>
      cases h
      have hSpace : ¬ c.skip.rest.head?.any isSpace = true := fun hSpace => hLine (if_pos hSpace)
      have hTaken : c.skip.line = c.skip.rest.takeWhile (· ≠ '\n') := if_neg hSpace
      have hRest : (c.skip.advance c.skip.line.length).rest = c.skip.rest.dropWhile (· ≠ '\n') := by
        rw [Cursor.rest_advance, hTaken, drop_length_takeWhile]
      have hText : c.skip.rest = c.skip.line ++ c.skip.rest.dropWhile (· ≠ '\n') := by
        rw [hTaken, List.takeWhile_append_dropWhile]
      have hNone : '\n' ∉ c.skip.line := by
        intro hEnd
        rw [hTaken] at hEnd
        exact absurd (List.mem_takeWhile_imp hEnd) (by decide)
      rw [hRest]
      refine .line hText hNone fun a ha => ?_
      have hStop := List.head?_dropWhile_not (fun b => decide (b ≠ '\n')) c.skip.rest
      rw [Option.mem_def.1 ha] at hStop
      simpa using hStop

/-- A round passes over trivia, and takes what its statement is written with, or a line. -/
theorem round_of_readStatement (h : readStatement c = .hit s next) : Round c s next := by
  have hSkip : readStatement c.skip = .hit s next := (readStatement_skip c).trans h
  have hShorter := length_lt_of_readStatement hSkip
  have hTakes : s.Takes c.skip.rest next.rest := by
    obtain ⟨pre, f, post, -, -, hRead⟩ := exists_split_of_readFirst hSkip
    by_cases hf : f = .unknown
    · subst hf
      have hLine := takes_of_read_unknown hRead
      rwa [c.skip_skip] at hLine
    · obtain ⟨xs, hWritten, hCovers⟩ := Form.exists_covers_of_read hf hRead
      exact .written hWritten hCovers
  have hTaken : ∃ text, c.skip.rest = text ++ next.rest := by
    generalize c.skip.rest = text at hTakes
    cases hTakes with
    | written hWritten hCovers => exact ⟨_, hCovers.text_eq⟩
    | line hText hLine hRest => exact ⟨_, hText⟩
  obtain ⟨text, hText⟩ := hTaken
  obtain ⟨gap, hGapText, hGap⟩ := exists_gapBefore_skip c
  refine ⟨⟨gap, hGap.resolve_right fun hEnd => ?_, hGapText⟩, ⟨text, ?_, hText⟩, hTakes⟩
  · rw [hEnd.1] at hShorter
    exact absurd hShorter (Nat.not_lt_zero _)
  · rintro rfl
    rw [hText] at hShorter
    exact absurd hShorter (Nat.lt_irrefl _)

theorem Round.suffix (h : Round c s next) : next.rest <:+ c.skip.rest := by
  obtain ⟨text, -, hText⟩ := h.taken
  exact ⟨text, hText.symm⟩

/-! ## All rounds -/

theorem Rounds.concat (h : Rounds c found mid) (hLast : readStatement mid = .hit s last) :
    Rounds c (found ++ [s]) last := by
  induction h with
  | nil c => exact .cons hLast (.nil last)
  | cons hFirst hRest ih => exact .cons hFirst (ih hLast)

theorem Rounds.length_add_le (h : Rounds c found last) :
    found.length + last.rest.length ≤ c.rest.length := by
  induction h with
  | nil c => simp
  | cons hFirst hRest ih =>
      have := length_lt_of_readStatement hFirst
      simp only [List.length_cons]
      omega

theorem Rounds.suffix (h : Rounds c found last) : last.rest <:+ c.rest := by
  induction h with
  | nil c => exact List.suffix_refl _
  | @cons c next last s found hFirst hRest ih =>
      exact (ih.trans (round_of_readStatement hFirst).suffix).trans c.skip_suffix

/-- Further rounds leave no more than what is left after skipping. -/
theorem Rounds.skip_suffix (h : Rounds c found last) : last.skip.rest <:+ c.skip.rest := by
  cases h with
  | nil c => exact List.suffix_refl _
  | cons hFirst hRest =>
      exact (last.skip_suffix.trans hRest.suffix).trans (round_of_readStatement hFirst).suffix

/-- Any rounds are the first of those that cannot go on. -/
theorem Rounds.exists_back (h : Rounds c front mid) (hAll : Rounds c found last)
    (hEnd : readStatement last = .miss) : ∃ back, found = front ++ back ∧ Rounds mid back last := by
  induction h generalizing found with
  | nil c => exact ⟨found, rfl, hAll⟩
  | cons hFirst hRest ih =>
      cases hAll with
      | nil =>
          rw [hFirst] at hEnd
          cases hEnd
      | cons hSame hOthers =>
          rw [hFirst] at hSame
          cases hSame
          obtain ⟨back, rfl, hBack⟩ := ih hOthers
          exact ⟨back, rfl, hBack⟩

/-- Of the places that are reached reading ends at one and goes on at the others. -/
theorem Rounds.eq_or_exists_hit (h : Rounds c front mid) (hAll : Rounds c found last)
    (hEnd : readStatement last = .miss) :
    mid = last ∨ ∃ s next, readStatement mid = .hit s next := by
  obtain ⟨back, -, hBack⟩ := h.exists_back hAll hEnd
  cases hBack with
  | nil => exact .inl rfl
  | cons hFirst hRest => exact .inr ⟨_, _, hFirst⟩

/-- A text that does not break off is read in rounds until there is none. -/
theorem exists_rounds_of_readStatements {stop : Cursor}
    (h : readStatements c = .ok (found, stop)) :
    ∃ last, Rounds c found last ∧ readStatement last = .miss ∧ stop = last.skip := by
  fun_induction readStatements c generalizing found with
  | case1 c hMiss =>
      cases h
      exact ⟨c, .nil c, hMiss, rfl⟩
  | case2 c e hAbort => cases h
  | case3 c s next hHit others final hRest ih =>
      cases h
      obtain ⟨last, hRounds, hEnd, hStop⟩ := ih hRest
      exact ⟨last, .cons hHit hRounds, hEnd, hStop⟩
  | case4 c s next hHit e hRest ih => cases h

end Round

/-! ## Sources -/

section Reading

variable {text : List Char} {found : List Statement} {last : Cursor}

/-- What is passed lies before the place where the reading ends. -/
theorem Passed.lt {offset : Nat} (h : Passed text offset) (hAll : Rounds (.start text) found last)
    (hEnd : readStatement last = .miss) : offset < text.length - last.skip.rest.length := by
  cases h with
  | comment hPlace hGap hText hBody hFrom hBefore =>
      obtain ⟨back, -, hBack⟩ := hPlace.exists_back hAll hEnd
      have := (hBack.skip_suffix.trans (Cursor.skip_comment_suffix hGap hBody hText)).length_le
      omega
  | taken hPlace hRead hFrom hBefore =>
      obtain ⟨back, -, hBack⟩ := (hPlace.concat hRead).exists_back hAll hEnd
      have := (last.skip_suffix.trans hBack.suffix).length_le
      omega

/-- Where reading ends before the end of the text there is white space that is no blank, and it is
given up at the offset of this character. -/
theorem statementsOfText_eq_error_of_rounds
    (h : readStatements (.start text) = .ok (found, last.skip))
    (hAll : Rounds (.start text) found last) (hEnd : readStatement last = .miss)
    (hRest : last.skip.rest ≠ []) :
    ∃ before a rest, text = before ++ a :: rest ∧ last.skip.rest = a :: rest ∧
      isSpace a = true ∧ isBlank a = false ∧
        statementsOfText text = .error (.unreadable before.length) := by
  have hError := statementsOfText_eq_unreadable h hRest
  have hSpace := readStatement_eq_miss_iff.1 hEnd
  have hStop : ∀ a ∈ last.skip.rest.head?, isBlank a = false ∧ a ≠ ';' :=
    Cursor.skipFrom_stops _ _ _
  obtain ⟨before, hText⟩ := last.skip_suffix.trans hAll.suffix
  obtain ⟨a, rest, hEq⟩ := List.exists_cons_of_ne_nil hRest
  rw [hEq] at hError hSpace hStop hText
  have hSplit : text = before ++ a :: rest := hText.symm
  rw [hSplit, List.length_append, Nat.add_sub_cancel, ← hSplit] at hError
  exact ⟨before, a, rest, hSplit, hEq, hSpace a rfl, (hStop a rfl).1, hError⟩

/-- A text that does not break off is read in rounds. -/
theorem readsInRounds_of_readStatements {stop : Cursor}
    (h : readStatements (.start text) = .ok (found, stop)) :
    ReadsInRounds text (statementsOfText text) := by
  obtain ⟨last, hAll, hEnd, rfl⟩ := exists_rounds_of_readStatements h
  refine ⟨fun found c hPlace => hPlace.length_add_le,
    fun found c s next _ => round_of_readStatement, fun front c hPlace => ⟨?_, ?_⟩,
    ⟨found, last, hAll, fun front c hPlace => ?_, ?_⟩, ?_⟩
  · rintro ⟨s, next, hHit⟩
    exact exists_isSpace_eq_false_of_readStatement hHit
  · rintro ⟨a, ha, hNot⟩
    refine (hPlace.eq_or_exists_hit hAll hEnd).resolve_left ?_
    rintro rfl
    rw [readStatement_eq_miss_iff.1 hEnd a ha] at hNot
    cases hNot
  · rcases hPlace.eq_or_exists_hit hAll hEnd with hLast | ⟨s, next, hHit⟩
    · exact .inl hLast
    · exact .inr (exists_isSpace_eq_false_of_readStatement hHit)
  · by_cases hRest : last.skip.rest = []
    · exact .inl ⟨hRest, statementsOfText_eq_ok_iff.2 ⟨last.skip, h, hRest⟩⟩
    · exact .inr (statementsOfText_eq_error_of_rounds h hAll hEnd hRest)
  · intro offset hPassed hError
    by_cases hRest : last.skip.rest = []
    · rw [statementsOfText_eq_ok_iff.2 ⟨last.skip, h, hRest⟩] at hError
      cases hError
    · rw [statementsOfText_eq_unreadable h hRest] at hError
      cases hError
      exact absurd (hPassed.lt hAll hEnd) (Nat.lt_irrefl _)

end Reading

/-- A source whose numbers can be converted and fit their fields is read in rounds, each of which
takes a label, a command or a line, up to the end or the first place where white space stands that
is no blank. -/
theorem statements_readsInRounds {source : String}
    (hDigits : ∀ field m, ReadsNumber source field m → m.Short)
    (hFit : ∀ field m, ReadsNumber source field m → m.value ≤ field.limit) :
    ReadsInRounds (expandTabs source.toList) (statements source) := by
  cases hReading : readStatements (.start (expandTabs source.toList)) with
  | error e =>
      obtain ⟨field, m, hRead, hError⟩ := readStatements_eq_error_iff.1 hReading
      rw [Numeral.inField_eq_ok_iff.2 ⟨hDigits field m hRead, rfl, hFit field m hRead⟩] at hError
      cases hError
  | ok reading => exact readsInRounds_of_readStatements hReading

/-- A vertical tab in a comment and a form feed in an unknown line are passed.  Then a vertical tab
before a command ends the reading. -/
theorem statements_readsInRounds_vertical_tab :
    (∀ field m, ReadsNumber "x:\t;\x0b\n?\x0c y\n \x0bDB 1" field m → m.Short) ∧
      (∀ field m, ReadsNumber "x:\t;\x0b\n?\x0c y\n \x0bDB 1" field m → m.value ≤ field.limit) ∧
        statements "x:\t;\x0b\n?\x0c y\n \x0bDB 1" = .error (.unreadable 17) ∧
          ReadsInRounds (expandTabs "x:\t;\x0b\n?\x0c y\n \x0bDB 1".toList)
            (.error (.unreadable 17)) := by
  have hDigits : ∀ field m, ReadsNumber "x:\t;\x0b\n?\x0c y\n \x0bDB 1" field m → m.Convertible :=
    fun field m => convertible_of_readsNumber (by decide)
  have hReading : readStatements (.start (expandTabs "x:\t;\x0b\n?\x0c y\n \x0bDB 1".toList)) =
      .ok ([.label "x", .unknown "?\x0c y"], ⟨some ' ', "\x0bDB 1".toList⟩) :=
    toOption_eq_some_iff.1 (by decide +kernel)
  have hFit := (readsTo_of_readStatements hDigits hReading).fit
  have hShort := fun field m hRead => (hDigits field m hRead).1
  have hOutcome : statements "x:\t;\x0b\n?\x0c y\n \x0bDB 1" = .error (.unreadable 17) :=
    statementsOfText_eq_unreadable hReading (by decide)
  exact ⟨hShort, hFit, hOutcome, hOutcome ▸ statements_readsInRounds hShort hFit⟩

end Chip8.Assembly
