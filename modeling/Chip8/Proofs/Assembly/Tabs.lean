import Chip8.Proofs.Assembly.Grammar

/-!
# Tabs between lexemes

Tabs are replaced by spaces before a source is read.  In a source of lexemes they stand between these
or in comments, so replacing them changes the gaps and nothing else: the lexemes stay the same and
stay apart (`exists_textOf_expandTabsFrom`).
-/

namespace Chip8.Assembly

open Text

/-! ## Columns -/

/-- The text after another is expanded as if it stood at some column. -/
theorem exists_expandTabsFrom_append (column : Nat) (text : List Char) : ∃ next, ∀ rest,
    expandTabsFrom column (text ++ rest) =
      expandTabsFrom column text ++ expandTabsFrom next rest := by
  induction text generalizing column with
  | nil => exact ⟨column, fun rest => rfl⟩
  | cons c text ih =>
      by_cases hTab : c = '\t'
      · obtain ⟨next, hNext⟩ := ih (column + (tabStop - column % tabStop))
        refine ⟨next, fun rest => ?_⟩
        simp only [List.cons_append, expandTabsFrom, hTab, if_true, hNext, List.append_assoc]
      · by_cases hEnd : (c = '\n' || c = '\r') = true
        · obtain ⟨next, hNext⟩ := ih 0
          refine ⟨next, fun rest => ?_⟩
          simp only [List.cons_append, expandTabsFrom, hTab, hEnd, if_true, if_false, hNext]
        · obtain ⟨next, hNext⟩ := ih (column + 1)
          refine ⟨next, fun rest => ?_⟩
          simp only [List.cons_append, expandTabsFrom, hTab, hEnd, if_false, hNext]
          rfl

theorem expandTabsFrom_ne_nil {text : List Char} (h : text ≠ []) (column : Nat) :
    expandTabsFrom column text ≠ [] := by
  obtain ⟨c, text, rfl⟩ := List.exists_cons_of_ne_nil h
  have hWidth : tabStop - column % tabStop ≠ 0 := by
    unfold tabStop
    omega
  unfold expandTabsFrom
  split
  · exact List.append_ne_nil_of_left_ne_nil (by simpa using hWidth) _
  · split
    · exact List.cons_ne_nil _ _
    · exact List.cons_ne_nil _ _

theorem newline_notMem_expandTabsFrom {text : List Char} (h : '\n' ∉ text) (column : Nat) :
    '\n' ∉ expandTabsFrom column text := by
  induction text generalizing column with
  | nil => exact List.not_mem_nil
  | cons c text ih =>
      rw [List.mem_cons, not_or] at h
      obtain ⟨hc, hText⟩ := h
      unfold expandTabsFrom
      split
      · simp [ih hText]
      · split
        · simp [hc, ih hText]
        · simp [hc, ih hText]

/-! ## Gaps -/

theorem Trivia.append {front back : List Char} (hFront : Trivia front) (hBack : Trivia back) :
    Trivia (front ++ back) := by
  induction hFront with
  | nil => exact hBack
  | blank hc hGap ih => exact .blank hc ih
  | @comment body gap hBody hGap ih =>
      rw [List.cons_append, List.append_assoc, List.cons_append]
      exact .comment hBody ih

theorem trivia_replicate_space (k : Nat) : Trivia (List.replicate k ' ') := by
  induction k with
  | zero => exact .nil
  | succ k ih => exact .blank (by decide) ih

/-- Expanding the tabs of trivia leaves trivia. -/
theorem Trivia.expandTabsFrom {gap : List Char} (h : Trivia gap) (column : Nat) :
    Trivia (Text.expandTabsFrom column gap) := by
  induction h generalizing column with
  | nil => exact .nil
  | @blank c gap hc hGap ih =>
      unfold Text.expandTabsFrom
      split
      · exact (trivia_replicate_space _).append (ih _)
      · split
        · exact .blank hc (ih _)
        · exact .blank hc (ih _)
  | @comment body gap hBody hGap ih =>
      obtain ⟨next, hNext⟩ := exists_expandTabsFrom_append (column + 1) body
      have hComment : Text.expandTabsFrom column (';' :: (body ++ '\n' :: gap)) =
          ';' :: (Text.expandTabsFrom (column + 1) body ++
            '\n' :: Text.expandTabsFrom 0 gap) := by
        show ';' :: Text.expandTabsFrom (column + 1) (body ++ '\n' :: gap) = _
        rw [hNext]
        rfl
      rw [hComment]
      exact .comment (newline_notMem_expandTabsFrom hBody _) (ih 0)

theorem Trailing.expandTabsFrom {text : List Char} (h : Trailing text) (column : Nat) :
    Trailing (Text.expandTabsFrom column text) := by
  rcases h with h | ⟨gap, body, hGap, hBody, rfl⟩
  · exact .inl (h.expandTabsFrom column)
  · obtain ⟨next, hNext⟩ := exists_expandTabsFrom_append column gap
    refine .inr ⟨_, _, hGap.expandTabsFrom column,
      newline_notMem_expandTabsFrom hBody (next + 1), ?_⟩
    rw [hNext]
    rfl

/-- Trivia that is not empty ends with a blank. -/
theorem Trivia.clear_getLast? {gap : List Char} (h : Trivia gap) : Clear gap.getLast? := by
  induction h with
  | nil => exact clear_none
  | @blank c gap hc hGap ih =>
      intro d hd
      rw [List.getLast?_cons, Option.mem_some_iff] at hd
      cases hLast : gap.getLast? with
      | none =>
          rw [hLast] at hd
          exact hd ▸ mem_delimiters_of_isBlank hc
      | some e =>
          rw [hLast] at hd
          exact ih d (hd ▸ hLast)
  | @comment body gap hBody hGap ih =>
      intro d hd
      have hEnd : (';' :: (body ++ '\n' :: gap)).getLast? = some (gap.getLast?.getD '\n') := by
        simp [List.getLast?_cons, List.getLast?_append]
      rw [hEnd, Option.mem_some_iff] at hd
      cases hLast : gap.getLast? with
      | none =>
          rw [hLast] at hd
          subst hd
          decide
      | some e =>
          rw [hLast] at hd
          exact ih d (hd ▸ hLast)

/-- What stands before a word after a gap that is not empty is the end of this gap. -/
theorem clear_expandTabsFrom {gap : List Char} {before : Option Char} (hGap : Trivia gap)
    (hClear : Clear (gap.getLast?.or before)) (column : Nat) :
    Clear ((Text.expandTabsFrom column gap).getLast?.or before) := by
  by_cases hEmpty : gap = []
  · subst hEmpty
    exact hClear
  · have hne := expandTabsFrom_ne_nil hEmpty column
    have hEnd := (hGap.expandTabsFrom column).clear_getLast?
    rw [List.getLast?_eq_some_getLast hne] at hEnd ⊢
    exact hEnd

/-! ## Lexemes -/

/-- Expanding the tabs of a source leaves its lexemes as they are, and apart. -/
theorem exists_textOf_expandTabsFrom {before : Option Char} {xs : List Lexeme}
    {trailing : List Char} (hSpaced : WellSpaced before xs) (hTrailing : Trailing trailing)
    (column : Nat) : ∃ ys rest,
      Text.expandTabsFrom column (textOf xs ++ trailing) = textOf ys ++ rest ∧
        ys.map Lexeme.chars = xs.map Lexeme.chars ∧ WellSpaced before ys ∧ Trailing rest := by
  induction xs generalizing before column with
  | nil => exact ⟨[], _, rfl, rfl, trivial, hTrailing.expandTabsFrom column⟩
  | cons x xs ih =>
      have hTabs : '\t' ∉ x.chars := tab_notMem_of_isLexeme (hSpaced.isLexeme x List.mem_cons_self)
      obtain ⟨hGap, hLexeme, hRest⟩ := hSpaced
      obtain ⟨afterGap, hAfterGap⟩ := exists_expandTabsFrom_append column x.gap
      obtain ⟨afterWord, hAfterWord⟩ := exists_expandTabsFrom_append afterGap x.chars
      obtain ⟨ys, rest, hText, hChars, hSpaced, hEnd⟩ := ih hRest afterWord
      refine ⟨⟨Text.expandTabsFrom column x.gap, x.chars⟩ :: ys, rest, ?_, ?_, ?_, hEnd⟩
      · rw [textOf_cons, textOf_cons, List.append_assoc, List.append_assoc, hAfterGap, hAfterWord,
          expandTabsFrom_of_notMem hTabs, hText]
        simp only [List.append_assoc]
      · rw [List.map_cons, List.map_cons, hChars]
      · refine ⟨hGap.expandTabsFrom column, ?_, hSpaced⟩
        exact hLexeme.imp id fun h => ⟨h.1, clear_expandTabsFrom hGap h.2 column⟩

end Chip8.Assembly
