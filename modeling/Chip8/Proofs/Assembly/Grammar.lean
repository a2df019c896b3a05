import Chip8.Assembly.Source
import Chip8.Proofs.Assembly.Spelling
import Chip8.Proofs.Sequencing

/-!
# Reading what is spelled

Lexemes spell a statement if they spell the tokens and the tail of its form.  The forms are tried in
order, so a form is only read where all earlier ones miss.  That they do is a finite matter of the
tokens: `order_clashes` checks it for each pair of forms, and `missesAll_of_clashesAll` carries it
over to all spellings, whatever statement comes next.  So a sequence of statements is read from every
spelling of it (`statementsOfText_of_spells`).
-/

namespace Chip8.Assembly

/-! ## Forms in order -/

theorem Form.mem_order (f : Form) : f ∈ Form.order := by
  cases f with
  | bare op => cases op <;> decide
  | address op => cases op <;> decide
  | binary op => cases op <;> decide
  | pair op => cases op <;> decide
  | single op => cases op <;> decide
  | _ => decide

/-- All tokens but the rest of a line are plain. -/
theorem Form.plain_of_mem_tokens {f : Form} (hf : f ≠ .unknown) :
    ∀ t ∈ f.tokens, t.Plain := by
  have hAll : ∀ f ∈ Form.order, f ≠ .unknown → ∀ t ∈ f.tokens, t.Plain := by decide
  exact hAll f f.mem_order hf

/-- A form that is tried before another misses all spellings of that other. -/
theorem Form.order_clashes : Form.order.Pairwise fun g f =>
    g ≠ .unknown ∧ (f ≠ .unknown → clashesAll (f.tail = .none) g.tokens f.tokens = true) := by
  decide +kernel

/-! ## Statements -/

/-- The lexemes are a way to write what may follow the tokens of a form, and say `args`. -/
inductive Tail.Spells : Tail → List Lexeme → List Arg → Prop where
  | none : Spells .none [] []
  | noRegister : Spells .register [] []
  | register {xs : List Lexeme} {args : List Arg}
      (h : SpellsAll [Form.comma, .reg] xs args) : Spells .register xs []
  | noNumber (field : Field) : Spells (.numbers field) [] []
  | number {field : Field} {xs ys : List Lexeme} {args more : List Arg}
      (hFirst : SpellsAll [Form.comma, .number field] xs args)
      (hRest : Spells (.numbers field) ys more) :
      Spells (.numbers field) (xs ++ ys) (args ++ more)

/-- The lexemes are a way to write a statement in a form. -/
inductive Form.Spells (f : Form) : List Lexeme → Statement → Prop where
  | intro {front back : List Lexeme} {args more : List Arg} {s : Statement}
      (hTokens : SpellsAll f.tokens front args) (hTail : f.tail.Spells back more)
      (hStatement : f.statement? (args ++ more) = some s) : Spells f (front ++ back) s

/-- The lexemes are a way to write statements one after the other. -/
inductive SpellsProgram : List Lexeme → List Statement → Prop where
  | nil : SpellsProgram [] []
  | cons {f : Form} {xs ys : List Lexeme} {s : Statement} {found : List Statement}
      (hForm : f ≠ .unknown) (hFirst : f.Spells xs s) (hRest : SpellsProgram ys found) :
      SpellsProgram (xs ++ ys) (s :: found)

theorem WellSpaced.isLexeme {before : Option Char} {xs : List Lexeme} (h : WellSpaced before xs) :
    ∀ x ∈ xs, IsLexeme x.chars := by
  induction xs generalizing before with
  | nil => exact fun x hx => nomatch hx
  | cons x xs ih =>
      obtain ⟨-, hLexeme, hRest⟩ := h
      intro y hy
      rcases List.mem_cons.1 hy with rfl | hy
      · exact hLexeme.imp id And.left
      · exact ih hRest y hy

/-- Each form begins with a keyword or a name. -/
theorem Form.exists_tokens_eq {f : Form} (hf : f ≠ .unknown) :
    ∃ t ts, f.tokens = t :: ts ∧ t.isMark = false := by
  have hAll : ∀ f ∈ Form.order, f ≠ .unknown → f.tokens.head?.all (!·.isMark) = true := by decide
  have hFirst := hAll f f.mem_order hf
  obtain ⟨t, ts, hTokens⟩ := List.exists_cons_of_ne_nil f.tokens_ne_nil
  rw [hTokens] at hFirst
  exact ⟨t, ts, hTokens, by simpa using hFirst⟩

/-- A statement begins with a word. -/
theorem isWord_of_form_spells {f : Form} {xs : List Lexeme} {s : Statement} (hf : f ≠ .unknown)
    (h : f.Spells xs s) (hLexemes : ∀ x ∈ xs, IsLexeme x.chars) :
    ∃ x rest, xs = x :: rest ∧ IsWord x.chars := by
  obtain ⟨hTokens, -, -⟩ := h
  obtain ⟨t, ts, hEq, hMark⟩ := Form.exists_tokens_eq hf
  have hPlain := Form.plain_of_mem_tokens hf t (by simp [hEq])
  rw [hEq] at hTokens
  cases hTokens with
  | @cons _ _ x xs args more hFirst hRest =>
      refine ⟨x, _, rfl, Token.isWord_of_spells hPlain ?_ (hLexemes x (by simp)) hFirst⟩
      rintro a rfl
      cases hMark

theorem isWord_head_of_spellsProgram {xs : List Lexeme} {found : List Statement}
    (h : SpellsProgram xs found) (hLexemes : ∀ x ∈ xs, IsLexeme x.chars) :
    ∀ x ∈ xs.head?, IsWord x.chars := by
  cases h with
  | nil => exact fun x hx => nomatch hx
  | cons hForm hFirst hRest =>
      obtain ⟨x, rest, rfl, hWord⟩ := isWord_of_form_spells hForm hFirst fun x hx =>
        hLexemes x (List.mem_append_left _ hx)
      intro y hy
      cases hy
      exact hWord

/-! ## Reading -/

section Reading

variable {xs ys : List Lexeme} {args : List Arg} {before : Option Char} {trailing : List Char}

theorem readNumbers_of_miss {field : Field} {c : Cursor}
    (h : Token.readAll [Form.comma, .number field] c = .miss) :
    readNumbers field c = .hit [] c := by
  rw [readNumbers]
  split
  · rfl
  · next hAbort => rw [h] at hAbort; cases hAbort
  · next hHit => rw [h] at hHit; cases hHit

theorem readNumbers_of_abort {field : Field} {c : Cursor} {e : Error}
    (h : Token.readAll [Form.comma, .number field] c = .abort e) :
    readNumbers field c = .abort e := by
  rw [readNumbers]
  split
  · next hMiss => rw [h] at hMiss; cases hMiss
  · next hAbort => rw [h] at hAbort; cases hAbort; rfl
  · next hHit => rw [h] at hHit; cases hHit

theorem readNumbers_of_hit {field : Field} {c next : Cursor} {first : List Arg}
    (h : Token.readAll [Form.comma, .number field] c = .hit first next) :
    readNumbers field c = (readNumbers field next).map (first ++ ·) := by
  rw [readNumbers]
  split
  · next hMiss => rw [h] at hMiss; cases hMiss
  · next hAbort => rw [h] at hAbort; cases hAbort
  · next hHit =>
      rw [h] at hHit
      cases hHit
      rfl

theorem plain_comma_cons {ts : List Token} (hts : ∀ t ∈ ts, t.Plain) :
    ∀ t ∈ Form.comma :: ts, t.Plain :=
  List.forall_mem_cons.2 ⟨by decide, hts⟩

/-- Where a statement ends no comma is read. -/
theorem readAll_comma_of_end {ts : List Token} (hts : ∀ t ∈ ts, t.Plain)
    (hSpaced : WellSpaced before ys) (hTrailing : Trailing trailing)
    (hNext : ∀ y ∈ ys.head?, IsWord y.chars) :
    Token.readAll (Form.comma :: ts) ⟨before, textOf ys ++ trailing⟩ = .miss := by
  refine readAll_of_missesAll (plain_comma_cons hts) ?_ hSpaced hTrailing
  cases ys with
  | nil => exact .atEnd _ _
  | cons y ys => exact .here _ _ (Token.misses_mark_of_isWord (by decide) (hNext y rfl))

/-- What follows the tokens is read to its end. -/
theorem Tail.read_of_spells {t : Tail} (h : t.Spells xs args)
    (hSpaced : WellSpaced before (xs ++ ys)) (hTrailing : Trailing trailing)
    (hNext : ∀ y ∈ ys.head?, IsWord y.chars) :
    ∃ last, WellSpaced last ys ∧ t.read ⟨before, textOf (xs ++ ys) ++ trailing⟩ =
      .hit args ⟨last, textOf ys ++ trailing⟩ := by
  have hReg : ∀ t ∈ [Token.reg], t.Plain := by decide
  have hNumber : ∀ field, ∀ t ∈ [Token.number field], t.Plain := by
    rintro field t ht
    rw [List.mem_singleton.1 ht]
    trivial
  induction h generalizing before with
  | none => exact ⟨before, hSpaced, rfl⟩
  | noRegister =>
      rw [List.nil_append] at hSpaced ⊢
      refine ⟨before, hSpaced, ?_⟩
      rw [Tail.read, readAll_comma_of_end hReg hSpaced hTrailing hNext]
      rfl
  | register hSpells =>
      obtain ⟨last, hLast, hRead⟩ := readAll_of_spellsAll (by decide) hSpells hSpaced hTrailing
      refine ⟨last, hLast, ?_⟩
      rw [Tail.read, hRead]
      rfl
  | noNumber field =>
      refine ⟨before, hSpaced, ?_⟩
      exact readNumbers_of_miss (readAll_comma_of_end (hNumber field) hSpaced hTrailing hNext)
  | @number field xs rest args more hFirst hRest ih =>
      rw [List.append_assoc] at hSpaced ⊢
      obtain ⟨mid, hMid, hRead⟩ :=
        readAll_of_spellsAll (plain_comma_cons (hNumber field)) hFirst hSpaced hTrailing
      obtain ⟨last, hLast, hOthers⟩ := ih hMid
      refine ⟨last, hLast, ?_⟩
      rw [Tail.read] at hOthers ⊢
      rw [readNumbers_of_hit hRead, hOthers]
      rfl

theorem Form.read_of_miss {g : Form} {c : Cursor} (h : Token.readAll g.tokens c = .miss) :
    g.read c = .miss := by
  rw [Form.read, h]
  rfl

theorem Form.read_of_spells {f : Form} {s : Statement} (hf : f ≠ .unknown) (h : f.Spells xs s)
    (hSpaced : WellSpaced before (xs ++ ys)) (hTrailing : Trailing trailing)
    (hNext : ∀ y ∈ ys.head?, IsWord y.chars) :
    ∃ last, WellSpaced last ys ∧ f.read ⟨before, textOf (xs ++ ys) ++ trailing⟩ =
      .hit s ⟨last, textOf ys ++ trailing⟩ := by
  obtain ⟨hTokens, hTail, hStatement⟩ := h
  rw [List.append_assoc] at hSpaced ⊢
  obtain ⟨mid, hMid, hRead⟩ :=
    readAll_of_spellsAll (Form.plain_of_mem_tokens hf) hTokens hSpaced hTrailing
  obtain ⟨last, hLast, hMore⟩ := Tail.read_of_spells hTail hMid hTrailing hNext
  refine ⟨last, hLast, ?_⟩
  rw [Form.read, hRead]
  simp only [Attempt.andThen, hMore, hStatement]

theorem readFirst_of_hit {pre post : List Form} {f : Form} {c next : Cursor} {s : Statement}
    (hMiss : ∀ g ∈ pre, g.read c = .miss) (hHit : f.read c = .hit s next) :
    readFirst (pre ++ f :: post) c = .hit s next := by
  induction pre with
  | nil =>
      rw [List.nil_append, readFirst, hHit]
      rfl
  | cons g pre ih =>
      rw [List.cons_append, readFirst, hMiss g List.mem_cons_self]
      exact ih fun u hu => hMiss u (List.mem_cons_of_mem g hu)

theorem readFirst_of_miss {fs : List Form} {c : Cursor} (hMiss : ∀ g ∈ fs, g.read c = .miss) :
    readFirst fs c = .miss := by
  induction fs with
  | nil => rfl
  | cons g fs ih =>
      rw [readFirst, hMiss g List.mem_cons_self]
      exact ih fun u hu => hMiss u (List.mem_cons_of_mem g hu)

/-- A statement is read where it is spelled. -/
theorem readStatement_of_spells {f : Form} {s : Statement} (hf : f ≠ .unknown)
    (h : f.Spells xs s) (hSpaced : WellSpaced before (xs ++ ys)) (hTrailing : Trailing trailing)
    (hNext : ∀ y ∈ ys.head?, IsWord y.chars) :
    ∃ last, WellSpaced last ys ∧ readStatement ⟨before, textOf (xs ++ ys) ++ trailing⟩ =
      .hit s ⟨last, textOf ys ++ trailing⟩ := by
  obtain ⟨last, hLast, hHit⟩ := Form.read_of_spells hf h hSpaced hTrailing hNext
  refine ⟨last, hLast, ?_⟩
  obtain ⟨pre, post, hOrder⟩ := List.append_of_mem f.mem_order
  rw [readStatement, hOrder]
  -- The forms that are tried before `f` miss what spells `f`, by the table of the grammar.
  refine readFirst_of_hit (fun g hg => Form.read_of_miss ?_) hHit
  have hPair := Form.order_clashes
  rw [hOrder] at hPair
  obtain ⟨hKnown, hClash⟩ := (List.pairwise_append.1 hPair).2.2 g hg f List.mem_cons_self
  have hPlain := Form.plain_of_mem_tokens hKnown
  have hLexemes := hSpaced.isLexeme
  obtain ⟨hTokens, hTail, -⟩ := h
  rw [List.append_assoc] at hSpaced hLexemes ⊢
  refine readAll_of_missesAll hPlain ?_ hSpaced hTrailing
  refine missesAll_of_clashesAll hPlain (Form.plain_of_mem_tokens hf) (hClash hf) hTokens
    (fun x hx => hLexemes x (List.mem_append_left _ hx)) fun hEnd => ?_
  -- Without a tail, what comes after the tokens is the next statement.
  rw [decide_eq_true_iff] at hEnd
  rw [hEnd] at hTail
  cases hTail
  exact hNext

theorem readStatement_of_end (before : Option Char) (hTrailing : Trailing trailing) :
    readStatement ⟨before, trailing⟩ = .miss := by
  refine readFirst_of_miss fun g _ => Form.read_of_miss ?_
  obtain ⟨t, ts, hTokens⟩ := List.exists_cons_of_ne_nil g.tokens_ne_nil
  rw [hTokens, Token.readAll, Token.read_trailing t before hTrailing]
  rfl

theorem readStatements_of_miss {c : Cursor} (h : readStatement c = .miss) :
    readStatements c = .ok ([], c.skip) := by
  rw [readStatements]
  split
  · rfl
  · next hAbort => rw [h] at hAbort; cases hAbort
  · next hHit => rw [h] at hHit; cases hHit

theorem readStatements_of_abort {c : Cursor} {e : Error} (h : readStatement c = .abort e) :
    readStatements c = .error e := by
  rw [readStatements]
  split
  · next hMiss => rw [h] at hMiss; cases hMiss
  · next hAbort => rw [h] at hAbort; cases hAbort; rfl
  · next hHit => rw [h] at hHit; cases hHit

theorem readStatements_of_hit {c next : Cursor} {s : Statement}
    (h : readStatement c = .hit s next) :
    readStatements c =
      match readStatements next with
      | .ok (others, stop) => .ok (s :: others, stop)
      | .error e => .error e := by
  rw [readStatements]
  split
  · next hMiss => rw [h] at hMiss; cases hMiss
  · next hAbort => rw [h] at hAbort; cases hAbort
  · next hHit =>
      rw [h] at hHit
      cases hHit
      rfl

/-- Statements are read where they are spelled, and nothing is left over. -/
theorem readStatements_of_spells {found : List Statement} (h : SpellsProgram xs found)
    (hSpaced : WellSpaced before xs) (hTrailing : Trailing trailing) :
    ∃ stop, readStatements ⟨before, textOf xs ++ trailing⟩ = .ok (found, stop) ∧
      stop.rest = [] := by
  induction h generalizing before with
  | nil =>
      refine ⟨Cursor.skip ⟨before, trailing⟩, ?_, Cursor.skipFrom_trailing hTrailing before⟩
      exact readStatements_of_miss (readStatement_of_end before hTrailing)
  | @cons f xs ys s found hForm hFirst hRest ih =>
      -- A statement ends where the next one begins with a word, or the source ends.
      have hLexemes := hSpaced.isLexeme
      have hNext := isWord_head_of_spellsProgram hRest fun y hy =>
        hLexemes y (List.mem_append_right _ hy)
      obtain ⟨last, hLast, hRead⟩ := readStatement_of_spells hForm hFirst hSpaced hTrailing hNext
      obtain ⟨stop, hOthers, hStop⟩ := ih hLast
      refine ⟨stop, ?_, hStop⟩
      rw [readStatements_of_hit hRead, hOthers]

/-- The statements of a text are those that its lexemes spell. -/
theorem statementsOfText_of_spells {found : List Statement} (h : SpellsProgram xs found)
    (hSpaced : WellSpaced none xs) (hTrailing : Trailing trailing) :
    statementsOfText (textOf xs ++ trailing) = .ok found := by
  obtain ⟨stop, hRead, hStop⟩ := readStatements_of_spells h hSpaced hTrailing
  rw [statementsOfText, Cursor.start, hRead]
  simp only [ok_bind, hStop, List.isEmpty_nil, if_true]
  rfl

end Reading

/-! ## Sources -/

theorem expandTabsFrom_of_notMem {text : List Char} (h : '\t' ∉ text) (column : Nat) :
    Text.expandTabsFrom column text = text := by
  induction text generalizing column with
  | nil => rfl
  | cons c text ih =>
      rw [List.mem_cons, not_or] at h
      obtain ⟨hc, hText⟩ := h
      rw [Text.expandTabsFrom, if_neg (Ne.symm hc), ih hText, ih hText]
      split
      · rfl
      · rfl

/-- The statements of a source without tabs are those that its lexemes spell. -/
theorem statements_of_spells {source : String} {xs : List Lexeme} {trailing : List Char}
    {found : List Statement} (hSource : source.toList = textOf xs ++ trailing)
    (hTabs : '\t' ∉ source.toList) (h : SpellsProgram xs found) (hSpaced : WellSpaced none xs)
    (hTrailing : Trailing trailing) : statements source = .ok found := by
  rw [statements, Text.expandTabs, expandTabsFrom_of_notMem hTabs, hSource]
  exact statementsOfText_of_spells h hSpaced hTrailing

end Chip8.Assembly
