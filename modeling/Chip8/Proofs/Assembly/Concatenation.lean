import Chip8.Proofs.Assembly.Account
import Chip8.Proofs.Assembly.Tabs

/-!
# Sources one after the other

Line ends separate no statements, and some tokens look at what comes after them.  Yet a source that is
read to its end can be put before another on a line of its own: both have the statements that they
have alone (`statements_append`).

A token does not reach past a line end, so at the end of the first source a difference can only be
made where tokens that have been read leave others to be looked for in the second.  These are marks,
with which no source begins, since no form is tried before another and left at any other token:
`order_staysIn` checks this for each pair of forms.
-/

namespace Chip8.Assembly

open Text

/-! ## The end of the first source -/

namespace Cursor

variable {more : List Char} {c : Cursor}

/-- What is skipped ends where it did, if this is before the end of the text.  Else it goes on on
the next line, where no comment does. -/
theorem skipFrom_append_newline (inComment : Bool) (before : Option Char)
    (text more : List Char) : skipFrom inComment before (text ++ '\n' :: more) =
      if (skipFrom inComment before text).rest = [] then skipFrom false (some '\n') more
      else (skipFrom inComment before text).followedBy ('\n' :: more) := by
  induction text generalizing inComment before with
  | nil =>
      cases inComment with
      | false => rfl
      | true => rfl
  | cons a text ih =>
      rw [List.cons_append, skipFrom, skipFrom]
      split
      · exact ih _ _
      · split
        · exact ih _ _
        · split
          · exact ih _ _
          · rfl

theorem skip_followedBy (h : c.skip.rest ≠ []) :
    (c.followedBy ('\n' :: more)).skip = c.skip.followedBy ('\n' :: more) :=
  (skipFrom_append_newline false c.before c.rest more).trans (if_neg h)

theorem skip_followedBy_of_end (h : c.skip.rest = []) :
    (c.followedBy ('\n' :: more)).skip = (⟨some '\n', more⟩ : Cursor).skip :=
  (skipFrom_append_newline false c.before c.rest more).trans (if_pos h)

end Cursor

/-- The text from the cursor on does not begin with a mark. -/
def NoMark (c : Cursor) : Prop := ∀ a ∈ marks, c.skip.rest.head? ≠ some a

section Joined

variable {more : List Char} {c next mid : Cursor} {t : Token} {ts : List Token} {args : List Arg}

theorem noMark_of_end (h : c.skip.rest = []) : NoMark c := by
  intro a _ hHead
  rw [h] at hHead
  cases hHead

theorem NoMark.followedBy (h : NoMark c) (hMore : NoMark ⟨some '\n', more⟩) :
    NoMark (c.followedBy ('\n' :: more)) := by
  intro a ha
  by_cases hEnd : c.skip.rest = []
  · rw [Cursor.skip_followedBy_of_end hEnd]
    exact hMore a ha
  · rw [Cursor.skip_followedBy hEnd, Cursor.followedBy, List.head?_append_of_ne_nil _ hEnd]
    exact h a ha

theorem NoMark.read (h : NoMark c) {a : Char} (ha : a ∈ marks) : (Token.mark a).read c = .miss :=
  Token.readHere_mark_of_ne (h a ha)

theorem NoMark.readAll (h : NoMark c) {a : Char} (ha : a ∈ marks) (ts : List Token) :
    Token.readAll (.mark a :: ts) c = .miss := by
  rw [Token.readAll, h.read ha]
  rfl

theorem Token.read_of_end (t : Token) (h : c.skip.rest = []) : t.read c = .miss := by
  rw [read]
  generalize c.skip = stop at h
  obtain ⟨last, rest⟩ := stop
  cases h
  exact readHere_nil t last

/-- Before the end a token is read as in the text alone. -/
theorem Token.read_followedBy (ht : t.Plain) (h : c.skip.rest ≠ []) :
    t.read (c.followedBy ('\n' :: more)) = (t.read c).followedBy ('\n' :: more) := by
  rw [read, Cursor.skip_followedBy h]
  exact readHere_append ht h (clear_some.2 (by decide)) rfl

/-! ## Tokens that run out of text -/

/-- The tokens are read up to the end of the text, and the next one is no mark. -/
inductive RunsOut : List Token → Cursor → Prop where
  | here {t : Token} {ts : List Token} {c : Cursor} (hMark : t.isMark = false)
      (hEnd : c.skip.rest = []) : RunsOut (t :: ts) c
  | later {t : Token} {ts : List Token} {c next : Cursor} {args : List Arg}
      (hFirst : t.read c = .hit args next) (h : RunsOut ts next) : RunsOut (t :: ts) c

theorem RunsOut.readAll (h : RunsOut ts c) : Token.readAll ts c = .miss := by
  induction h with
  | here hMark hEnd =>
      rw [Token.readAll, Token.read_of_end _ hEnd]
      rfl
  | later hFirst h ih =>
      rw [Token.readAll, hFirst]
      show (Token.readAll _ _).map _ = _
      rw [ih]
      rfl

theorem not_runsOut_of_hit (h : Token.readAll ts c = .hit args next) : ¬RunsOut ts c := by
  intro hOut
  rw [hOut.readAll] at h
  cases h

/-- Tokens that do not run out of text are read as in the text alone. -/
theorem readAll_followedBy (hPlain : ∀ t ∈ ts, t.Plain) (hMore : NoMark ⟨some '\n', more⟩)
    (h : ¬RunsOut ts c) :
    Token.readAll ts (c.followedBy ('\n' :: more)) =
      (Token.readAll ts c).followedBy ('\n' :: more) := by
  induction ts generalizing c with
  | nil => rfl
  | cons t ts ih =>
      obtain ⟨ht, hts⟩ := List.forall_mem_cons.1 hPlain
      by_cases hEnd : c.skip.rest = []
      · -- A mark is looked for at the end, and is not found in the second source either.
        have hMark : t.isMark = true := by
          by_contra hMark
          exact h (.here (Bool.eq_false_iff.2 hMark) hEnd)
        obtain ⟨a, rfl⟩ := Token.isMark_eq_true_iff.1 hMark
        rw [((noMark_of_end hEnd).followedBy hMore).readAll ht, (noMark_of_end hEnd).readAll ht]
        rfl
      · rw [Token.readAll, Token.readAll, Token.read_followedBy ht hEnd]
        cases hFirst : t.read c with
        | miss => rfl
        | abort e => rfl
        | hit args next =>
            have hRest : ¬RunsOut ts next := fun hOut => h (.later hFirst hOut)
            show (Token.readAll ts (next.followedBy _)).map _ =
              ((Token.readAll ts next).map _).followedBy _
            rw [ih hts hRest]
            cases Token.readAll ts next with
            | miss => rfl
            | abort e => rfl
            | hit others last => rfl

theorem readAll_followedBy_of_hit (hPlain : ∀ t ∈ ts, t.Plain) (hMore : NoMark ⟨some '\n', more⟩)
    (h : Token.readAll ts c = .hit args next) :
    Token.readAll ts (c.followedBy ('\n' :: more)) =
      .hit args (next.followedBy ('\n' :: more)) := by
  rw [readAll_followedBy hPlain hMore (not_runsOut_of_hit h), h]
  rfl

/-! ## Forms that run out of text -/

namespace Token

/-- Whether the two tokens end at the same place where both are read. -/
def endsLike (g t : Token) : Bool := g = t || (g = .v0 && t = .address)

theorem reg?_of_readNumber {field : Field} (h : c.readNumber field = .hit args next) :
    c.reg? = none := by
  obtain ⟨n, hn⟩ := exists_ofText?_of_readNumber h
  exact reg?_of_ofText? (w := c.rest) (by rw [hn]; exact Option.some_ne_none n)

/-- The name of a register has two characters. -/
theorem length_name_of_reg? {r : Reg} (h : c.reg? = some r) : c.name.length = 2 := by
  obtain ⟨v, d, rest, hText, hv, hd, hEnd, -⟩ := reg?_eq_some_iff.1 h
  have hStart : Cursor.isNameStart v = true := by
    rcases hv with rfl | rfl
    · decide
    · decide
  have hStop : rest.takeWhile Cursor.isNameChar = [] := by
    cases rest with
    | nil => rfl
    | cons e rest =>
        have hNot : isWordChar e = false := hEnd
        refine List.takeWhile_cons_of_neg fun hName => ?_
        rw [isWordChar_of_isNameChar hName] at hNot
        cases hNot
  have hFirst : c.rest.head?.any Cursor.isNameStart = true := by rw [hText]; exact hStart
  rw [Cursor.name, if_pos hFirst, hText,
    List.takeWhile_cons_of_pos (isNameChar_of_isNameStart hStart),
    List.takeWhile_cons_of_pos (isNameChar_of_isHexDigit hd), hStop]
  rfl

theorem next_eq_of_endsLike {g t : Token} {found : List Arg} {last : Cursor}
    (h : g.endsLike t = true) (hg : g.readHere c = .hit found last)
    (ht : t.readHere c = .hit args next) : last = next := by
  simp only [endsLike, Bool.or_eq_true, Bool.and_eq_true, decide_eq_true_eq] at h
  rcases h with rfl | ⟨rfl, rfl⟩
  · rw [hg] at ht
    cases ht
    rfl
  · rw [readHere] at hg
    split at hg
    · next hReg =>
        cases hg
        rw [readHere, Attempt.orElse_eq_hit_iff] at ht
        rcases ht with ht | ⟨-, ht⟩
        · rw [reg?_of_readNumber ht] at hReg
          cases hReg
        · rw [Cursor.readText, length_name_of_reg? hReg] at ht
          split at ht
          · cases ht
          · cases ht
            rfl
    · cases hg

end Token

/-- Whether tokens that are tried do not run out of a text in which the tokens `ts` are read.  After
these there is no mark if `atEnd`. -/
def staysIn (atEnd : Bool) : List Token → List Token → Bool
  | [], _ => true
  | g :: _, [] => atEnd && g.isMark
  | g :: gs, t :: ts =>
    gs.all (·.isMark) || g.clashes t || (g.endsLike t && staysIn atEnd gs ts)

/-- A form that is tried before another does not run out of a text in which that other is read. -/
theorem Form.order_staysIn : Form.order.Pairwise fun g f =>
    f ≠ .unknown → staysIn (f.tail = .none) g.tokens f.tokens = true := by
  decide +kernel

theorem not_runsOut_of_marks (h : ts.all (·.isMark) = true) : ¬RunsOut ts c := by
  intro hOut
  induction hOut with
  | @here t ts c hMark hEnd =>
      rw [List.all_cons, hMark] at h
      cases h
  | later hFirst hOut ih =>
      rw [List.all_cons, Bool.and_eq_true] at h
      exact ih h.2

theorem not_runsOut_of_staysIn {atEnd : Bool} {gs : List Token} (hgs : ∀ g ∈ gs, g.Plain)
    (hts : ∀ t ∈ ts, t.Plain) (h : staysIn atEnd gs ts = true)
    (hRead : Token.readAll ts c = .hit args mid) (hEnd : atEnd = true → NoMark mid) :
    ¬RunsOut gs c := by
  induction ts generalizing gs c args with
  | nil =>
      cases hRead
      cases gs with
      | nil => exact fun hOut => nomatch hOut
      | cons g gs =>
          -- The form is over, and a mark is looked for where there is none.
          obtain ⟨hAtEnd, hMark⟩ := Bool.and_eq_true_iff.1 h
          obtain ⟨a, rfl⟩ := Token.isMark_eq_true_iff.1 hMark
          have hMiss := (hEnd hAtEnd).read (hgs _ List.mem_cons_self)
          intro hOut
          cases hOut with
          | here hNot => cases hNot
          | later hFirst =>
              rw [hMiss] at hFirst
              cases hFirst
  | cons t ts ih =>
      obtain ⟨first, last, hFirst, hMap⟩ := Attempt.andThen_eq_hit_iff.1 hRead
      obtain ⟨others, hOthers, -⟩ := Attempt.map_eq_hit_iff.1 hMap
      obtain ⟨ht, hts⟩ := List.forall_mem_cons.1 hts
      cases gs with
      | nil => exact fun hOut => nomatch hOut
      | cons g gs =>
          obtain ⟨hg, hgs⟩ := List.forall_mem_cons.1 hgs
          intro hOut
          cases hOut with
          | here hMark hStop =>
              rw [Token.read_of_end t hStop] at hFirst
              cases hFirst
          | @later _ _ _ next found hFound hOut =>
              simp only [staysIn, Bool.or_eq_true, Bool.and_eq_true] at h
              rcases h with (hMarks | hClash) | ⟨hLike, hStays⟩
              · exact not_runsOut_of_marks hMarks hOut
              · have hMiss : g.read c = .miss := Token.readHere_of_clashes hClash hg ht hFirst
                rw [hMiss] at hFound
                cases hFound
              · obtain rfl : next = last := Token.next_eq_of_endsLike hLike hFound hFirst
                exact ih hgs hts hStays hOthers hOut

/-! ## Forms -/

/-- What follows the tokens is read as in the text alone, if no mark comes after it there. -/
theorem Tail.read_followedBy {tail : Tail} (hMore : NoMark ⟨some '\n', more⟩)
    (h : tail.read c = .hit args next) (hNext : NoMark next) :
    tail.read (c.followedBy ('\n' :: more)) = .hit args (next.followedBy ('\n' :: more)) := by
  cases tail with
  | none =>
      cases h
      rfl
  | register =>
      rw [Tail.read, Attempt.orElse_eq_hit_iff] at h
      rcases h with h | ⟨-, h⟩
      · obtain ⟨found, hRead, rfl⟩ := Attempt.map_eq_hit_iff.1 h
        rw [Tail.read, readAll_followedBy_of_hit (by decide) hMore hRead]
        rfl
      · cases h
        have hMiss : Token.readAll [Form.comma, .reg] (c.followedBy ('\n' :: more)) = .miss :=
          (hNext.followedBy hMore).readAll (by decide) _
        rw [Tail.read, hMiss]
        rfl
  | numbers field =>
      have hPlain : ∀ t ∈ [Form.comma, .number field], t.Plain := by
        cases field <;> decide
      rw [Tail.read] at h ⊢
      fun_induction readNumbers field c generalizing args with
      | case1 c hMiss =>
          cases h
          exact readNumbers_of_miss ((hNext.followedBy hMore).readAll (by decide) _)
      | case2 c e hAbort => cases h
      | case3 c first mid hHit ih =>
          obtain ⟨others, hOthers, rfl⟩ := Attempt.map_eq_hit_iff.1 h
          rw [readNumbers_of_hit (readAll_followedBy_of_hit hPlain hMore hHit), ih hOthers]
          rfl

/-- A form is read as in the text alone, if no mark comes after it there. -/
theorem Form.read_followedBy {f : Form} {s : Statement} (hf : f ≠ .unknown)
    (hMore : NoMark ⟨some '\n', more⟩) (h : f.read c = .hit s next) (hNext : NoMark next) :
    f.read (c.followedBy ('\n' :: more)) = .hit s (next.followedBy ('\n' :: more)) := by
  obtain ⟨args, mid, hTokens, h⟩ := Attempt.andThen_eq_hit_iff.1 h
  obtain ⟨found, last, hTail, h⟩ := Attempt.andThen_eq_hit_iff.1 h
  have hLast : last = next := by
    split at h <;> cases h
    rfl
  subst hLast
  refine Attempt.andThen_eq_hit_iff.2 ⟨args, _,
    readAll_followedBy_of_hit (Form.plain_of_mem_tokens hf) hMore hTokens, ?_⟩
  refine Attempt.andThen_eq_hit_iff.2 ⟨found, _, Tail.read_followedBy hMore hTail hNext, ?_⟩
  split at h
  · next hStatement =>
      cases h
      rfl
  · cases h

/-! ### Forms that miss -/

theorem Attempt.andThen_eq_miss_iff {α β : Type} {a : Attempt α} {f : α → Cursor → Attempt β} :
    a.andThen f = .miss ↔ a = .miss ∨ ∃ u mid, a = .hit u mid ∧ f u mid = .miss := by
  cases a <;> simp [andThen]

theorem readNumbers_ne_miss (field : Field) (c : Cursor) : readNumbers field c ≠ .miss := by
  intro h
  fun_induction readNumbers field c with
  | case1 c hMiss => cases h
  | case2 c e hAbort => cases h
  | case3 c first mid hHit ih =>
      rcases Attempt.andThen_eq_miss_iff.1 h with h | ⟨others, next, -, h⟩
      · exact ih h
      · cases h

theorem Tail.read_ne_miss (tail : Tail) (c : Cursor) : tail.read c ≠ .miss := by
  intro h
  cases tail with
  | none => cases h
  | register =>
      rw [Tail.read] at h
      cases hRegister : (Token.readAll [Form.comma, .reg] c).map fun _ => ([] : List Arg) with
      | miss =>
          rw [hRegister] at h
          cases h
      | abort e =>
          rw [hRegister] at h
          cases h
      | hit found next =>
          rw [hRegister] at h
          cases h
  | numbers field => exact readNumbers_ne_miss field c h

/-- A form may have a tail after a mnemonic and a register, or if it takes any operands. -/
theorem Form.tail_cases (g : Form) : g.tail = .none ∨
    (g.tail = .register ∧ ∃ k, g.tokens = [.keyword k, .reg] ∧
      ∀ r, ∃ s, g.statement? [.reg r] = some s) ∨
    ∃ field, g.tail = .numbers field ∧ ∀ args, ∃ s, g.statement? args = some s := by
  cases g with
  | single op =>
      cases op with
      | shiftRight => exact .inr (.inl ⟨rfl, _, rfl, fun r => ⟨_, rfl⟩⟩)
      | shiftLeft => exact .inr (.inl ⟨rfl, _, rfl, fun r => ⟨_, rfl⟩⟩)
      | _ => exact .inl rfl
  | bytes => exact .inr (.inr ⟨_, rfl, fun args => ⟨_, rfl⟩⟩)
  | words => exact .inr (.inr ⟨_, rfl, fun args => ⟨_, rfl⟩⟩)
  | _ => exact .inl rfl

/-- A form that has its tokens and may go on makes a statement of them. -/
theorem Form.exists_statement_of_tail {g : Form} {found : List Arg} (hg : g ≠ .unknown)
    (hTail : g.tail ≠ .none) (hTokens : Token.readAll g.tokens c = .hit args mid)
    (hMore : g.tail.read mid = .hit found next) :
    ∃ s, g.statement? (args ++ found) = some s := by
  rcases g.tail_cases with hNone | ⟨hRegister, k, hForm, hStatement⟩ | ⟨field, -, hStatement⟩
  · exact absurd hNone hTail
  · have hFound : found = [] := by
      rw [hRegister, Tail.read, Attempt.orElse_eq_hit_iff] at hMore
      rcases hMore with hMore | ⟨-, hMore⟩
      · obtain ⟨operands, -, rfl⟩ := Attempt.map_eq_hit_iff.1 hMore
        rfl
      · cases hMore
        rfl
    obtain ⟨ps, xs, hReads, -⟩ :=
      exists_covers_of_readAll (Form.plain_of_mem_tokens hg) g.boxed_tokens hTokens
    rw [hForm] at hReads
    obtain ⟨qs, -, hReg⟩ := (readsAll_fixed_cons_iff rfl).1 hReads
    obtain ⟨r, -, -, rfl⟩ := readsAll_reg_iff.1 hReg
    rw [hFound]
    exact hStatement r
  · exact hStatement _

/-- A form that misses and does not run out of text misses as in the text alone. -/
theorem Form.read_followedBy_of_miss {g : Form} (hg : g ≠ .unknown)
    (hMore : NoMark ⟨some '\n', more⟩) (hMiss : g.read c = .miss) (hOut : ¬RunsOut g.tokens c) :
    g.read (c.followedBy ('\n' :: more)) = .miss := by
  have hTokens := readAll_followedBy (Form.plain_of_mem_tokens hg) hMore hOut
  rcases Attempt.andThen_eq_miss_iff.1 hMiss with hAlone | ⟨args, mid, hAlone, hRest⟩
  · rw [hAlone] at hTokens
    exact Form.read_of_miss hTokens
  · rw [hAlone] at hTokens
    rcases Attempt.andThen_eq_miss_iff.1 hRest with hTail | ⟨found, next, hTail, hStatement⟩
    · exact absurd hTail (Tail.read_ne_miss _ _)
    · -- There is no statement that the operands make, so they are all the form has.
      have hNone : g.tail = .none := by
        by_contra hSome
        obtain ⟨s, hs⟩ := Form.exists_statement_of_tail hg hSome hAlone hTail
        rw [hs] at hStatement
        cases hStatement
      rw [hNone] at hTail
      cases hTail
      refine Attempt.andThen_eq_miss_iff.2 (.inr ⟨args, _, hTokens, ?_⟩)
      refine Attempt.andThen_eq_miss_iff.2 (.inr ⟨[], mid.followedBy _, by rw [hNone]; rfl, ?_⟩)
      split at hStatement
      · cases hStatement
      · rfl

/-! ## Statements -/

/-- A statement is read as in the text alone, if no mark comes after it there. -/
theorem readStatement_followedBy {s : Statement} (hMore : NoMark ⟨some '\n', more⟩)
    (h : readStatement c = .hit s next) (hKnown : ∀ line, s ≠ .unknown line)
    (hNext : NoMark next) :
    readStatement (c.followedBy ('\n' :: more)) = .hit s (next.followedBy ('\n' :: more)) := by
  obtain ⟨pre, f, post, hOrder, hPre, hRead⟩ := exists_split_of_readFirst h
  have hf : f ≠ .unknown := by
    rintro rfl
    obtain ⟨line, hLine⟩ := exists_line_of_read hRead
    exact hKnown line hLine
  obtain ⟨args, mid, hTokens, hRest⟩ := Attempt.andThen_eq_hit_iff.1 hRead
  rw [readStatement, hOrder]
  refine readFirst_of_hit (fun g hg => ?_) (Form.read_followedBy hf hMore hRead hNext)
  -- The tables of the grammar are for all pairs of forms in order.
  have hClashes := Form.order_clashes
  have hStays := Form.order_staysIn
  rw [hOrder] at hClashes hStays
  have hUnknown := ((List.pairwise_append.1 hClashes).2.2 g hg f List.mem_cons_self).1
  have hPair := (List.pairwise_append.1 hStays).2.2 g hg f List.mem_cons_self hf
  refine Form.read_followedBy_of_miss hUnknown hMore (hPre g hg) ?_
  refine not_runsOut_of_staysIn (Form.plain_of_mem_tokens hUnknown) (Form.plain_of_mem_tokens hf)
    hPair hTokens fun hEnd => ?_
  rw [decide_eq_true_iff] at hEnd
  rw [hEnd] at hRest
  obtain ⟨found, last, hTail, hRest⟩ := Attempt.andThen_eq_hit_iff.1 hRest
  cases hTail
  split at hRest
  · cases hRest
    exact hNext
  · cases hRest

/-- No statement but an unknown line begins with a mark. -/
theorem noMark_of_readStatement {s : Statement} (h : readStatement c = .hit s next)
    (hKnown : ∀ line, s ≠ .unknown line) : NoMark c := by
  intro a ha hHead
  obtain ⟨pre, f, post, -, -, hRead⟩ := exists_split_of_readFirst h
  have hf : f ≠ .unknown := by
    rintro rfl
    obtain ⟨line, hLine⟩ := exists_line_of_read hRead
    exact hKnown line hLine
  obtain ⟨t, ts, hTokens, hMark⟩ := Form.exists_tokens_eq hf
  obtain ⟨args, mid, hAll, -⟩ := Attempt.andThen_eq_hit_iff.1 hRead
  rw [hTokens] at hAll
  obtain ⟨first, last, hFirst, -⟩ := Attempt.andThen_eq_hit_iff.1 hAll
  have hPlain := Form.plain_of_mem_tokens hf t (by simp [hTokens])
  rw [Token.isMark_of_readHere hPlain ha hHead hFirst] at hMark
  cases hMark

/-- A text that is read to its end does not begin with a mark. -/
theorem noMark_of_readStatements {found : List Statement} {stop : Cursor}
    (h : readStatements c = .ok (found, stop)) (hStop : stop.rest = [])
    (hKnown : ∀ line, .unknown line ∉ found) : NoMark c := by
  rw [readStatements] at h
  split at h
  · cases h
    exact noMark_of_end hStop
  · cases h
  · next s next hRead =>
      refine noMark_of_readStatement hRead fun line hLine => ?_
      split at h
      · cases h
        exact hKnown line (by simp [hLine])
      · cases h

/-! ## The start of the second source -/

/-- What is read depends only on what the tokens of the forms find. -/
theorem readStatement_congr {d : Cursor}
    (h : ∀ t : Token, t.Plain ∨ t = .line → t.read c = t.read d) :
    readStatement c = readStatement d := by
  have hForm : ∀ f : Form, f.read c = f.read d := by
    intro f
    obtain ⟨t, ts, hTokens⟩ := List.exists_cons_of_ne_nil f.tokens_ne_nil
    have hKind : t.Plain ∨ t = .line := by
      by_cases hf : f = .unknown
      · subst hf
        exact .inr (List.cons.inj hTokens).1.symm
      · exact .inl (Form.plain_of_mem_tokens hf t (by simp [hTokens]))
    rw [Form.read, Form.read, hTokens, Token.readAll, Token.readAll, h t hKind]
  have hFirst : ∀ fs : List Form, readFirst fs c = readFirst fs d := by
    intro fs
    induction fs with
    | nil => rfl
    | cons f fs ih => rw [readFirst, readFirst, hForm f, ih]
  exact hFirst Form.order

theorem readStatements_congr {d : Cursor} (h : c.skip = d.skip) :
    readStatements c = readStatements d := by
  have hStatement : readStatement c = readStatement d :=
    readStatement_congr fun t _ => by rw [Token.read, Token.read, h]
  cases hRead : readStatement d with
  | miss =>
      rw [readStatements_of_miss hRead, readStatements_of_miss (hStatement.trans hRead), h]
  | abort e =>
      rw [readStatements_of_abort hRead, readStatements_of_abort (hStatement.trans hRead)]
  | hit s next =>
      rw [readStatements_of_hit hRead, readStatements_of_hit (hStatement.trans hRead)]

theorem Attempt.followedBy_nil {α : Type} (a : Attempt α) : a.followedBy [] = a := by
  cases a with
  | miss => rfl
  | abort e => rfl
  | hit value next =>
      obtain ⟨before, rest⟩ := next
      rw [followedBy, Cursor.followedBy, List.append_nil]

theorem length_line_le (c : Cursor) : c.line.length ≤ c.rest.length := by
  unfold Cursor.line
  split
  · exact Nat.zero_le _
  · exact (List.takeWhile_sublist _).length_le

/-- To a token it makes no difference whether the text begins there or on a new line. -/
theorem readHere_newline (ht : t.Plain ∨ t = .line) (text : List Char) :
    t.readHere ⟨some '\n', text⟩ = t.readHere ⟨none, text⟩ := by
  by_cases hText : text = []
  · rw [hText, readHere_nil, readHere_nil]
  · rcases ht with ht | rfl
    · have hSame : t.readHere ⟨some '\n', text ++ []⟩ = (t.readHere ⟨none, text⟩).followedBy [] :=
        readHere_append ht hText clear_none (by decide)
      rwa [List.append_nil, Attempt.followedBy_nil] at hSame
    · have hLength : (Cursor.line ⟨none, text⟩).length ≤ text.length := length_line_le ⟨none, text⟩
      have hSame : Cursor.readText (Cursor.line ⟨none, text⟩) ⟨some '\n', text ++ []⟩ =
          (Cursor.readText (Cursor.line ⟨none, text⟩) ⟨none, text⟩).followedBy [] :=
        readText_append hLength
      rwa [List.append_nil, Attempt.followedBy_nil] at hSame

/-- Skipping goes by the character before the text only where it passes over nothing. -/
theorem skip_newline (text : List Char) :
    Cursor.skip ⟨some '\n', text⟩ = Cursor.skip ⟨none, text⟩ ∨
      Cursor.skip ⟨some '\n', text⟩ = ⟨some '\n', text⟩ ∧
        Cursor.skip ⟨none, text⟩ = ⟨none, text⟩ := by
  cases text with
  | nil => exact .inr ⟨rfl, rfl⟩
  | cons a text =>
      by_cases hSkip : (isBlank a || a = ';') = true
      · refine .inl ?_
        simp only [Cursor.skip, Cursor.skipFrom, Bool.false_eq_true, if_false]
        split
        · rfl
        · next hBlank =>
            have hSemicolon : a = ';' := by simpa [hBlank] using hSkip
            rw [if_pos hSemicolon, if_pos hSemicolon]
      · simp only [Bool.or_eq_true, decide_eq_true_eq, not_or] at hSkip
        have hBlank := Bool.eq_false_iff.2 hSkip.1
        exact .inr ⟨Cursor.skipFrom_of_stop hBlank hSkip.2 _ _,
          Cursor.skipFrom_of_stop hBlank hSkip.2 _ _⟩

theorem read_newline (ht : t.Plain ∨ t = .line) (text : List Char) :
    t.read ⟨some '\n', text⟩ = t.read ⟨none, text⟩ := by
  rw [Token.read, Token.read]
  rcases skip_newline text with hSame | ⟨hNewline, hStart⟩
  · rw [hSame]
  · rw [hNewline, hStart]
    exact readHere_newline ht text

/-- A text that is read to its end is read on a new line as well. -/
theorem readStatements_newline {text : List Char} {found : List Statement} {stop : Cursor}
    (h : readStatements (.start text) = .ok (found, stop)) (hStop : stop.rest = []) :
    ∃ last, readStatements ⟨some '\n', text⟩ = .ok (found, last) ∧ last.rest = [] := by
  have hStatement : readStatement ⟨some '\n', text⟩ = readStatement (.start text) :=
    readStatement_congr fun t ht => read_newline ht text
  cases hRead : readStatement (.start text) with
  | miss =>
      rw [readStatements_of_miss hRead] at h
      cases h
      refine ⟨_, readStatements_of_miss (hStatement.trans hRead), ?_⟩
      rcases skip_newline text with hSame | ⟨hNewline, hStart⟩
      · rw [hSame]
        exact hStop
      · rw [Cursor.start, hStart] at hStop
        rw [hNewline]
        exact hStop
  | abort e =>
      rw [readStatements_of_abort hRead] at h
      cases h
  | hit s next =>
      refine ⟨stop, ?_, hStop⟩
      rw [readStatements_of_hit (hStatement.trans hRead), ← h, readStatements_of_hit hRead]

/-! ## Both sources -/

/-- Statements that are read to the end of a text are read before those of the next lines. -/
theorem readStatements_followedBy {found others : List Statement} {stop last : Cursor}
    (h : readStatements c = .ok (found, stop)) (hStop : stop.rest = [])
    (hKnown : ∀ line, .unknown line ∉ found) (hMore : NoMark ⟨some '\n', more⟩)
    (hOthers : readStatements ⟨some '\n', more⟩ = .ok (others, last)) :
    readStatements (c.followedBy ('\n' :: more)) = .ok (found ++ others, last) := by
  fun_induction readStatements c generalizing found with
  | case1 c hMiss =>
      cases h
      rw [readStatements_congr (Cursor.skip_followedBy_of_end hStop), hOthers]
      rfl
  | case2 c e hAbort => cases h
  | case3 c s next hHit rest final hRest ih =>
      cases h
      obtain ⟨hFirst, hLater⟩ : (∀ line, s ≠ .unknown line) ∧ ∀ line, .unknown line ∉ rest := by
        constructor
        · rintro line rfl
          exact hKnown line List.mem_cons_self
        · exact fun line hLine => hKnown line (List.mem_cons_of_mem s hLine)
      have hNext := noMark_of_readStatements hRest hStop hLater
      rw [readStatements_of_hit (readStatement_followedBy hMore hHit hFirst hNext),
        ih hRest hLater]
      rfl
  | case4 c s next hHit e hRest ih => cases h

theorem expandTabsFrom_append_newline (column : Nat) (text rest : List Char) :
    expandTabsFrom column (text ++ '\n' :: rest) =
      expandTabsFrom column text ++ '\n' :: expandTabsFrom 0 rest := by
  obtain ⟨next, hNext⟩ := exists_expandTabsFrom_append column text
  rw [hNext]
  rfl

end Joined

/-- Two sources that are read to their ends have their statements one after the other where the
second begins on a new line after the first, whatever ends the one and begins the other. -/
theorem statements_append {first second : String} {found others : List Statement}
    (hFirst : statements first = .ok found) (hSecond : statements second = .ok others)
    (hKnown : ∀ line, .unknown line ∉ found) (hOthers : ∀ line, .unknown line ∉ others) :
    statements (first ++ "\n" ++ second) = .ok (found ++ others) := by
  obtain ⟨stop, hRead, hStop⟩ := statementsOfText_eq_ok_iff.1 hFirst
  obtain ⟨final, hReadSecond, hFinal⟩ := statementsOfText_eq_ok_iff.1 hSecond
  obtain ⟨last, hNewline, hLast⟩ := readStatements_newline hReadSecond hFinal
  have hMore := noMark_of_readStatements hNewline hLast hOthers
  have hText : expandTabs (first ++ "\n" ++ second).toList =
      expandTabs first.toList ++ '\n' :: expandTabs second.toList := by
    rw [String.toList_append, String.toList_append, List.append_assoc]
    exact expandTabsFrom_append_newline 0 _ _
  rw [statements, hText]
  exact statementsOfText_eq_ok_iff.2
    ⟨last, readStatements_followedBy hRead hStop hKnown hMore hNewline, hLast⟩

/-- A register at which a jump may end or go on, before a comment that does not end, and then a
label after a tab. -/
theorem statements_append_comment :
    statements "JP V0 ; x" = .ok [.ref .jump "V0"] ∧
      statements "\tV1: DB 1" = .ok [.label "V1", .bytes [1]] ∧
        statements ("JP V0 ; x" ++ "\n" ++ "\tV1: DB 1") =
          .ok [.ref .jump "V0", .label "V1", .bytes [1]] := by
  have hFirst : statements "JP V0 ; x" = .ok [.ref .jump "V0"] :=
    toOption_eq_some_iff.1 (by decide +kernel)
  have hSecond : statements "\tV1: DB 1" = .ok [.label "V1", .bytes [1]] :=
    toOption_eq_some_iff.1 (by decide +kernel)
  exact ⟨hFirst, hSecond, statements_append hFirst hSecond (by simp) (by simp)⟩

end Chip8.Assembly
