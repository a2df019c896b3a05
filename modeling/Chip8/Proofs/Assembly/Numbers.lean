import Chip8.Assembly.Source
import Chip8.Proofs.Assembly.Writing

/-!
# The numbers that are read

Reading comes to a number where a token that may be one is tried, after all that stands before it has
been read and all forms before its own have missed.  The reading of a source breaks off exactly at a
number that it comes to and that has no value in its field (`readStatements_eq_error_iff`), so it
comes to no other number after that one.
-/

namespace Chip8.Assembly

/-! ## Attempts that end the reading -/

namespace Attempt

variable {α β : Type} {a : Attempt α} {e : Error}

theorem andThen_eq_abort_iff {f : α → Cursor → Attempt β} :
    a.andThen f = .abort e ↔ a = .abort e ∨ ∃ u mid, a = .hit u mid ∧ f u mid = .abort e := by
  cases a <;> simp [andThen]

theorem map_eq_abort_iff {f : α → β} : a.map f = .abort e ↔ a = .abort e := by
  cases a <;> simp [map, andThen]

theorem orElse_eq_abort_iff {b : Unit → Attempt α} :
    a.orElse b = .abort e ↔ a = .abort e ∨ a = .miss ∧ b () = .abort e := by
  cases a <;> simp [orElse]

end Attempt

/-! ## Coming to a number -/

/-- The token, tried at the cursor, comes to a number of the field. -/
def Token.Meets (t : Token) (c : Cursor) (field : Field) (m : Numeral) : Prop :=
  match t with
  | .number f => field = f ∧ Numeral.ofText? c.skip.rest = some m
  | .address => field = .address ∧ Numeral.ofText? c.skip.rest = some m
  | .regOrByte => field = .byte ∧ c.skip.reg? = none ∧ Numeral.ofText? c.skip.rest = some m
  | _ => False

/-- One of the tokens comes to a number, and those before it are read. -/
inductive MeetsAll (field : Field) (m : Numeral) : List Token → Cursor → Prop where
  | here {t : Token} {c : Cursor} (ts : List Token) (h : t.Meets c field m) :
      MeetsAll field m (t :: ts) c
  | later {t : Token} {ts : List Token} {c mid : Cursor} {args : List Arg}
      (hFirst : t.read c = .hit args mid) (h : MeetsAll field m ts mid) :
      MeetsAll field m (t :: ts) c

/-- The reading of more numbers of a list comes to a number. -/
inductive NumbersMeet (field : Field) (m : Numeral) (f : Field) : Cursor → Prop where
  | here {c : Cursor} (h : MeetsAll field m [Form.comma, .number f] c) : NumbersMeet field m f c
  | later {c mid : Cursor} {args : List Arg}
      (hFirst : Token.readAll [Form.comma, .number f] c = .hit args mid)
      (h : NumbersMeet field m f mid) : NumbersMeet field m f c

/-- What may follow the tokens of a form comes to a number. -/
def Tail.Meets (field : Field) (m : Numeral) : Tail → Cursor → Prop
  | .none, _ => False
  | .register, c => MeetsAll field m [Form.comma, .reg] c
  | .numbers f, c => NumbersMeet field m f c

/-- The form comes to a number, in its tokens or after them. -/
inductive Form.Meets (field : Field) (m : Numeral) (f : Form) (c : Cursor) : Prop where
  | tokens (h : MeetsAll field m f.tokens c)
  | tail {mid : Cursor} {args : List Arg} (hTokens : Token.readAll f.tokens c = .hit args mid)
      (h : f.tail.Meets field m mid)

/-- One of the forms comes to a number, and those before it miss. -/
inductive FirstMeets (field : Field) (m : Numeral) (c : Cursor) : List Form → Prop where
  | here {f : Form} (fs : List Form) (h : f.Meets field m c) : FirstMeets field m c (f :: fs)
  | later {f : Form} {fs : List Form} (hMiss : f.read c = .miss) (h : FirstMeets field m c fs) :
      FirstMeets field m c (f :: fs)

/-- One of the statements comes to a number, and those before it are read. -/
inductive StatementsMeet (field : Field) (m : Numeral) : Cursor → Prop where
  | here {c : Cursor} (h : FirstMeets field m c Form.order) : StatementsMeet field m c
  | later {c next : Cursor} {s : Statement} (hFirst : readStatement c = .hit s next)
      (h : StatementsMeet field m next) : StatementsMeet field m c

/-- The numeral is read as a number of the field in the source. -/
def ReadsNumber (source : String) (field : Field) (m : Numeral) : Prop :=
  StatementsMeet field m (.start (Text.expandTabs source.toList))

/-! ## Breaking off -/

section BreakingOff

variable {c : Cursor} {e : Error}

theorem readNumber_eq_abort_iff {f : Field} :
    c.readNumber f = .abort e ↔ ∃ m, Numeral.ofText? c.rest = some m ∧ m.inField f = .error e := by
  unfold Cursor.readNumber
  cases hNumeral : Numeral.ofText? c.rest with
  | none => simp
  | some m =>
      cases hField : m.inField f with
      | ok n => simp [hField]
      | error e' => simp [hField]

theorem readReg_ne_abort : c.readReg ≠ .abort e := by
  unfold Cursor.readReg
  cases c.reg? with
  | none => exact fun h => nomatch h
  | some r => exact fun h => nomatch h

theorem readReg_eq_miss_iff : c.readReg = .miss ↔ c.reg? = none := by
  unfold Cursor.readReg
  cases c.reg? with
  | none => simp
  | some r => simp

theorem readText_ne_abort {text : List Char} : c.readText text ≠ .abort e := by
  unfold Cursor.readText
  split
  · exact fun h => nomatch h
  · exact fun h => nomatch h

/-- A token ends the reading at a number that it comes to. -/
theorem Token.read_eq_abort_iff {t : Token} :
    t.read c = .abort e ↔ ∃ field m, t.Meets c field m ∧ m.inField field = .error e := by
  cases t with
  | number f => simp [read, readHere, Meets, readNumber_eq_abort_iff, and_assoc]
  | address =>
      simp [read, readHere, Meets, Attempt.orElse_eq_abort_iff, readNumber_eq_abort_iff,
        readText_ne_abort, and_assoc]
  | regOrByte =>
      simp [read, readHere, Meets, Attempt.orElse_eq_abort_iff, readNumber_eq_abort_iff,
        readReg_ne_abort, readReg_eq_miss_iff, and_assoc]
  | reg => simp [read, readHere, Meets, readReg_ne_abort]
  | name | line => simp [read, readHere, Meets, readText_ne_abort]
  | keyword | mark | index | v0 =>
      constructor
      · intro h
        rw [read, readHere] at h
        split at h
        · cases h
        · cases h
      · rintro ⟨field, m, hMeets, -⟩
        cases hMeets

/-- Tokens end the reading at a number that one of them comes to. -/
theorem Token.readAll_eq_abort_iff {ts : List Token} :
    readAll ts c = .abort e ↔ ∃ field m, MeetsAll field m ts c ∧ m.inField field = .error e := by
  induction ts generalizing c with
  | nil =>
      refine ⟨fun h => (nomatch h), ?_⟩
      rintro ⟨field, m, hMeets, -⟩
      cases hMeets
  | cons t ts ih =>
      rw [readAll, Attempt.andThen_eq_abort_iff, read_eq_abort_iff]
      constructor
      · rintro (⟨field, m, hMeets, hError⟩ | ⟨args, mid, hFirst, hRest⟩)
        · exact ⟨field, m, .here ts hMeets, hError⟩
        · obtain ⟨field, m, hMeets, hError⟩ := ih.1 (Attempt.map_eq_abort_iff.1 hRest)
          exact ⟨field, m, .later hFirst hMeets, hError⟩
      · rintro ⟨field, m, hMeets, hError⟩
        cases hMeets with
        | here _ hMeets => exact .inl ⟨field, m, hMeets, hError⟩
        | later hFirst hMeets =>
            exact .inr ⟨_, _, hFirst, Attempt.map_eq_abort_iff.2 (ih.2 ⟨field, m, hMeets, hError⟩)⟩

theorem readNumbers_eq_abort_iff {f : Field} :
    readNumbers f c = .abort e ↔
      ∃ field m, NumbersMeet field m f c ∧ m.inField field = .error e := by
  constructor
  · intro h
    fun_induction readNumbers f c with
    | case1 c hMiss => cases h
    | case2 c e' hAbort =>
        cases h
        obtain ⟨field, m, hMeets, hError⟩ := Token.readAll_eq_abort_iff.1 hAbort
        exact ⟨field, m, .here hMeets, hError⟩
    | case3 c args mid hHit ih =>
        obtain ⟨field, m, hMeets, hError⟩ := ih (Attempt.map_eq_abort_iff.1 h)
        exact ⟨field, m, .later hHit hMeets, hError⟩
  · rintro ⟨field, m, hMeets, hError⟩
    induction hMeets with
    | here h => exact readNumbers_of_abort (Token.readAll_eq_abort_iff.2 ⟨field, m, h, hError⟩)
    | later hFirst _ ih =>
        rw [readNumbers_of_hit hFirst]
        exact Attempt.map_eq_abort_iff.2 ih

/-- What may follow the tokens of a form ends the reading at a number that it comes to. -/
theorem Tail.read_eq_abort_iff {t : Tail} :
    t.read c = .abort e ↔ ∃ field m, t.Meets field m c ∧ m.inField field = .error e := by
  cases t with
  | none => simp [read, Meets]
  | register =>
      simp [read, Meets, Attempt.orElse_eq_abort_iff, Attempt.map_eq_abort_iff,
        Token.readAll_eq_abort_iff]
  | numbers f => exact readNumbers_eq_abort_iff

/-- A form ends the reading at a number that it comes to. -/
theorem Form.read_eq_abort_iff {f : Form} :
    f.read c = .abort e ↔ ∃ field m, f.Meets field m c ∧ m.inField field = .error e := by
  constructor
  · intro h
    rcases Attempt.andThen_eq_abort_iff.1 h with h | ⟨args, mid, hTokens, h⟩
    · obtain ⟨field, m, hMeets, hError⟩ := Token.readAll_eq_abort_iff.1 h
      exact ⟨field, m, .tokens hMeets, hError⟩
    · rcases Attempt.andThen_eq_abort_iff.1 h with h | ⟨more, next, -, h⟩
      · obtain ⟨field, m, hMeets, hError⟩ := Tail.read_eq_abort_iff.1 h
        exact ⟨field, m, .tail hTokens hMeets, hError⟩
      · -- Once tokens and tail are read, a form hits or misses.
        split at h
        · cases h
        · cases h
  · rintro ⟨field, m, hMeets, hError⟩
    refine Attempt.andThen_eq_abort_iff.2 ?_
    cases hMeets with
    | tokens hMeets => exact .inl (Token.readAll_eq_abort_iff.2 ⟨field, m, hMeets, hError⟩)
    | tail hTokens hMeets =>
        have hTail := Tail.read_eq_abort_iff.2 ⟨field, m, hMeets, hError⟩
        exact .inr ⟨_, _, hTokens, Attempt.andThen_eq_abort_iff.2 (.inl hTail)⟩

/-- Forms that are tried in order end the reading at a number that one of them comes to. -/
theorem readFirst_eq_abort_iff {fs : List Form} :
    readFirst fs c = .abort e ↔ ∃ field m, FirstMeets field m c fs ∧ m.inField field = .error e := by
  induction fs with
  | nil =>
      refine ⟨fun h => (nomatch h), ?_⟩
      rintro ⟨field, m, hMeets, -⟩
      cases hMeets
  | cons f fs ih =>
      rw [readFirst, Attempt.orElse_eq_abort_iff, Form.read_eq_abort_iff, ih]
      constructor
      · rintro (⟨field, m, hMeets, hError⟩ | ⟨hMiss, field, m, hMeets, hError⟩)
        · exact ⟨field, m, .here fs hMeets, hError⟩
        · exact ⟨field, m, .later hMiss hMeets, hError⟩
      · rintro ⟨field, m, hMeets, hError⟩
        cases hMeets with
        | here _ hMeets => exact .inl ⟨field, m, hMeets, hError⟩
        | later hMiss hMeets => exact .inr ⟨hMiss, field, m, hMeets, hError⟩

/-- The reading of a source breaks off at a number that it comes to and that has no value in its
field. -/
theorem readStatements_eq_error_iff :
    readStatements c = .error e ↔
      ∃ field m, StatementsMeet field m c ∧ m.inField field = .error e := by
  constructor
  · intro h
    fun_induction readStatements c with
    | case1 c hMiss => cases h
    | case2 c e' hAbort =>
        cases h
        obtain ⟨field, m, hMeets, hError⟩ := readFirst_eq_abort_iff.1 hAbort
        exact ⟨field, m, .here hMeets, hError⟩
    | case3 c s next hHit others stop hRest ih => cases h
    | case4 c s next hHit e' hRest ih =>
        cases h
        obtain ⟨field, m, hMeets, hError⟩ := ih hRest
        exact ⟨field, m, .later hHit hMeets, hError⟩
  · rintro ⟨field, m, hMeets, hError⟩
    induction hMeets with
    | here h => exact readStatements_of_abort (readFirst_eq_abort_iff.2 ⟨field, m, h, hError⟩)
    | later hFirst _ ih => rw [readStatements_of_hit hFirst, ih]

end BreakingOff

/-! ## Numerals that can be converted -/

/-- The numeral is short enough to be converted to a number, and the number to be written. -/
def Numeral.Convertible (m : Numeral) : Prop := m.Short ∧ m.value < Nat.pow 10 digitLimit

/-- A numeral that can be converted has no value in a field exactly if it is above the limit. -/
theorem Numeral.Convertible.inField_eq_error_iff {m : Numeral} {field : Field} {e : Error}
    (h : m.Convertible) :
    m.inField field = .error e ↔ field.limit < m.value ∧ e = .outOfRange field m.value := by
  obtain ⟨hShort, hValue⟩ := h
  by_cases hLimit : m.value ≤ field.limit
  · rw [inField_eq_ok_iff.2 ⟨hShort, rfl, hLimit⟩]
    refine ⟨fun h => (nomatch h), fun h => ?_⟩
    exact absurd h.1 (Nat.not_lt.2 hLimit)
  · have hLong : ¬ (m.base = 10 ∧ digitLimit < m.digits.length) := fun hLong =>
      Nat.not_lt.2 (hShort hLong.1) hLong.2
    rw [inField, if_neg hLong, if_neg hLimit, if_neg (Nat.not_le.2 hValue)]
    simp [Nat.not_le.1 hLimit, eq_comm]

/-- The numeral stands in the text from the cursor on. -/
def Numeral.StandsFrom (m : Numeral) (c : Cursor) : Prop :=
  ∃ text, ofText? text = some m ∧ text.length ≤ c.rest.length

section StandsFrom

variable {field : Field} {m : Numeral} {c next : Cursor}

theorem Numeral.StandsFrom.mono (h : m.StandsFrom next)
    (hLength : next.rest.length ≤ c.rest.length) : m.StandsFrom c := by
  obtain ⟨text, hText, hRest⟩ := h
  exact ⟨text, hText, Nat.le_trans hRest hLength⟩

theorem Token.Meets.standsFrom {t : Token} (h : t.Meets c field m) : m.StandsFrom c := by
  have hSkip : Numeral.ofText? c.skip.rest = some m → m.StandsFrom c := fun hText =>
    ⟨c.skip.rest, hText, c.length_skip_le⟩
  cases t with
  | number f => exact hSkip h.2
  | address => exact hSkip h.2
  | regOrByte => exact hSkip h.2.2
  | _ => exact absurd h id

theorem MeetsAll.standsFrom {ts : List Token} (h : MeetsAll field m ts c) : m.StandsFrom c := by
  induction h with
  | here ts h => exact h.standsFrom
  | later hFirst _ ih => exact ih.mono (Nat.le_of_lt (Token.length_lt_of_read hFirst))

theorem NumbersMeet.standsFrom {f : Field} (h : NumbersMeet field m f c) : m.StandsFrom c := by
  induction h with
  | here h => exact h.standsFrom
  | later hFirst _ ih => exact ih.mono (Nat.le_of_add_right_le (Token.length_le_of_readAll hFirst))

theorem Form.Meets.standsFrom {f : Form} (h : f.Meets field m c) : m.StandsFrom c := by
  cases h with
  | tokens h => exact h.standsFrom
  | @tail mid args hTokens h =>
      have hTail : m.StandsFrom mid := by
        cases hKind : f.tail with
        | none => rw [hKind] at h; exact absurd h id
        | register => rw [hKind] at h; exact MeetsAll.standsFrom h
        | numbers f => rw [hKind] at h; exact NumbersMeet.standsFrom h
      exact hTail.mono (Nat.le_of_add_right_le (Token.length_le_of_readAll hTokens))

theorem FirstMeets.standsFrom {fs : List Form} (h : FirstMeets field m c fs) :
    m.StandsFrom c := by
  induction h with
  | here fs h => exact h.standsFrom
  | later _ _ ih => exact ih

theorem StatementsMeet.standsFrom (h : StatementsMeet field m c) : m.StandsFrom c := by
  induction h with
  | here h => exact h.standsFrom
  | later hFirst _ ih => exact ih.mono (Nat.le_of_lt (length_lt_of_readStatement hFirst))

end StandsFrom

theorem Denotes.lt_pow {base : Nat} {ds : List Char} {n : Nat} (h : Denotes base ds n) :
    n < Nat.pow base ds.length := by
  induction h with
  | single _ hd => simpa using hd
  | @snoc ds n c d _ _ hd ih =>
      rw [List.length_append, List.length_singleton]
      calc base * n + d < base * (n + 1) := by rw [Nat.mul_succ]; omega
        _ ≤ base * Nat.pow base ds.length := Nat.mul_le_mul_left base ih
        _ = Nat.pow base (ds.length + 1) := Nat.mul_comm _ _

/-- A numeral has no more than two decimal digits for each of its characters. -/
theorem IsNumeral.lt_pow {w : List Char} {n : Nat} (h : IsNumeral w n) :
    n < Nat.pow 10 (2 * w.length) := by
  have hBase : ∀ (base : Nat) (ds : List Char), base ≤ 100 → ds.length ≤ w.length →
      Denotes base ds n → n < Nat.pow 10 (2 * w.length) := by
    intro base ds hBase hLength hDenotes
    calc n < Nat.pow base ds.length := hDenotes.lt_pow
      _ ≤ Nat.pow 100 ds.length := Nat.pow_le_pow_left hBase _
      _ ≤ Nat.pow 100 w.length := Nat.pow_le_pow_right (by decide) hLength
      _ = Nat.pow 10 (2 * w.length) := (Nat.pow_mul 10 2 _).symm
  cases h with
  | @hex x ds _ _ h => exact hBase 16 ds (by decide) (by simp only [List.length_cons]; omega) h
  | @bin b ds _ _ h => exact hBase 2 ds (by decide) (by simp only [List.length_cons]; omega) h
  | dec h _ => exact hBase 10 w (by decide) (Nat.le_refl _) h

/-- In a source that is not too long every numeral can be converted. -/
theorem convertible_of_readsNumber {source : String} {field : Field} {m : Numeral}
    (hLength : 2 * (Text.expandTabs source.toList).length ≤ Numeral.digitLimit)
    (h : ReadsNumber source field m) : m.Convertible := by
  obtain ⟨text, hText, hRest⟩ := StatementsMeet.standsFrom h
  have hNumeral := length_le_of_ofText? hText
  have hDigits : m.digits.length ≤ m.length := Nat.le_add_left _ _
  have hStart : text.length ≤ (Text.expandTabs source.toList).length := hRest
  have hShort : m.Short := fun _ => by omega
  have hValue : m.value < Nat.pow 10 (2 * m.length) := by
    have hBound := (isNumeral_of_ofText? hText hShort).lt_pow
    rwa [List.length_take_of_le hNumeral] at hBound
  have hPow : ∀ j k, j ≤ k → Nat.pow 10 j ≤ Nat.pow 10 k := fun j k hLe =>
    Nat.pow_le_pow_right (by decide) hLe
  exact ⟨hShort, Nat.lt_of_lt_of_le hValue (hPow _ _ (by omega))⟩

end Chip8.Assembly
