import Chip8.Proofs.Assembly.Disassembly
import Mathlib.Data.List.Induction

/-!
# How statements are written

A statement is written as a sequence of parts: words and marks that are always the same up to their
case, registers, numbers and names.  `Part.Written` and `Statement.Written` say which texts these are,
without a word on how a source is read.  The numerals among them are just the texts that are read as
numbers (`exists_ofText?_of_isNumeral`, `isNumeral_of_ofText?`), and no longer numeral is ever passed
over for a shorter one (`length_le_of_isNumeral`).
-/

namespace Chip8.Assembly

open Text

/-! ## Numbers -/

/-- The digits in order, in capitals and in small letters. -/
def digitRows : List (List Char) := ["0123456789ABCDEF".toList, "0123456789abcdef".toList]

/-- The character is the digit of this value. -/
def IsDigit (c : Char) (d : Nat) : Prop := ∃ row ∈ digitRows, row[d]? = some c

/-- The digits are those of a number in a base, the highest of them first.  Zeros may come before. -/
inductive Denotes (base : Nat) : List Char → Nat → Prop where
  | single {c : Char} {d : Nat} (hc : IsDigit c d) (hd : d < base) : Denotes base [c] d
  | snoc {ds : List Char} {n : Nat} {c : Char} {d : Nat} (h : Denotes base ds n)
      (hc : IsDigit c d) (hd : d < base) : Denotes base (ds ++ [c]) (base * n + d)

/-- The text is a numeral of the number: hexadecimal, binary or decimal. -/
inductive IsNumeral : List Char → Nat → Prop where
  | hex {x : Char} {ds : List Char} {n : Nat} (hx : x = 'x' ∨ x = 'X') (h : Denotes 16 ds n) :
      IsNumeral ('0' :: x :: ds) n
  | bin {b : Char} {ds : List Char} {n : Nat} (hb : b = 'b' ∨ b = 'B') (h : Denotes 2 ds n) :
      IsNumeral ('0' :: b :: ds) n
  | dec {ds : List Char} {n : Nat} (h : Denotes 10 ds n)
      (hLength : ds.length ≤ Numeral.digitLimit) : IsNumeral ds n

/-! ## Parts -/

/-- A part of a statement. -/
inductive Part where
  /-- A word or mark, given in capitals. -/
  | fixed (text : List Char)
  /-- A register. -/
  | reg (r : Reg)
  /-- A number. -/
  | number (n : Int)
  /-- A name. -/
  | name (s : String)
deriving DecidableEq, Repr

/-- The comma between operands. -/
def Part.comma : Part := .fixed [',']

/-- The text is a name: ASCII letters, digits and underscores, of which the first is no digit. -/
def IsName (w : List Char) : Prop :=
  ∃ c rest, w = c :: rest ∧ Cursor.isNameStart c = true ∧ ∀ d ∈ rest, Cursor.isNameChar d = true

/-- The text is a way to write the part. -/
inductive Part.Written : Part → List Char → Prop where
  | fixed {text w : List Char} (h : w.map upper = text) : Written (.fixed text) w
  | reg {v c : Char} {d : Nat} (hv : v = 'V' ∨ v = 'v') (hc : IsDigit c d) :
      Written (.reg ⟨d⟩) [v, c]
  | number {w : List Char} {n : Nat} (h : IsNumeral w n) : Written (.number n) w
  | name {w : List Char} (h : IsName w) : Written (.name (String.ofList w)) w

/-! ## Statements -/

/-- The words and marks of a text. -/
def splitLexemes : List Char → List (List Char)
  | [] => []
  | c :: rest =>
    if isBlank c then splitLexemes rest
    else if Cursor.isNameChar c && rest.head?.any Cursor.isNameChar then
      match splitLexemes rest with
      | w :: ws => (c :: w) :: ws
      | [] => [[c]]
    else [c] :: splitLexemes rest

/-- The parts of a text that is always the same. -/
def fixedParts (text : String) : List Part := (splitLexemes text.toList).map .fixed

/-- An operand as a part. -/
def partOf : Operand → Part
  | .reg r => .reg r
  | .imm n => .number n

/-- The parts of an instruction. -/
def instrParts : Instr → List Part
  | .bare op => fixedParts op.text
  | .address op addr => fixedParts op.lead ++ [.number addr]
  | .binary op x y => fixedParts op.text ++ [.reg x, .comma, partOf y]
  | .pair op x y => fixedParts op.text ++ [.reg x, .comma, .reg y]
  | .single op x => fixedParts op.frame.1 ++ .reg x :: fixedParts op.frame.2
  | .random x mask => fixedParts "RND" ++ [.reg x, .comma, .number mask]
  | .draw x y rows => fixedParts "DRW" ++ [.reg x, .comma, .reg y, .comma, .number rows]

/-- More numbers of a list, each after a comma. -/
def furtherParts (values : List Int) : List Part := values.flatMap fun n => [.comma, .number n]

/-- The numbers of a list with commas between them. -/
def listParts : List Int → List Part
  | [] => []
  | n :: values => .number n :: furtherParts values

namespace Statement

/-- The parts of a statement. -/
def parts : Statement → List Part
  | .label name => [.name name, .fixed [':']]
  | .instr i => instrParts i
  | .ref op name => fixedParts op.lead ++ [.name name]
  | .bytes values => fixedParts "DB" ++ listParts values
  | .words values => fixedParts "DW" ++ listParts values
  | .unknown _ => []

/-- Every operand fits its place, and lists are not empty.  A line that is no statement does not fit. -/
def Fits : Statement → Prop
  | .label _ => True
  | .instr i => i.Fits
  | .ref _ _ => True
  | .bytes values => values ≠ [] ∧ ∀ n ∈ values, 0 ≤ n ∧ n ≤ 0xFF
  | .words values => values ≠ [] ∧ ∀ n ∈ values, 0 ≤ n ∧ n ≤ 0xFFFF
  | .unknown _ => False

/-- The statement consists of the parts.  A shift may name a second register, which says nothing. -/
inductive Consists : Statement → List Part → Prop where
  | plain (s : Statement) : Consists s s.parts
  | shift {op : SingleOp} (x : Reg) {y : Reg} (hOp : op = .shiftRight ∨ op = .shiftLeft)
      (hy : y.Exists) :
      Consists (.instr (.single op x)) (instrParts (.single op x) ++ [.comma, .reg y])

/-- The texts, one after the other, are a way to write the statement. -/
def Written (s : Statement) (ws : List (List Char)) : Prop :=
  s.Fits ∧ ∃ ps, s.Consists ps ∧ List.Forall₂ Part.Written ps ws

end Statement

/-- The texts are a way to write the statements in order. -/
inductive WrittenAll : List Statement → List (List Char) → Prop where
  | nil : WrittenAll [] []
  | cons {s : Statement} {found : List Statement} {ws rest : List (List Char)}
      (hFirst : s.Written ws) (hRest : WrittenAll found rest) :
      WrittenAll (s :: found) (ws ++ rest)

/-! ## Digits and numerals -/

instance (c : Char) (d : Nat) : Decidable (IsDigit c d) :=
  inferInstanceAs (Decidable (∃ row ∈ digitRows, row[d]? = some c))

theorem isDigit_iff {c : Char} {d : Nat} :
    IsDigit c d ↔ isHexDigit c = true ∧ digitValue c = d := by
  constructor
  · rintro ⟨row, hRow, hAt⟩
    have hLength : ∀ row ∈ digitRows, row.length = 16 := by decide
    have hAll : ∀ row ∈ digitRows, ∀ k : Fin 16,
        (row[k.val]?).all (fun c => isHexDigit c && digitValue c == k.val) = true := by decide
    obtain ⟨hBound, -⟩ := List.getElem?_eq_some_iff.1 hAt
    have hDigit := hAll row hRow ⟨d, hLength row hRow ▸ hBound⟩
    simpa [hAt] using hDigit
  · rintro ⟨hHex, rfl⟩
    exact forall_isNameChar (p := fun c => isHexDigit c = true → IsDigit c (digitValue c))
      (by decide +kernel) (isNameChar_of_isHexDigit hHex) hHex

/-- The test tells the digits of the base from all other characters. -/
def IsDigitTest (base : Nat) (test : Char → Bool) : Prop :=
  ∀ c, test c = true ↔ ∃ d, IsDigit c d ∧ d < base

theorem isDigitTest_hex : IsDigitTest 16 isHexDigit := by
  intro c
  constructor
  · intro h
    have hBound : digitValue c < 16 :=
      forall_isNameChar (p := fun c => isHexDigit c = true → digitValue c < 16)
        (by decide +kernel) (isNameChar_of_isHexDigit h) h
    exact ⟨digitValue c, isDigit_iff.2 ⟨h, rfl⟩, hBound⟩
  · rintro ⟨d, hDigit, -⟩
    exact (isDigit_iff.1 hDigit).1

/-- The digits of a lower base are those hexadecimal digits whose value is below it. -/
theorem isDigitTest_of_lower {base : Nat} {test : Char → Bool}
    (hHex : ∀ c, test c = true → isHexDigit c = true)
    (hValue : ∀ c, isHexDigit c = true → (test c = true ↔ digitValue c < base)) :
    IsDigitTest base test := by
  intro c
  constructor
  · intro h
    exact ⟨digitValue c, isDigit_iff.2 ⟨hHex c h, rfl⟩, (hValue c (hHex c h)).1 h⟩
  · rintro ⟨d, hDigit, hBound⟩
    obtain ⟨hChar, rfl⟩ := isDigit_iff.1 hDigit
    exact (hValue c hChar).2 hBound

theorem isDigitTest_dec : IsDigitTest 10 Char.isDigit := by
  refine isDigitTest_of_lower (fun c h => ?_) fun c h => ?_
  · simp [isHexDigit, h]
  · exact forall_isNameChar
      (p := fun c => isHexDigit c = true → (c.isDigit = true ↔ digitValue c < 10))
      (by decide +kernel) (isNameChar_of_isHexDigit h) h

theorem isDigitTest_bin : IsDigitTest 2 isBinDigit := by
  refine isDigitTest_of_lower (fun c h => ?_) fun c h => ?_
  · simp only [isBinDigit, Bool.or_eq_true, decide_eq_true_eq] at h
    rcases h with rfl | rfl
    · decide
    · decide
  · exact forall_isNameChar
      (p := fun c => isHexDigit c = true → (isBinDigit c = true ↔ digitValue c < 2))
      (by decide +kernel) (isNameChar_of_isHexDigit h) h

/-- What digits denote is their value. -/
theorem denotes_iff {base : Nat} {test : Char → Bool} (hTest : IsDigitTest base test)
    {ds : List Char} {n : Nat} :
    Denotes base ds n ↔ ds ≠ [] ∧ (∀ c ∈ ds, test c = true) ∧ digitsValue base ds = n := by
  constructor
  · intro h
    induction h with
    | @single c d hc hd =>
        refine ⟨List.cons_ne_nil _ _, ?_, ?_⟩
        · intro x hx
          rw [List.mem_singleton.1 hx]
          exact (hTest c).2 ⟨d, hc, hd⟩
        · exact (Nat.zero_add _).trans (isDigit_iff.1 hc).2
    | @snoc ds n c d h hc hd ih =>
        obtain ⟨hne, hAll, hValue⟩ := ih
        refine ⟨List.append_ne_nil_of_right_ne_nil _ (List.cons_ne_nil _ _), ?_, ?_⟩
        · intro x hx
          rcases List.mem_append.1 hx with hx | hx
          · exact hAll x hx
          · rw [List.mem_singleton.1 hx]
            exact (hTest c).2 ⟨d, hc, hd⟩
        · rw [digitsValue_append_singleton, hValue, (isDigit_iff.1 hc).2]
  · rintro ⟨hne, hAll, rfl⟩
    induction ds using List.reverseRecOn with
    | nil => exact absurd rfl hne
    | append_singleton ds c ih =>
        obtain ⟨d, hDigit, hBound⟩ := (hTest c).1 (hAll c (by simp))
        have hValue := (isDigit_iff.1 hDigit).2
        by_cases hds : ds = []
        · subst hds
          have hOnly : digitsValue base ([] ++ [c]) = d := (Nat.zero_add _).trans hValue
          rw [hOnly]
          exact .single hDigit hBound
        · rw [digitsValue_append_singleton, hValue]
          exact .snoc (ih hds fun x hx => hAll x (List.mem_append_left _ hx)) hDigit hBound

/-- A decimal numeral has no more digits than are converted. -/
def Numeral.Short (n : Numeral) : Prop := n.base = 10 → n.digits.length ≤ digitLimit

/-- A number is had of a numeral that is not too long and not above the limit. -/
theorem Numeral.inField_eq_ok_iff {m : Numeral} {field : Field} {n : Nat} :
    m.inField field = .ok n ↔ m.Short ∧ n = m.value ∧ m.value ≤ field.limit := by
  unfold Numeral.inField Numeral.Short
  by_cases hLong : m.base = 10 ∧ Numeral.digitLimit < m.digits.length
  · rw [if_pos hLong]
    constructor
    · intro h
      cases h
    · rintro ⟨hShort, -, -⟩
      exact absurd (hShort hLong.1) (Nat.not_le.2 hLong.2)
  · have hShort : m.base = 10 → m.digits.length ≤ Numeral.digitLimit := fun hBase =>
      Nat.not_lt.1 fun hLength => hLong ⟨hBase, hLength⟩
    rw [if_neg hLong]
    by_cases hLimit : m.value ≤ field.limit
    · rw [if_pos hLimit]
      constructor
      · intro h
        cases h
        exact ⟨hShort, rfl, hLimit⟩
      · rintro ⟨-, rfl, -⟩
        rfl
    · rw [if_neg hLimit]
      constructor
      · intro h
        split at h <;> cases h
      · rintro ⟨-, -, h⟩
        exact absurd h hLimit

/-- A numeral with a marked base is a zero, one of two letters and digits. -/
theorem marked?_eq_some_iff {a b : Char} {base : Nat} {test : Char → Bool} {text : List Char}
    {m : Numeral} : marked? a b base test text = some m ↔
      ∃ c rest, text = '0' :: c :: rest ∧ (c = a ∨ c = b) ∧ rest.takeWhile test ≠ [] ∧
        m = ⟨base, 2, rest.takeWhile test⟩ := by
  constructor
  · intro h
    unfold marked? at h
    split at h
    · next c rest =>
        dsimp only at h
        split at h
        · next hAll =>
            cases h
            exact ⟨c, rest, rfl, by simpa using hAll⟩
        · cases h
    · cases h
  · rintro ⟨c, rest, rfl, hc, hDigits, rfl⟩
    simp [marked?, hc, hDigits]

theorem dec?_eq_some_iff {text : List Char} {m : Numeral} : Numeral.dec? text = some m ↔
    text.takeWhile Char.isDigit ≠ [] ∧ m = ⟨10, 0, text.takeWhile Char.isDigit⟩ := by
  unfold Numeral.dec?
  cases text.takeWhile Char.isDigit with
  | nil => simp
  | cons c ds =>
      constructor
      · intro h
        cases h
        exact ⟨List.cons_ne_nil _ _, rfl⟩
      · rintro ⟨-, rfl⟩
        rfl

/-- Where the second character marks no base, the numeral is decimal. -/
theorem ofText?_eq_dec? {text : List Char}
    (h : ∀ c rest, text = '0' :: c :: rest → c ∉ ['x', 'X', 'b', 'B']) :
    Numeral.ofText? text = Numeral.dec? text := by
  have hNone : ∀ a b base test, a ∈ ['x', 'X', 'b', 'B'] → b ∈ ['x', 'X', 'b', 'B'] →
      marked? a b base test text = none := by
    intro a b base test ha hb
    refine Option.eq_none_iff_forall_ne_some.2 fun m hm => ?_
    obtain ⟨c, rest, hText, hc, -⟩ := marked?_eq_some_iff.1 hm
    rcases hc with rfl | rfl
    · exact h c rest hText ha
    · exact h c rest hText hb
  rw [Numeral.ofText?, hex?_eq_marked?, bin?_eq_marked?, hNone _ _ _ _ (by decide) (by decide),
    hNone _ _ _ _ (by decide) (by decide)]
  rfl

/-- A text that is a numeral is read as this numeral. -/
theorem exists_ofText?_of_isNumeral {w : List Char} {n : Nat} (h : IsNumeral w n) :
    ∃ m, Numeral.ofText? w = some m ∧ m.length = w.length ∧ m.value = n ∧ m.Short := by
  cases h with
  | @hex x ds n hx h =>
      obtain ⟨hne, hAll, hValue⟩ := (denotes_iff isDigitTest_hex).1 h
      have hDigits := List.takeWhile_eq_self_iff.2 hAll
      refine ⟨⟨16, 2, ds⟩, ?_, ?_, hValue, fun hBase => absurd hBase (show ¬16 = 10 by decide)⟩
      · have hHex : Numeral.hex? ('0' :: x :: ds) = some ⟨16, 2, ds⟩ :=
          marked?_eq_some_iff.2 ⟨x, ds, rfl, hx, hDigits.symm ▸ hne, by rw [hDigits]⟩
        rw [Numeral.ofText?, hHex]
        rfl
      · simp only [Numeral.length, List.length_cons]
        omega
  | @bin b ds n hb h =>
      obtain ⟨hne, hAll, hValue⟩ := (denotes_iff isDigitTest_bin).1 h
      have hDigits := List.takeWhile_eq_self_iff.2 hAll
      refine ⟨⟨2, 2, ds⟩, ?_, ?_, hValue, fun hBase => absurd hBase (show ¬2 = 10 by decide)⟩
      · have hBin : Numeral.bin? ('0' :: b :: ds) = some ⟨2, 2, ds⟩ :=
          marked?_eq_some_iff.2 ⟨b, ds, rfl, hb, hDigits.symm ▸ hne, by rw [hDigits]⟩
        have hHex : Numeral.hex? ('0' :: b :: ds) = none := by
          rcases hb with rfl | rfl
          · simp [Numeral.hex?]
          · simp [Numeral.hex?]
        rw [Numeral.ofText?, hHex, hBin]
        rfl
      · simp only [Numeral.length, List.length_cons]
        omega
  | dec h hLength =>
      obtain ⟨hne, hAll, hValue⟩ := (denotes_iff isDigitTest_dec).1 h
      have hDigits := List.takeWhile_eq_self_iff.2 hAll
      refine ⟨⟨10, 0, w⟩, ?_, Nat.zero_add _, hValue, fun _ => hLength⟩
      rw [ofText?_eq_dec?]
      · exact dec?_eq_some_iff.2 ⟨hDigits.symm ▸ hne, by rw [hDigits]⟩
      · rintro c rest rfl hc
        have hDigit : c.isDigit = true := hAll c (by simp)
        have hNone : ∀ c ∈ ['x', 'X', 'b', 'B'], c.isDigit = false := by simp
        rw [hNone c hc] at hDigit
        cases hDigit

theorem take_length_takeWhile (p : Char → Bool) (text : List Char) :
    text.take (text.takeWhile p).length = text.takeWhile p :=
  (List.prefix_iff_eq_take.1 (List.takeWhile_prefix p)).symm

theorem take_length_marked (base : Nat) (a c : Char) (test : Char → Bool) (rest : List Char) :
    (a :: c :: rest).take (⟨base, 2, rest.takeWhile test⟩ : Numeral).length =
      a :: c :: rest.takeWhile test := by
  have hLength : (⟨base, 2, rest.takeWhile test⟩ : Numeral).length =
      (rest.takeWhile test).length + 1 + 1 := Nat.add_comm _ _
  rw [hLength, List.take_succ_cons, List.take_succ_cons, take_length_takeWhile]

/-- What is read as a numeral is one. -/
theorem isNumeral_of_ofText? {text : List Char} {m : Numeral} (h : Numeral.ofText? text = some m)
    (hShort : m.Short) : IsNumeral (text.take m.length) m.value := by
  have hAll : ∀ (p : Char → Bool) (l : List Char), ∀ c ∈ l.takeWhile p, p c = true :=
    fun p l c hc => List.mem_takeWhile_imp hc
  simp only [Numeral.ofText?, Option.or_eq_some_iff] at h
  rcases h with h | ⟨-, h | ⟨-, h⟩⟩
  · obtain ⟨c, rest, rfl, hc, hne, rfl⟩ := marked?_eq_some_iff.1 h
    rw [take_length_marked]
    exact .hex hc ((denotes_iff isDigitTest_hex).2 ⟨hne, hAll _ _, rfl⟩)
  · obtain ⟨c, rest, rfl, hc, hne, rfl⟩ := marked?_eq_some_iff.1 h
    rw [take_length_marked]
    exact .bin hc ((denotes_iff isDigitTest_bin).2 ⟨hne, hAll _ _, rfl⟩)
  · obtain ⟨hne, rfl⟩ := dec?_eq_some_iff.1 h
    rw [Numeral.length, Nat.zero_add, take_length_takeWhile]
    exact .dec ((denotes_iff isDigitTest_dec).2 ⟨hne, hAll _ _, rfl⟩) (hShort rfl)

theorem length_takeWhile_le_append (p : Char → Bool) (l rest : List Char) :
    (l.takeWhile p).length ≤ ((l ++ rest).takeWhile p).length := by
  have hSplit : (l ++ rest).takeWhile p =
      l.takeWhile p ++ (l.dropWhile p ++ rest).takeWhile p := by
    rw [← List.takeWhile_append_of_pos fun c hc => List.mem_takeWhile_imp hc, ← List.append_assoc,
      List.takeWhile_append_dropWhile]
  rw [hSplit, List.length_append]
  omega

theorem marked?_append {a b : Char} {base : Nat} {test : Char → Bool} {w : List Char}
    {m : Numeral} (h : marked? a b base test w = some m) (rest : List Char) :
    ∃ k, marked? a b base test (w ++ rest) = some k ∧ m.length ≤ k.length := by
  obtain ⟨c, ds, rfl, hc, hne, rfl⟩ := marked?_eq_some_iff.1 h
  have hMore := length_takeWhile_le_append test ds rest
  refine ⟨⟨base, 2, (ds ++ rest).takeWhile test⟩, marked?_eq_some_iff.2 ⟨c, ds ++ rest, rfl, hc, ?_, rfl⟩,
    Nat.add_le_add_left hMore 2⟩
  have hPos := List.length_pos_iff.2 hne
  exact List.length_pos_iff.1 (by omega)

/-- A numeral with a marked base is longer than the run of decimal digits in its place. -/
theorem length_takeWhile_le_of_marked? {a b : Char} {base : Nat} {test : Char → Bool}
    {w rest : List Char} {k : Numeral} (ha : a.isDigit = false) (hb : b.isDigit = false)
    (h : marked? a b base test (w ++ rest) = some k) :
    (w.takeWhile Char.isDigit).length ≤ k.length := by
  obtain ⟨c, ds, hText, hc, -, rfl⟩ := marked?_eq_some_iff.1 h
  have hDigit : c.isDigit = false := by
    rcases hc with rfl | rfl
    · exact ha
    · exact hb
  have hRun : ((w ++ rest).takeWhile Char.isDigit).length = 1 := by
    rw [hText, List.takeWhile_cons_of_pos (by decide), List.takeWhile_cons_of_neg (by simp [hDigit])]
    rfl
  have hLess := length_takeWhile_le_append Char.isDigit w rest
  simp only [Numeral.length]
  omega

/-- A text that begins with a numeral is read at least as far. -/
theorem length_le_of_ofText?_append {w rest : List Char} {m k : Numeral}
    (hm : Numeral.ofText? w = some m) (hk : Numeral.ofText? (w ++ rest) = some k) :
    m.length ≤ k.length := by
  simp only [Numeral.ofText?, Option.or_eq_some_iff] at hm
  rcases hm with hm | ⟨hHex, hm | ⟨hBin, hm⟩⟩
  · obtain ⟨j, hj, hLength⟩ := marked?_append hm rest
    rw [Numeral.ofText?, hex?_eq_marked?, hj] at hk
    cases hk
    exact hLength
  · obtain ⟨j, hj, hLength⟩ := marked?_append hm rest
    obtain ⟨c, ds, rfl, hc, -⟩ := marked?_eq_some_iff.1 hm
    have hHex : Numeral.hex? ('0' :: c :: ds ++ rest) = none := by
      rcases hc with rfl | rfl
      · simp [Numeral.hex?]
      · simp [Numeral.hex?]
    rw [Numeral.ofText?, hHex, bin?_eq_marked?, hj] at hk
    cases hk
    exact hLength
  · obtain ⟨-, rfl⟩ := dec?_eq_some_iff.1 hm
    have hLead : (⟨10, 0, w.takeWhile Char.isDigit⟩ : Numeral).length =
        (w.takeWhile Char.isDigit).length := Nat.zero_add _
    rw [hLead]
    simp only [Numeral.ofText?, Option.or_eq_some_iff] at hk
    rcases hk with hk | ⟨-, hk | ⟨-, hk⟩⟩
    · exact length_takeWhile_le_of_marked? (by decide) (by decide) hk
    · exact length_takeWhile_le_of_marked? (by decide) (by decide) hk
    · obtain ⟨-, rfl⟩ := dec?_eq_some_iff.1 hk
      exact (length_takeWhile_le_append Char.isDigit w rest).trans (Nat.le_add_left _ 0)

/-- What is read as a numeral is the longest one that stands there. -/
theorem length_le_of_isNumeral {text w : List Char} {m : Numeral} {n : Nat}
    (h : Numeral.ofText? text = some m) (hw : IsNumeral w n) (hPrefix : w <+: text) :
    w.length ≤ m.length := by
  obtain ⟨rest, rfl⟩ := hPrefix
  obtain ⟨k, hk, hLength, -⟩ := exists_ofText?_of_isNumeral hw
  rw [← hLength]
  exact length_le_of_ofText?_append hk h

end Chip8.Assembly
