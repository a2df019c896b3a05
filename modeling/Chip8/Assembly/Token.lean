import Chip8.Assembly.Cursor
import Chip8.Assembly.Numeral
import Chip8.Instr.Basic
import Chip8.Text.Letter
import Chip8.Text.WordChar

/-!
# Tokens

A statement is written as a sequence of tokens, with blanks and comments between them.  A `Token`
is what may stand in one place of the sequence, and `Token.read` reads it.  Every token has at least
one character, so reading one brings the cursor closer to the end (`Token.length_lt_of_read`).
-/

namespace Chip8.Assembly

open Text

/-- What an operand token says. -/
inductive Arg where
  /-- A register. -/
  | reg (r : Reg)
  /-- A number. -/
  | number (n : Nat)
  /-- A name, or the text of a line. -/
  | text (s : String)
deriving DecidableEq, Repr

/-- What may stand in one place of a statement. -/
inductive Token where
  /-- A keyword, given in upper case and written in any case. -/
  | keyword (word : String)
  /-- A punctuation mark. -/
  | mark (c : Char)
  /-- The letter `I` of the operand `[I]`, in any case. -/
  | index
  /-- The register `V0`. -/
  | v0
  /-- A register. -/
  | reg
  /-- A number that fits the field. -/
  | number (field : Field)
  /-- An address, as a number or as the name of a label. -/
  | address
  /-- A register or a byte. -/
  | regOrByte
  /-- A name. -/
  | name
  /-- All that is left of the line. -/
  | line
deriving DecidableEq, Repr

namespace Cursor

/-- Whether the keyword stands here, and neither begins nor ends inside a longer word.  The empty
word stands nowhere. -/
def atKeyword (word : List Char) (c : Cursor) : Bool :=
  !word.isEmpty
    && (c.rest.take word.length).map upper = word
    && !c.before.any (fun a => isKeywordChar (upper a))
    && !(c.rest.drop word.length).head?.any (fun a => isKeywordChar (upper a))

/-- The register that is named here: a `V` and a hexadecimal digit, and then no word character. -/
def reg? (c : Cursor) : Option Reg :=
  match c.rest with
  | v :: d :: rest =>
    if (v = 'V' || v = 'v') && isHexDigit d && !rest.head?.any isWordChar then
      some ⟨digitValue d⟩
    else none
  | _ => none

/-- Whether the character can begin a name. -/
def isNameStart (c : Char) : Bool := c.isAlpha || c = '_'

/-- Whether the character can be part of a name. -/
def isNameChar (c : Char) : Bool := c.isAlphanum || c = '_'

/-- The name that stands here, or the empty list. -/
def name (c : Cursor) : List Char :=
  if c.rest.head?.any isNameStart then c.rest.takeWhile isNameChar else []

/-- The rest of the line, or the empty list if it begins with white space. -/
def line (c : Cursor) : List Char :=
  if c.rest.head?.any isSpace then [] else c.rest.takeWhile (· ≠ '\n')

/-- Reads a nonempty run of characters. -/
def readText (text : List Char) (c : Cursor) : Attempt (List Arg) :=
  if text.isEmpty then .miss else .hit [.text (String.ofList text)] (c.advance text.length)

/-- Reads a register. -/
def readReg (c : Cursor) : Attempt (List Arg) :=
  match c.reg? with
  | some r => .hit [.reg r] (c.advance 2)
  | none => .miss

/-- Reads a number.  One that does not fit its field ends the reading of the source. -/
def readNumber (field : Field) (c : Cursor) : Attempt (List Arg) :=
  match Numeral.ofText? c.rest with
  | none => .miss
  | some numeral =>
    match numeral.inField field with
    | .ok n => .hit [.number n] (c.advance numeral.length)
    | .error e => .abort e

end Cursor

namespace Token

/-- Reads the token at the cursor itself, with no blanks before it. -/
def readHere (t : Token) (c : Cursor) : Attempt (List Arg) :=
  match t with
  | .keyword word =>
    if c.atKeyword word.toList then .hit [] (c.advance word.toList.length) else .miss
  | .mark a => if c.rest.head? = some a then .hit [] (c.advance 1) else .miss
  -- Unlike a keyword, this letter may have a word on either side.
  | .index => if (c.rest.head?.map upper) = some 'I' then .hit [] (c.advance 1) else .miss
  | .v0 => if c.reg? = some ⟨0⟩ then .hit [] (c.advance 2) else .miss
  | .reg => c.readReg
  | .number field => c.readNumber field
  | .address => (c.readNumber .address).orElse fun _ => c.readText c.name
  | .regOrByte => c.readReg.orElse fun _ => c.readNumber .byte
  | .name => c.readText c.name
  | .line => c.readText c.line

/-- Reads the token after blanks and comments. -/
def read (t : Token) (c : Cursor) : Attempt (List Arg) :=
  t.readHere c.skip

/-- Reads a sequence of tokens. -/
def readAll : List Token → Cursor → Attempt (List Arg)
  | [], c => .hit [] c
  | t :: ts, c =>
    (t.read c).andThen fun args next => (readAll ts next).map (args ++ ·)

/-! ## Progress -/

theorem length_advance_lt {n : Nat} {c : Cursor} (hn : n ≠ 0) (hc : c.rest ≠ []) :
    (c.advance n).rest.length < c.rest.length := by
  have := List.length_pos_iff.2 hc
  simp only [Cursor.rest_advance, List.length_drop]
  omega

theorem rest_ne_nil_of_atKeyword {word : List Char} {c : Cursor} (h : c.atKeyword word = true) :
    word.length ≠ 0 ∧ c.rest ≠ [] := by
  simp only [Cursor.atKeyword, Bool.and_eq_true, decide_eq_true_eq] at h
  obtain ⟨⟨⟨hw, ht⟩, -⟩, -⟩ := h
  have hne : word ≠ [] := by simpa using hw
  refine ⟨by simpa using hne, ?_⟩
  rintro hc
  rw [hc] at ht
  exact hne (by simpa using ht.symm)

theorem rest_ne_nil_of_reg? {c : Cursor} {r : Reg} (h : c.reg? = some r) : c.rest ≠ [] := by
  rintro hc
  simp [Cursor.reg?, hc] at h

theorem rest_ne_nil_of_name {c : Cursor} (h : c.name ≠ []) : c.rest ≠ [] := by
  rintro hc
  simp [Cursor.name, hc] at h

theorem rest_ne_nil_of_line {c : Cursor} (h : c.line ≠ []) : c.rest ≠ [] := by
  rintro hc
  simp [Cursor.line, hc] at h

theorem length_lt_of_readText {text : List Char} {c next : Cursor} {args : List Arg}
    (hc : text ≠ [] → c.rest ≠ []) (h : c.readText text = .hit args next) :
    next.rest.length < c.rest.length := by
  unfold Cursor.readText at h
  split at h
  · cases h
  · next hText =>
    cases h
    have hne : text ≠ [] := by simpa using hText
    exact length_advance_lt (by simpa using hne) (hc hne)

theorem length_lt_of_readReg {c next : Cursor} {args : List Arg} (h : c.readReg = .hit args next) :
    next.rest.length < c.rest.length := by
  unfold Cursor.readReg at h
  split at h
  · next r hr =>
    cases h
    exact length_advance_lt (by decide) (rest_ne_nil_of_reg? hr)
  · cases h

theorem length_lt_of_readNumber {field : Field} {c next : Cursor} {args : List Arg}
    (h : c.readNumber field = .hit args next) : next.rest.length < c.rest.length := by
  unfold Cursor.readNumber at h
  split at h
  · cases h
  · next numeral hNum =>
    split at h
    · cases h
      have hDigits := List.length_pos_iff.2 (Numeral.digits_ne_nil_of_ofText? hNum)
      refine length_advance_lt ?_ ?_
      · simp only [Numeral.length]
        omega
      · rintro hc
        rw [hc, Numeral.ofText?_nil] at hNum
        cases hNum
    · cases h

/-- A token that is read has at least one character. -/
theorem length_lt_of_readHere {t : Token} {c next : Cursor} {args : List Arg}
    (h : t.readHere c = .hit args next) : next.rest.length < c.rest.length := by
  cases t with
  | keyword word =>
    simp only [readHere] at h
    split at h
    · next hk =>
      cases h
      obtain ⟨hw, hc⟩ := rest_ne_nil_of_atKeyword hk
      exact length_advance_lt hw hc
    · cases h
  | mark a =>
    simp only [readHere] at h
    split at h
    · next hm =>
      cases h
      exact length_advance_lt (by decide) (by rintro hc; simp [hc] at hm)
    · cases h
  | index =>
    simp only [readHere] at h
    split at h
    · next hi =>
      cases h
      exact length_advance_lt (by decide) (by rintro hc; simp [hc] at hi)
    · cases h
  | v0 =>
    simp only [readHere] at h
    split at h
    · next hv =>
      cases h
      exact length_advance_lt (by decide) (rest_ne_nil_of_reg? hv)
    · cases h
  | reg => exact length_lt_of_readReg h
  | number field => exact length_lt_of_readNumber h
  | address =>
    simp only [readHere, Attempt.orElse_eq_hit_iff] at h
    rcases h with h | ⟨-, h⟩
    · exact length_lt_of_readNumber h
    · exact length_lt_of_readText rest_ne_nil_of_name h
  | regOrByte =>
    simp only [readHere, Attempt.orElse_eq_hit_iff] at h
    rcases h with h | ⟨-, h⟩
    · exact length_lt_of_readReg h
    · exact length_lt_of_readNumber h
  | name => exact length_lt_of_readText rest_ne_nil_of_name h
  | line => exact length_lt_of_readText rest_ne_nil_of_line h

theorem length_lt_of_read {t : Token} {c next : Cursor} {args : List Arg}
    (h : t.read c = .hit args next) : next.rest.length < c.rest.length :=
  Nat.lt_of_lt_of_le (length_lt_of_readHere h) c.length_skip_le

theorem length_le_of_readAll {ts : List Token} {c next : Cursor} {args : List Arg}
    (h : readAll ts c = .hit args next) : next.rest.length + ts.length ≤ c.rest.length := by
  induction ts generalizing c args with
  | nil =>
    cases h
    simp
  | cons t ts ih =>
    obtain ⟨first, mid, hRead, hMap⟩ := Attempt.andThen_eq_hit_iff.1 h
    obtain ⟨others, hOthers, -⟩ := Attempt.map_eq_hit_iff.1 hMap
    have := length_lt_of_read hRead
    have := ih hOthers
    simp only [List.length_cons]
    omega

end Token

end Chip8.Assembly
