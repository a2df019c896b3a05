import Chip8.Assembly.Error

/-!
# Numerals

A number is written in hexadecimal after `0x`, in binary after `0b`, or in decimal.  The longest
run of digits counts, and a prefix without a digit is no prefix: `0x` alone is the decimal zero
followed by an `x`.
-/

namespace Chip8.Assembly

/-- Whether the character is a hexadecimal digit. -/
def isHexDigit (c : Char) : Bool :=
  c.isDigit || ('a' ≤ c && c ≤ 'f') || ('A' ≤ c && c ≤ 'F')

/-- Whether the character is a binary digit. -/
def isBinDigit (c : Char) : Bool :=
  c = '0' || c = '1'

/-- The value of a digit of any base. -/
def digitValue (c : Char) : Nat :=
  if c.isDigit then c.toNat - 48
  else if 'a' ≤ c then c.toNat - 87
  else c.toNat - 55

/-- The value of a run of digits. -/
def digitsValue (base : Nat) (digits : List Char) : Nat :=
  digits.foldl (fun value c => base * value + digitValue c) 0

/-- A numeral as it is written. -/
structure Numeral where
  /-- The base of its digits. -/
  base : Nat
  /-- The number of characters before the first digit. -/
  lead : Nat
  /-- The digits, most significant first. -/
  digits : List Char
deriving DecidableEq, Repr

namespace Numeral

/-- The number of characters. -/
def length (n : Numeral) : Nat := n.lead + n.digits.length

/-- The number that is written. -/
def value (n : Numeral) : Nat := digitsValue n.base n.digits

/-- The hexadecimal numeral at the front of a text. -/
def hex? : List Char → Option Numeral
  | '0' :: x :: rest =>
    let digits := rest.takeWhile isHexDigit
    if (x = 'x' || x = 'X') && !digits.isEmpty then some ⟨16, 2, digits⟩ else none
  | _ => none

/-- The binary numeral at the front of a text. -/
def bin? : List Char → Option Numeral
  | '0' :: b :: rest =>
    let digits := rest.takeWhile isBinDigit
    if (b = 'b' || b = 'B') && !digits.isEmpty then some ⟨2, 2, digits⟩ else none
  | _ => none

/-- The decimal numeral at the front of a text. -/
def dec? (text : List Char) : Option Numeral :=
  let digits := text.takeWhile Char.isDigit
  if digits.isEmpty then none else some ⟨10, 0, digits⟩

/-- The numeral at the front of a text: hexadecimal, or else binary, or else decimal. -/
def ofText? (text : List Char) : Option Numeral :=
  (hex? text).or ((bin? text).or (dec? text))

theorem digits_ne_nil_of_ofText? {text : List Char} {n : Numeral} (h : ofText? text = some n) :
    n.digits ≠ [] := by
  simp only [ofText?, Option.or_eq_some_iff] at h
  rcases h with h | ⟨-, h | ⟨-, h⟩⟩
  · unfold hex? at h
    split at h <;> simp_all
    exact h.2 ▸ by simpa using h.1.2
  · unfold bin? at h
    split at h <;> simp_all
    exact h.2 ▸ by simpa using h.1.2
  · simp only [dec?] at h
    split at h
    · simp at h
    · next hd =>
      cases h
      simpa using hd

theorem ofText?_nil : ofText? [] = none := by
  simp [ofText?, hex?, bin?, dec?]

/-- The most decimal digits that are converted, in reading and in writing. -/
def digitLimit : Nat := 4300

/-- The number in its field.  A decimal numeral with too many digits has no value, and a number
above the limit that is too long to write has no name. -/
def inField (n : Numeral) (field : Field) : Except Error Nat :=
  -- Leading zeros count here, and digits of other bases do not.
  if n.base = 10 ∧ digitLimit < n.digits.length then .error .tooManyDigits
  else if n.value ≤ field.limit then .ok n.value
  else if Nat.pow 10 digitLimit ≤ n.value then .error .tooManyDigits
  else .error (.outOfRange field n.value)

end Numeral

end Chip8.Assembly
