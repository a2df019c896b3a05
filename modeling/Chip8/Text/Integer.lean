import Chip8.Text.Blank

/-!
# Integers in arguments

An integer is written as a sign, which may be missing, and decimal digits of any script, among which
single underscores may stand.  White space around it does not count.
-/

namespace Chip8.Text

/-- The code points of the digits zero of all scripts.  The other digits of a script follow its
zero. -/
def digitZeros : List Nat := [
  0x30, 0x660, 0x6F0, 0x7C0, 0x966, 0x9E6, 0xA66, 0xAE6, 0xB66, 0xBE6, 0xC66, 0xCE6, 0xD66, 0xDE6,
  0xE50, 0xED0, 0xF20, 0x1040, 0x1090, 0x17E0, 0x1810, 0x1946, 0x19D0, 0x1A80, 0x1A90, 0x1B50,
  0x1BB0, 0x1C40, 0x1C50, 0xA620, 0xA8D0, 0xA900, 0xA9D0, 0xA9F0, 0xAA50, 0xABF0, 0xFF10, 0x104A0,
  0x10D30, 0x11066, 0x110F0, 0x11136, 0x111D0, 0x112F0, 0x11450, 0x114D0, 0x11650, 0x116C0, 0x11730,
  0x118E0, 0x11950, 0x11C50, 0x11D50, 0x11DA0, 0x16A60, 0x16AC0, 0x16B50, 0x1D7CE, 0x1D7D8, 0x1D7E2,
  0x1D7EC, 0x1D7F6, 0x1E140, 0x1E2F0, 0x1E950, 0x1FBF0]

/-- The value of a decimal digit of any script. -/
def decimalDigit? (c : Char) : Option Nat :=
  (digitZeros.find? fun z => z ≤ c.toNat && c.toNat < z + 10).map (c.toNat - ·)

/-- The digits of a text that is made up of digits with single underscores among them. -/
def groupedDigits? : List Char → Option (List Nat)
  | [] => none
  | [c] => (decimalDigit? c).map ([·])
  | c :: '_' :: rest => do
    let d ← decimalDigit? c
    let ds ← groupedDigits? rest
    return d :: ds
  | c :: rest => do
    let d ← decimalDigit? c
    let ds ← groupedDigits? rest
    return d :: ds

/-- The most digits of an integer. -/
def maxDigits : Nat := 4300

/-- The natural number that is written. -/
def natural? (text : List Char) : Option Nat := do
  let digits ← groupedDigits? text
  if maxDigits < digits.length then none
  else some (digits.foldl (fun value d => 10 * value + d) 0)

/-- Whether the character may stand around an integer. -/
def isMargin (c : Char) : Bool :=
  -- The four separators of files, groups, records and units do not count as white space here.
  isSpace c && !(0x1C ≤ c.toNat && c.toNat ≤ 0x1F)

/-- The integer that is written. -/
def integer? (s : String) : Option Int :=
  match ((s.toList.dropWhile isMargin).reverse.dropWhile isMargin).reverse with
  | '+' :: text => (natural? text).map fun n => (n : Int)
  | '-' :: text => (natural? text).map fun n => -(n : Int)
  | text => (natural? text).map fun n => (n : Int)

end Chip8.Text
