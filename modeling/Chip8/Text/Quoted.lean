import Chip8.Hex

/-!
# Quoted names

A name is quoted with apostrophes, or with double quotes if it holds an apostrophe and no double
quote.  The quote, the backslash and control characters are escaped.
-/

namespace Chip8.Text

/-- The escape of a control character by its number, in two hexadecimal places. -/
def escapeByte (c : Char) : List Char :=
  ['\\', 'x', (Hex.digit (c.toNat / 16)).toLower, (Hex.digit (c.toNat % 16)).toLower]

/-- The character as it stands between quotes. -/
def escape (quote c : Char) : List Char :=
  if c = quote || c = '\\' then ['\\', c]
  else if c = '\n' then ['\\', 'n']
  else if c = '\r' then ['\\', 'r']
  else if c = '\t' then ['\\', 't']
  else if c.toNat < 0x20 || (0x7F ≤ c.toNat && c.toNat ≤ 0xA0) || c.toNat = 0xAD then escapeByte c
  else [c]

/-- The name between quotes. -/
def quoted (name : String) : String :=
  let text := name.toList
  let quote := if text.contains '\'' && !text.contains '"' then '"' else '\''
  String.ofList (quote :: text.flatMap (escape quote) ++ [quote])

end Chip8.Text
