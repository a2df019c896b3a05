/-!
# Letter case

Keywords are compared in upper case.  Beside the ASCII letters two characters have an ASCII letter
as their upper case: the long s and the dotless i.
-/

namespace Chip8.Text

/-- The ASCII character that is the upper case of `c`, or else `c` itself. -/
def upper (c : Char) : Char :=
  if c = 'ſ' then 'S'
  else if c = 'ı' then 'I'
  else c.toUpper

/-- Whether a keyword cannot end next to the upper case character `c`. -/
def isKeywordChar (c : Char) : Bool :=
  c.isUpper || c.isDigit || c = '_' || c = '$'

end Chip8.Text
