/-!
# Why a source has no program

A number that does not fit its field ends the reading of a source at once.  Text that can begin no
statement ends it too.  The other causes arise when the statements are laid out or linked.
-/

namespace Chip8.Assembly

/-- The place of a number in an instruction or in data: eight, sixteen, four or twelve bits. -/
inductive Field where
  | byte
  | word
  | nibble
  | address
deriving DecidableEq, Repr

/-- The greatest number that fits. -/
def Field.limit : Field → Nat
  | .byte => 0xFF
  | .word => 0xFFFF
  | .nibble => 0xF
  | .address => 0xFFF

/-- The name of the field. -/
def Field.text : Field → String
  | .byte => "Byte"
  | .word => "Word"
  | .nibble => "Nibble"
  | .address => "Address"

/-- Why a source has no program. -/
inductive Error where
  /-- A number is above the limit of its field. -/
  | outOfRange (field : Field) (value : Nat)
  /-- A number has more decimal digits than are converted. -/
  | tooManyDigits
  /-- Nothing can be read at this offset. -/
  | unreadable (offset : Nat)
  | unknownCommand (line : String)
  | duplicateLabel (name : String)
  | undefinedLabel (name : String)
  | notByte
  /-- A value or an opcode is no 16-bit word. -/
  | notWord
deriving DecidableEq, Repr

/-- What is said of the error, where there is something to say. -/
def Error.message? : Error → Option String
  | .outOfRange field value => some (field.text ++ " " ++ toString value ++ " out of range")
  | .unknownCommand line => some ("Unknown command " ++ line)
  | .duplicateLabel name => some ("Duplicate label " ++ name)
  | .undefinedLabel name => some ("Undefined label " ++ name)
  | .tooManyDigits => none
  | .unreadable _ => none
  | .notByte => none
  | .notWord => none

end Chip8.Assembly
