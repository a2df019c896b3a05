import Chip8.Bits
import Chip8.Hardware
import Chip8.Instr.Word
import Chip8.Assembly.Error
import Chip8.Assembly.Statement

/-!
# Layout

Statements are laid out one after the other from a base address.  A `Layout` records what has been
placed so far: pieces whose bytes are known, and references to labels, which take two bytes each and
are filled in by `Layout.link` once all labels are known.  A statement that fails leaves the layout
as it was.
-/

namespace Chip8.Assembly

/-- Something that has been placed. -/
inductive Piece where
  /-- Bytes that are known. -/
  | bytes (data : List UInt8)
  /-- An instruction on the address of a label. -/
  | ref (op : AddressOp) (label : String)
deriving DecidableEq, Repr

/-- The number of bytes of the piece. -/
def Piece.size : Piece → Nat
  | .bytes data => data.length
  | .ref _ _ => opcodeSize

/-- The two bytes of a word, high byte first. -/
def wordBytes (w : Nat) : List UInt8 :=
  [UInt8.ofNat (w / 0x100), UInt8.ofNat w]

/-- The two bytes of a number, if it is a 16-bit word. -/
def wordBytes? (n : Int) : Option (List UInt8) :=
  if 0 ≤ n ∧ n ≤ 0xFFFF then some (wordBytes n.toNat) else none

/-- What has been placed so far. -/
structure Layout where
  /-- The address of the first byte. -/
  base : Int := romBase
  /-- What has been placed, in order. -/
  pieces : Array Piece := #[]
  /-- The number of bytes that have been placed. -/
  size : Nat := 0
  /-- The labels and their addresses, latest first. -/
  labels : List (String × Int) := []
deriving DecidableEq, Repr

namespace Layout

/-- The address of the next byte. -/
def address (l : Layout) : Int := l.base + l.size

/-- Places a piece. -/
def push (l : Layout) (p : Piece) : Layout :=
  { l with pieces := l.pieces.push p, size := l.size + p.size }

@[simp] theorem address_push (l : Layout) (p : Piece) :
    (l.push p).address = l.address + p.size := by
  simp only [address, push, Int.natCast_add]
  omega

/-- Places an instruction all of whose operands are known. -/
def instr (l : Layout) (i : Instr) : Except Error Layout :=
  match wordBytes? i.encode with
  | some data => .ok (l.push (.bytes data))
  | none => .error .notWord

/-- Places a list of bytes. -/
def bytes (l : Layout) (values : List Int) : Except Error Layout :=
  match values.mapM Bits.byte? with
  | some data => .ok (l.push (.bytes data))
  | none => .error .notByte

/-- Places a list of words. -/
def words (l : Layout) (values : List Int) : Except Error Layout :=
  match values.mapM wordBytes? with
  | some data => .ok (l.push (.bytes data.flatten))
  | none => .error .notWord

/-- Gives the label the address of the next byte. -/
def label (l : Layout) (name : String) : Except Error Layout :=
  match l.labels.lookup name with
  | some _ => .error (.duplicateLabel name)
  | none => .ok { l with labels := (name, l.address) :: l.labels }

/-- Lays out a statement. -/
def add (l : Layout) : Statement → Except Error Layout
  | .label name => l.label name
  | .instr i => l.instr i
  | .ref op name => .ok (l.push (.ref op name))
  | .bytes values => l.bytes values
  | .words values => l.words values
  | .unknown line => .error (.unknownCommand line)

/-- The address of a label. -/
def resolve (l : Layout) (name : String) : Except Error Int :=
  match l.labels.lookup name with
  | some addr => .ok addr
  | none => .error (.undefinedLabel name)

/-- The bytes of a piece. -/
def pieceBytes (l : Layout) : Piece → Except Error (List UInt8)
  | .bytes data => .ok data
  -- The address is cut to twelve bits, as in every instruction on an address.
  | .ref op name => do return wordBytes (op.word (← l.resolve name))

/-- The bytes of all pieces, or the error of the first reference to a label that is not defined. -/
def link (l : Layout) : Except Error (List UInt8) := do
  return (← l.pieces.toList.mapM l.pieceBytes).flatten

end Layout

/-- Lays out statements in order, up to the first that fails. -/
def layOut (found : List Statement) : Except Error Layout :=
  found.foldlM Layout.add {}

end Chip8.Assembly
