import Chip8.Fault

/-!
# The display

A display is a grid of pixels that are lit or dark, on a torus: what leaves it on one side enters on
the other.  Drawing a sprite toggles pixels.  A finished picture is published in a single slot, from
which a viewer takes it; a picture that was not taken is replaced by the next.
-/

namespace Chip8

/-- A picture: the pixels row by row, `true` where they are lit. -/
abbrev Frame := Array Bool

/-- A display. -/
structure Display where
  /-- The number of pixels of a row. -/
  width : Nat := screenWidth
  /-- The number of rows. -/
  height : Nat := screenHeight
  /-- The pixels row by row. -/
  pixels : Frame := Array.replicate (width * height) false
  /-- The published picture, if it was not taken yet. -/
  pending : Option Frame := none
deriving DecidableEq, Repr

namespace Display

/-- A dark display of a size that may be negative.  It is refused if it would have less than no
pixels.  Two negative sizes are left out: no display here has them, and the empty one that is given
for them says nothing about such a grid. -/
def ofSize? (width height : Int) : Except Fault Display :=
  if width * height < 0 then .error .negativeSize
  else .ok { width := width.toNat, height := height.toNat }

/-- The number of the pixel at a position, which wraps around at the edges. -/
def index (d : Display) (x y : Int) : Nat :=
  (y % d.height).toNat * d.width + (x % d.width).toNat

theorem index_lt {d : Display} (hw : 0 < d.width) (hh : 0 < d.height) (x y : Int) :
    d.index x y < d.width * d.height := by
  have hx := Int.emod_lt_of_pos x (Int.natCast_pos.2 hw)
  have hy := Int.emod_lt_of_pos y (Int.natCast_pos.2 hh)
  have hRow := Nat.mul_le_mul_right d.width (show (y % d.height).toNat + 1 ≤ d.height by omega)
  rw [Nat.add_mul, Nat.mul_comm d.height] at hRow
  unfold index
  omega

/-- Refuses a display without pixels, on which positions mean nothing. -/
def check (d : Display) : Except Fault Unit :=
  if d.width = 0 ∨ d.height = 0 then .error .noPixels else .ok ()

/-- The number of the pixel at a position, if there are pixels. -/
def index? (d : Display) (x y : Int) : Except Fault Nat := do
  d.check
  return d.index x y

/-- Whether the pixel at a position is lit. -/
def lit (d : Display) (x y : Int) : Bool :=
  d.pixels.getD (d.index x y) false

/-- Whether the pixel at a position is lit, if there are pixels. -/
def lit? (d : Display) (x y : Int) : Except Fault Bool := do
  d.check
  return d.lit x y

/-- Makes all pixels dark. -/
def clear (d : Display) : Display :=
  { d with pixels := Array.replicate d.pixels.size false }

/-! ## Sprites -/

/-- The number of pixels of a row of a sprite. -/
def spriteWidth : Nat := 8

/-- The columns of the set bits of a row of a sprite, the most significant bit being column 0. -/
def columns (row : UInt8) : List Nat :=
  (List.range spriteWidth).filter fun c => row.toNat.testBit (spriteWidth - 1 - c)

/-- The positions of the set bits of a sprite whose first row begins at a position, row by row. -/
def spots (x : Int) : Int → List UInt8 → List (Int × Int)
  | _, [] => []
  | y, row :: rows => (columns row).map (fun (c : Nat) => (x + c, y)) ++ spots x (y + 1) rows

/-- Toggles the pixel at a position, and notes in `collision` whether it was lit. -/
def toggle (state : Display × Bool) (spot : Int × Int) : Display × Bool :=
  let (d, collision) := state
  let i := d.index spot.1 spot.2
  ({ d with pixels := d.pixels.modify i not }, collision || d.pixels.getD i false)

@[simp] theorem size_toggle (state : Display × Bool) (spot : Int × Int) :
    (toggle state spot).1.pixels.size = state.1.pixels.size := by
  simp [toggle]

/-- Draws a sprite, and says whether a lit pixel became dark on the way.  On a display without
pixels only a sprite without set bits can be drawn. -/
def draw (d : Display) (x y : Int) (sprite : List UInt8) : Except Fault (Display × Bool) := do
  let found := spots x y sprite
  -- Rows without set bits never ask for a position.
  unless found.isEmpty do d.check
  return found.foldl toggle (d, false)

/-! ## Pictures -/

/-- Publishes the present picture. -/
def publish (d : Display) : Display :=
  { d with pending := some d.pixels }

/-- Takes the published picture. -/
def take (d : Display) : Option Frame × Display :=
  (d.pending, { d with pending := none })

/-- The row of a picture as text, with `#` for a lit pixel. -/
def rowText (d : Display) (frame : Frame) (y : Nat) : String :=
  String.ofList ((List.range d.width).map fun x =>
    if frame.getD (y * d.width + x) false then '#' else '.')

/-- The rows of a picture as text. -/
def rows (d : Display) (frame : Frame) : List String :=
  (List.range d.height).map (d.rowText frame)

end Display

end Chip8
