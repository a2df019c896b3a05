import Chip8.Fault

/-!
# The keypad

The keypad knows which keys are held, in the order in which they were pressed, and the latest press
that nobody has taken yet.  A press is kept in this latch even if the key is released before anybody
looks, so no short press is lost.
-/

namespace Chip8

/-- A key. -/
abbrev Key := Fin keyCount

/-- The key of a number, if there is one. -/
def key? (code : Int) : Option Key :=
  if h : 0 ≤ code ∧ code < keyCount then some ⟨code.toNat, by omega⟩ else none

/-- A keypad. -/
structure Keypad where
  /-- The keys that are held, the longest held first. -/
  held : List Key := []
  /-- The latest press that was not taken. -/
  latch : Option Key := none
deriving DecidableEq, Repr

namespace Keypad

/-- Presses a key.  A key that is held already keeps its place. -/
def press (k : Keypad) (key : Key) : Keypad where
  held := if key ∈ k.held then k.held else k.held ++ [key]
  latch := some key

/-- Releases a key, if it is held. -/
def release (k : Keypad) (key : Key) : Keypad :=
  { k with held := k.held.erase key }

/-- The key that was pressed last and not taken yet, which is taken, or else the longest held. -/
def poll (k : Keypad) : Option Key × Keypad :=
  match k.latch with
  | some key => (some key, { k with latch := none })
  | none => (k.held.head?, k)

/-- Forgets the latest press. -/
def clearLatch (k : Keypad) : Keypad :=
  { k with latch := none }

end Keypad

end Chip8
