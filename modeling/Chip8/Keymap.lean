import Chip8.Surface

/-!
# The keyboard

The hexadecimal keypad lies on the left of the keyboard:

    1 2 3 C        1 2 3 4
    4 5 6 D   ->   Q W E R
    7 8 9 E        A S D F
    A 0 B F        Z X C V
-/

namespace Chip8

/-- The names of the keyboard's keys that stand for keys of the keypad. -/
def keymap : List (String × Key) := [
  ("1", 0x1), ("2", 0x2), ("3", 0x3), ("4", 0xC),
  ("q", 0x4), ("w", 0x5), ("e", 0x6), ("r", 0xD),
  ("a", 0x7), ("s", 0x8), ("d", 0x9), ("f", 0xE),
  ("z", 0xA), ("x", 0x0), ("c", 0xB), ("v", 0xF)]

/-- A key of the keyboard goes down or up.  A key that stands for none of the keypad does nothing. -/
def Surface.onKey (s : Surface) (name : String) (down : Bool) : Surface :=
  match keymap.lookup name with
  | none => s
  | some key =>
    if down then { s with keypad := s.keypad.press key, signal := true }
    else { s with keypad := s.keypad.release key }

end Chip8
