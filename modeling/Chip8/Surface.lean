import Chip8.Display
import Chip8.Keypad
import Chip8.Notice

/-!
# The surface

A surface joins a display and a keypad.  Key presses and the closing of the surface raise a signal,
on which a program that waits for a key sleeps.  `Surface.perform` carries out one request of
whoever is at the surface.
-/

namespace Chip8

/-- A surface, with the signal on which a program sleeps. -/
structure Surface where
  display : Display := {}
  keypad : Keypad := {}
  signal : Bool := false
  isOpen : Bool := true
deriving DecidableEq, Repr

namespace Surface

/-- Presses the key of a number and raises the signal. -/
def press (s : Surface) (code : Int) : Except Fault Surface :=
  match key? code with
  | some key => .ok { s with keypad := s.keypad.press key, signal := true }
  | none => .error (.noSuchKey code)

/-- Releases the key of a number, if it is held. -/
def release (s : Surface) (code : Int) : Surface :=
  match key? code with
  | some key => { s with keypad := s.keypad.release key }
  | none => s

/-- Whether the key of a number is held. -/
def keyHeld (s : Surface) (code : Int) : Bool :=
  match key? code with
  | some key => s.keypad.held.contains key
  | none => false

/-- Looks for a key that is pressed or held. -/
def poll (s : Surface) : Option Key × Surface :=
  let (key, keypad) := s.keypad.poll
  (key, { s with keypad })

/-- Forgets the latest press. -/
def clearPress (s : Surface) : Surface :=
  { s with keypad := s.keypad.clearLatch }

/-- Raises the signal. -/
def raise (s : Surface) : Surface :=
  { s with signal := true }

/-- Says whether the signal is raised, and lowers it. -/
def wait (s : Surface) : Bool × Surface :=
  (s.signal, { s with signal := false })

/-- Closes the surface and raises the signal. -/
def close (s : Surface) : Surface :=
  { s with isOpen := false, signal := true }

/-- Makes the display dark and publishes that. -/
def blank (s : Surface) : Surface :=
  { s with display := s.display.clear.publish }

/-! ## Requests -/

/-- What can be asked of a surface.  Keys go by their numbers. -/
inductive Request where
  | draw (x y : Int) (sprite : List UInt8)
  | pixel (x y : Int)
  /-- The number of a pixel. -/
  | index (x y : Int)
  | clear
  | publish
  | take
  /-- The picture as text. -/
  | render
  /-- The published picture, which is taken, or else the present one, as text. -/
  | renderFrame
  | press (code : Int)
  | release (code : Int)
  | keyHeld (code : Int)
  | poll
  | clearPress
  | raise
  /-- Look at the signal and lower it. -/
  | wait
  | isOpen
  | close
deriving DecidableEq, Repr

/-- What a request answers: nothing, yes or no, a number, the number of a key or a picture if there is
one, or rows of text. -/
inductive Reply where
  | done
  | truth (b : Bool)
  | number (n : Nat)
  | key (code : Option Int)
  | picture (f : Option Frame)
  | rows (l : List String)
deriving DecidableEq, Repr

/-- Carries out a request.  One that is refused changes nothing. -/
def perform (s : Surface) : Request → Except Fault (Reply × Surface)
  | .draw x y sprite => do
    let (display, collision) ← s.display.draw x y sprite
    return (.truth collision, { s with display })
  | .pixel x y => do return (.truth (← s.display.lit? x y), s)
  | .index x y => do return (.number (← s.display.index? x y), s)
  | .clear => .ok (.done, { s with display := s.display.clear })
  | .publish => .ok (.done, { s with display := s.display.publish })
  | .take =>
    let (frame, display) := s.display.take
    .ok (.picture frame, { s with display })
  | .render => .ok (.rows (s.display.rows s.display.pixels), s)
  | .renderFrame =>
    let (frame, display) := s.display.take
    .ok (.rows (s.display.rows (frame.getD s.display.pixels)), { s with display })
  | .press code => do return (.done, ← s.press code)
  | .release code => .ok (.done, s.release code)
  | .keyHeld code => .ok (.truth (s.keyHeld code), s)
  | .poll =>
    let (key, next) := s.poll
    .ok (.key (key.map fun k => (k.val : Int)), next)
  | .clearPress => .ok (.done, s.clearPress)
  | .raise => .ok (.done, s.raise)
  | .wait =>
    let (raised, next) := s.wait
    .ok (.truth raised, next)
  | .isOpen => .ok (.truth s.isOpen, s)
  | .close => .ok (.done, s.close)

/-- What is reported when a request is carried out. -/
def Request.notices : Request → List Notice
  | .close => [⟨.debug, "Headless surface closed"⟩]
  | _ => []

end Surface

end Chip8
