import Chip8.Keymap

/-!
# The window

A window shows the pictures that are published on a surface and passes keys on to it.  It works in
turns: it asks for what happened, passes that on, and paints the newest picture.  The turn in which
the window is told to close is carried to its end, and no other follows.

The window draws through a toolkit.  What it asks of the toolkit is a list of calls, in order; the
toolkit gives it the inputs in batches, and says when it cannot be used.  Others use the surface
meanwhile.
-/

namespace Chip8.Window

/-- How a window looks: the length of the side of a pixel of the display, the number of turns in a
second, and the title. -/
structure Config where
  scale : Int := 10
  rate : Int := 60
  title : String := "CHIP-8 - ESC to exit"
deriving DecidableEq, Repr

/-- Where the toolkit fails, if it does: there is none, it cannot be started, or it cannot open a
window. -/
inductive Failure where
  | absent
  | start
  | mode
deriving DecidableEq, Repr

/-- Something that is done to the window: it is told to close, a key goes down or up, or it is of no
interest. -/
inductive Input where
  | quit
  | down (name : String)
  | up (name : String)
  | other
deriving DecidableEq, Repr

/-- What happens in a turn. -/
structure Batch where
  /-- What others ask of the surface up to the end of the turn's question. -/
  requests : List Surface.Request := []
  /-- What is done to the window. -/
  inputs : List Input := []
  /-- What others ask once the picture is shown. -/
  late : List Surface.Request := []
deriving DecidableEq, Repr

/-- A color by its red, green and blue parts. -/
structure Color where
  red : Nat
  green : Nat
  blue : Nat
deriving DecidableEq, Repr

/-- The color of a lit pixel. -/
def litColor : Color := ⟨255, 255, 255⟩

/-- The color of a dark pixel. -/
def darkColor : Color := ⟨0, 0, 0⟩

/-- What happens at a window, in order. -/
inductive Call where
  | start
  | caption (title : String)
  | mode (width height : Int)
  /-- Somebody is answered who asked something of the surface. -/
  | answer (reply : Except Fault Surface.Reply)
  | fill (color : Color)
  | rect (color : Color) (x y width height : Int)
  /-- The painted picture is shown, over a surface in this state. -/
  | flip (surface : Surface)
  /-- The turn lasts as long as a turn of this rate. -/
  | tick (rate : Int)
  | leave

/-- The name of the key that closes the window. -/
def escapeKey : String := "escape"

/-- Passes an input on to the surface. -/
def handle (s : Surface) : Input → Surface
  | .quit => { s with isOpen := false }
  | .down name => if name = escapeKey then { s with isOpen := false } else s.onKey name true
  | .up name => s.onKey name false
  | .other => s

/-- Answers those who ask something of the surface. -/
def answerAll (s : Surface) : List Surface.Request → List Call × Surface
  | [] => ([], s)
  | request :: later =>
    match s.perform request with
    | .ok (reply, next) =>
      let (calls, last) := answerAll next later
      (.answer (.ok reply) :: calls, last)
    | .error f =>
      let (calls, last) := answerAll s later
      (.answer (.error f) :: calls, last)

/-- The place of the rectangle for the pixel of a number. -/
def rectAt (scale : Int) (n : Nat) : Call :=
  .rect litColor ((n % screenWidth : Nat) * scale) ((n / screenWidth : Nat) * scale) scale scale

/-- Paints a picture: the background, then a rectangle for each lit pixel. -/
def paint (scale : Int) (frame : Frame) : List Call :=
  .fill darkColor :: (frame.toList.zipIdx.filter (·.1)).map fun p => rectAt scale p.2

/-- A picture without lit pixels. -/
def darkFrame : Frame := Array.replicate (screenWidth * screenHeight) false

/-- One turn: what happens in it, and the surface and the picture that is shown after it. -/
def turn (config : Config) (s : Surface) (shown : Frame) (b : Batch) :
    List Call × Surface × Frame :=
  let (answers, s) := answerAll s b.requests
  let s := b.inputs.foldl handle s
  let (latest, display) := s.display.take
  let s := { s with display }
  let shown := latest.getD shown
  let (lateAnswers, last) := answerAll s b.late
  (answers ++ paint config.scale shown ++ [.flip s, .tick config.rate] ++ lateAnswers, last, shown)

/-- Turns until the window is told to close, which it is once nothing is left to happen. -/
def turns (config : Config) (s : Surface) (shown : Frame) : List Batch → List Call × Surface
  | [] =>
    if s.isOpen then
      let (calls, s, _) := turn config s shown { inputs := [.quit] }
      (calls, s)
    else ([], s)
  | b :: later =>
    if s.isOpen then
      let (calls, s, shown) := turn config s shown b
      let (others, last) := turns config s shown later
      (calls ++ others, last)
    else ([], s)

/-- The surface of a window that was not opened yet. -/
def unopened : Surface := { isOpen := false }

/-- The calls that open the window. -/
def opening (config : Config) : List Call :=
  [.start, .caption config.title, .mode (screenWidth * config.scale) (screenHeight * config.scale)]

/-- What is called until the window is open or the toolkit fails. -/
def opened (config : Config) : Option Failure → List Call
  | some .absent => []
  | some .start => []
  | some .mode => opening config
  | none => opening config

/-- What has become of a window. -/
structure Outcome where
  calls : List Call
  surface : Surface
  /-- Whether the one who opened the window was told that it is open or will not be. -/
  started : Bool := false

/-- What is done however a window ends: its surface is closed and the signal raised, and a toolkit
that there is is left. -/
def Outcome.finish (o : Outcome) (hasToolkit : Bool) : Outcome where
  calls := o.calls ++ if hasToolkit then [.leave] else []
  surface := o.surface.close
  started := true

/-- All that happens at a window, from its opening on.  Others ask something before the window first
looks whether it is to close. -/
def run (config : Config) (failure : Option Failure) (early : List Surface.Request)
    (batches : List Batch) : Outcome :=
  let (answers, s) := answerAll { unopened with isOpen := true } early
  let calls := opened config failure ++ answers
  match failure with
  | some f => Outcome.finish { calls, surface := s } (f != .absent)
  | none =>
    let (others, last) := turns config s darkFrame batches
    Outcome.finish { calls := calls ++ others, surface := last, started := true } true

/-- What happens at a window that nobody uses before its first turn, and its surface at the end. -/
def session (config : Config) (failure : Option Failure) (batches : List Batch) :
    List Call × Surface :=
  let o := run config failure [] batches
  (o.calls, o.surface)

end Chip8.Window
