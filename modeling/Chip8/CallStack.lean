import Chip8.Fault

/-!
# The call stack

Return addresses are saved up to a fixed depth and taken back in reverse order.
-/

namespace Chip8

/-- A stack of return addresses. -/
structure CallStack where
  /-- The most addresses that can be saved. -/
  depth : Int := stackDepth
  /-- The saved addresses, latest first. -/
  frames : List Int := []
deriving DecidableEq, Repr

namespace CallStack

/-- The number of saved addresses. -/
def size (s : CallStack) : Nat := s.frames.length

/-- Saves an address. -/
def push (s : CallStack) (addr : Int) : Except Fault CallStack :=
  if s.depth ≤ s.size then .error (.stackFull addr)
  else .ok { s with frames := addr :: s.frames }

/-- Takes back the latest address. -/
def pop (s : CallStack) : Except Fault (Int × CallStack) :=
  match s.frames with
  | [] => .error .stackEmpty
  | addr :: older => .ok (addr, { s with frames := older })

end CallStack

end Chip8
