import Chip8.Machine.Execute

/-!
# Runs

A cycle fetches the instruction at the program counter and carries it out.  A run goes through
cycles until its limit is reached, the surface is closed, the program counter leaves memory, or a
cycle fails.  All cycles of a run are on the same footing, so a run of `m + n` cycles is a run of `m`
and then one of `n`.
-/

namespace Chip8.Machine

/-- Carries out the instruction at the program counter. -/
def cycle (m : Machine) : Result := do
  let instr ← m.attempt (m.memory.instrAt m.pc)
  let m ← m.execute instr
  return { m with cycles := m.cycles + 1 }

/-- Whether there is an opcode at the program counter. -/
def CanFetch (m : Machine) : Prop := m.memory.Covers m.pc opcodeSize

instance (m : Machine) : Decidable m.CanFetch :=
  inferInstanceAs (Decidable (m.memory.Covers _ _))

/-- Whether a run would go on to another cycle. -/
def CanGoOn (m : Machine) : Prop := m.surface.isOpen = true ∧ m.CanFetch

instance (m : Machine) : Decidable m.CanGoOn :=
  inferInstanceAs (Decidable (_ ∧ _))

/-- Goes through at most `limit` cycles. -/
def runCycles : Nat → Machine → Result
  | 0, m => .ok m
  | limit + 1, m =>
    if m.CanGoOn then
      match m.cycle with
      | .ok next => runCycles limit next
      | .error failure => .error failure
    else .ok m

/-- Runs the machine for at most `limit` cycles.  However the run ends, the machine is halted. -/
def run (limit : Nat) (m : Machine) : Result :=
  match runCycles limit { m with mode := .running } with
  | .ok last => .ok { last with mode := .halted }
  | .error (f, left) => .error (f, { left with mode := .halted })

/-- A limit for runs that are to have none: more cycles than anybody waits for. -/
def endless : Nat := Nat.pow 2 62

end Chip8.Machine
