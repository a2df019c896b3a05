import Chip8.Bits

/-!
# Timers

A timer holds a byte that each tick lowers by one until it is zero.
-/

namespace Chip8

/-- A countdown timer. -/
structure Timer where
  /-- The number of ticks that are left. -/
  value : UInt8 := 0
deriving DecidableEq, Repr

namespace Timer

/-- Sets the timer to the low byte of a number. -/
def set (_ : Timer) (n : Int) : Timer := ⟨Bits.lowByte n⟩

/-- Counts one tick. -/
def tick (t : Timer) : Timer :=
  if t.value = 0 then t else ⟨t.value - 1⟩

/-- Counts a number of ticks. -/
def ticks (n : Nat) (t : Timer) : Timer := n.repeat tick t

theorem toNat_tick (t : Timer) : t.tick.value.toNat = t.value.toNat - 1 := by
  unfold tick
  split
  · next h => simp [h]
  · next h =>
    have : t.value.toNat ≠ 0 := fun h0 => h (UInt8.toNat_inj.1 h0)
    have := t.value.toNat_lt
    simp only [UInt8.toNat_sub, UInt8.toNat_one]
    omega

theorem toNat_ticks (n : Nat) (t : Timer) : (ticks n t).value.toNat = t.value.toNat - n := by
  induction n with
  | zero => rfl
  | succ n ih =>
    rw [ticks, Nat.repeat, toNat_tick]
    rw [ticks] at ih
    omega

end Timer

end Chip8
