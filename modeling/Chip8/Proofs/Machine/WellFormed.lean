import Chip8.Proofs.Machine.Ending

/-!
# Well-formed machines

`Machine.WellFormed` collects the bounds that hold of a machine at every moment of its life: how many
registers, bytes, pixels and saved addresses there are, and between which bounds every number lies.

Two of the bounds are the invariant proper.  A saved return address lies at most at `0xFFD`, because
a call saves its own address, from which two bytes were fetched.  The program counter lies at most at
`0x10FE`, because no step goes beyond a twelve bit address by more than the byte that `JP V0` adds.
That a register, the index register, a timer, a byte of memory or a key has no other values than it
should is a matter of the types of these parts; the structure says it all the same.
-/

namespace Chip8

namespace Machine

/-- The bounds of all parts of a machine with the usual memory, stack and surface: sixteen registers,
4095 bytes, 2048 pixels and at most sixteen saved addresses, with the numbers that they hold. -/
structure WellFormed (m : Machine) : Prop where
  registers_length : m.v.toList.length = 16 := Vector.length_toList
  register_le : ∀ value ∈ m.v.toList, value.toNat ≤ 0xFF :=
    fun value _ => Nat.le_of_lt_succ value.toNat_lt
  index_le : m.i.toNat ≤ 0xFFFF := Nat.le_of_lt_succ m.i.toNat_lt
  delay_le : m.delay.value.toNat ≤ 0xFF := Nat.le_of_lt_succ m.delay.value.toNat_lt
  sound_le : m.sound.value.toNat ≤ 0xFF := Nat.le_of_lt_succ m.sound.value.toNat_lt
  /-- The stack pointer counts the saved addresses. -/
  sp_eq : m.sp = m.stack.frames.length
  depth_eq : m.stack.depth = 16
  sp_le : m.sp ≤ 16
  /-- A saved address is one from which an opcode was fetched. -/
  frame_bounds : ∀ addr ∈ m.stack.frames, 0 ≤ addr ∧ addr ≤ 0xFFD
  /-- The program counter is no further away than `JP V0` can jump. -/
  pc_bounds : 0 ≤ m.pc ∧ m.pc ≤ 0x10FE
  memory_size : m.memory.bytes.size = 0xFFF
  memory_le : ∀ value ∈ m.memory.bytes, value.toNat ≤ 0xFF :=
    fun value _ => Nat.le_of_lt_succ value.toNat_lt
  width_eq : m.surface.display.width = 64
  height_eq : m.surface.display.height = 32
  pixels_size : m.surface.display.pixels.size = 2048
  held_nodup : m.surface.keypad.held.Nodup
  held_lt : ∀ key ∈ m.surface.keypad.held, key.val < 16 := fun key _ => key.isLt
  latch_lt : ∀ key ∈ m.surface.keypad.latch, key.val < 16 := fun key _ => key.isLt
  /-- No number stands in for the keys of the surface. -/
  stray_eq : m.stray = none

namespace WellFormed

variable {m n : Machine}

/-- A machine from which an opcode can be fetched is at most at the last address for one. -/
theorem pc_le_of_canFetch (h : m.WellFormed) (hFetch : m.CanFetch) : m.pc ≤ 0xFFD := by
  have hSize := h.memory_size
  obtain ⟨-, hHigh⟩ := hFetch
  unfold Memory.size opcodeSize at hHigh
  omega

/-- The bounds hold of every machine of the same shape. -/
theorem of_keepsShape (h : m.WellFormed) (hShape : m.KeepsShape n) : n.WellFormed where
  sp_eq := by rw [hShape.sp_eq, hShape.stack_eq, h.sp_eq]
  depth_eq := by rw [hShape.stack_eq, h.depth_eq]
  sp_le := by rw [hShape.sp_eq]; exact h.sp_le
  frame_bounds := by rw [hShape.stack_eq]; exact h.frame_bounds
  pc_bounds := by rw [hShape.pc_eq]; exact h.pc_bounds
  memory_size := hShape.size_memory.trans h.memory_size
  width_eq := hShape.surface.width_eq.trans h.width_eq
  height_eq := hShape.surface.height_eq.trans h.height_eq
  pixels_size := hShape.surface.size_pixels.trans h.pixels_size
  held_nodup := hShape.surface.nodup_held h.held_nodup
  stray_eq := hShape.stray_eq.trans h.stray_eq

/-- The program counter may move anywhere between its bounds. -/
theorem withPc (h : m.WellFormed) {pc : Int} (hLow : 0 ≤ pc) (hHigh : pc ≤ 0x10FE) :
    ({ m with pc } : Machine).WellFormed :=
  { h with pc_bounds := ⟨hLow, hHigh⟩ }

/-- So may the saved addresses, and the stack pointer with them. -/
theorem withFrames (h : m.WellFormed) {pc : Int} {frames : List Int} (hLow : 0 ≤ pc)
    (hHigh : pc ≤ 0x10FE) (hSize : frames.length ≤ 16)
    (hFrames : ∀ addr ∈ frames, 0 ≤ addr ∧ addr ≤ 0xFFD) :
    ({ m with pc, stack := { m.stack with frames }, sp := frames.length } : Machine).WellFormed :=
  { h with
    sp_eq := rfl
    sp_le := hSize
    frame_bounds := hFrames
    pc_bounds := ⟨hLow, hHigh⟩ }

/-! ## One instruction -/

/-- A call finds room below the depth, and the address that it saves is that of its own opcode. -/
theorem call (h : m.WellFormed) (hFetch : m.CanFetch) {addr : Int} {stack : CallStack}
    (hLow : 0 ≤ addr) (hHigh : addr ≤ 0xFFF) (hPush : m.stack.push m.pc = .ok stack) :
    ({ m with pc := addr, stack, sp := stack.size } : Machine).WellFormed := by
  have hPc := h.pc_le_of_canFetch hFetch
  have hDepth := h.depth_eq
  unfold CallStack.push CallStack.size at hPush
  split at hPush
  · cases hPush
  · next hRoom =>
      cases hPush
      refine h.withFrames hLow (by omega) ?_ ?_
      · -- `push` refuses a full stack, so there was room for one more.
        rw [List.length_cons]
        omega
      · intro saved hSaved
        rcases List.mem_cons.1 hSaved with rfl | hOlder
        · exact ⟨h.pc_bounds.1, hPc⟩
        · exact h.frame_bounds saved hOlder

/-- A return takes an address from the stack, and what comes after it lies within the bounds. -/
theorem ret (h : m.WellFormed) {addr : Int} {stack : CallStack}
    (hPop : m.stack.pop = .ok (addr, stack)) :
    ({ m with pc := addr + opcodeSize, stack, sp := stack.size } : Machine).WellFormed := by
  have hFrames := h.frame_bounds
  have hSize := h.sp_le
  rw [h.sp_eq] at hSize
  unfold CallStack.pop at hPop
  split at hPop
  · cases hPop
  · next latest older hStack =>
      cases hPop
      rw [hStack] at hFrames hSize
      -- A saved address is at most `0xFFD`, and two more are far below what `JP V0` may reach.
      obtain ⟨hLow, hHigh⟩ := hFrames addr List.mem_cons_self
      have hTwo : (opcodeSize : Int) = 2 := rfl
      refine h.withFrames (by omega) (by omega) ?_ ?_
      · rw [List.length_cons] at hSize
        exact Nat.le_of_succ_le hSize
      · intro saved hSaved
        exact hFrames saved (List.mem_cons_of_mem _ hSaved)

/-- An instruction that succeeds keeps the bounds, wherever it leads. -/
theorem follows (h : m.WellFormed) (hFetch : m.CanFetch) (hFollows : m.Follows n) :
    n.WellFormed := by
  have hPc := h.pc_le_of_canFetch hFetch
  have hLow := h.pc_bounds.1
  have hTwo : (opcodeSize : Int) = 2 := rfl
  cases hFollows with
  | next hShape =>
      have hNext := h.of_keepsShape hShape
      have hSame := hShape.pc_eq
      exact hNext.withPc (by omega) (by omega)
  | skip =>
      -- Two instructions further on than an address from which one could be fetched.
      have hOnce : m.advance.pc = m.pc + opcodeSize := rfl
      exact h.withPc (by omega) (by omega)
  | jump hAddrLow hAddrHigh => exact h.withPc hAddrLow hAddrHigh
  | call hAddrLow hAddrHigh hPush => exact h.call hFetch hAddrLow hAddrHigh hPush
  | ret hPop => exact h.ret hPop

end WellFormed

/-! ## Cycles and runs -/

/-- The machine after an action: the one that it leads to, or the one that a refusal leaves
behind. -/
def after : Result → Machine
  | .ok next => next
  | .error (_, left) => left

namespace WellFormed

variable {m n : Machine}

/-- A cycle keeps the bounds, whether or not it is refused. -/
theorem cycle (h : m.WellFormed) : (after m.cycle).WellFormed := by
  have hEnds := cycle_ends h.stray_eq
  rcases hCycle : m.cycle with ⟨f, left⟩ | next
  · rw [hCycle] at hEnds
    exact h.of_keepsShape hEnds.keepsShape_of_error
  · rw [hCycle] at hEnds
    obtain ⟨hFetch, reached, hFollows, hNext⟩ := hEnds
    have hReached := h.follows hFetch hFollows
    show next.WellFormed
    rw [hNext]
    exact { hReached with }

/-- The cycles of a run keep the bounds up to the cycle that is refused, and that one does too. -/
theorem runCycles (limit : Nat) (h : m.WellFormed) :
    (after (Machine.runCycles limit m)).WellFormed := by
  induction limit generalizing m with
  | zero => exact h
  | succ limit ih =>
      have hCycle := h.cycle
      unfold Machine.runCycles
      -- A run stops by itself where no opcode can be fetched or the surface is closed.
      by_cases hGoOn : m.CanGoOn
      · rw [if_pos hGoOn]
        cases hResult : m.cycle with
        | ok next =>
            rw [hResult] at hCycle
            exact ih hCycle
        | error failure =>
            rw [hResult] at hCycle
            exact hCycle
      · rw [if_neg hGoOn]
        exact h

theorem withMode (h : m.WellFormed) (mode : Mode) : ({ m with mode } : Machine).WellFormed :=
  { h with }

theorem run (limit : Nat) (h : m.WellFormed) : (after (m.run limit)).WellFormed := by
  have hCycles := (h.withMode .running).runCycles limit
  unfold Machine.run
  cases hResult : Machine.runCycles limit { m with mode := .running } with
  | ok last =>
      rw [hResult] at hCycles
      exact hCycles.withMode .halted
  | error failure =>
      rw [hResult] at hCycles
      exact hCycles.withMode .halted

end WellFormed

end Machine

end Chip8
