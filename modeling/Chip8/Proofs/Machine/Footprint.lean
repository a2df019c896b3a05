import Mathlib.Data.Set.Insert
import Chip8.Proofs.Machine.WellFormed

/-!
# What an instruction writes

A machine consists of parts: registers, bytes, timers and so on.  `Instr.footprint` lists the parts
that an instruction may write, and `perform_agreesOff` says that it leaves all others as they are, be
it carried out or refused.  No instruction has `Part.setting` in its footprint: the mode, the number of
cycles, the random bytes to come and the size of memory are not for a program to change.
-/

namespace Chip8

/-! ## The parts of a machine -/

/-- A part of a machine. -/
inductive Part where
  | register (k : Fin registerCount)
  | index
  | counter
  /-- The saved addresses and the stack pointer. -/
  | calls
  | byte (a : Nat)
  | delay
  | sound
  /-- The pixels and the published picture. -/
  | picture
  /-- The keys, whether the surface is open, and what will happen at it during key waits. -/
  | keys
  /-- How many of the random bytes were drawn. -/
  | drawn
  /-- All that no instruction writes. -/
  | setting

namespace Part

/-- The part is the same in both machines. -/
def Same (m n : Machine) : Part → Prop
  | register k => n.v.get k = m.v.get k
  | index => n.i = m.i
  | counter => n.pc = m.pc
  | calls => (n.stack, n.sp) = (m.stack, m.sp)
  | byte a => n.memory.byteAt a = m.memory.byteAt a
  | delay => n.delay = m.delay
  | sound => n.sound = m.sound
  | picture => n.surface.display = m.surface.display
  | keys =>
    (n.surface.keypad, n.surface.signal, n.surface.isOpen, n.script) =
      (m.surface.keypad, m.surface.signal, m.surface.isOpen, m.script)
  | drawn => n.drawn = m.drawn
  | setting =>
    (n.mode, n.cycles, n.random, n.stray, n.memory.size) =
      (m.mode, m.cycles, m.random, m.stray, m.memory.size)

theorem Same.refl (m : Machine) (p : Part) : p.Same m m := by
  cases p <;> rfl

theorem Same.trans {m n o : Machine} {p : Part} (h : p.Same m n) (h' : p.Same n o) :
    p.Same m o := by
  cases p <;> exact Eq.trans h' h

/-- The part that a register is. -/
def ofReg (x : Reg) : Set Part := {p | ∃ k, p = .register k ∧ x = Reg.ofSlot k}

/-- The registers up to one that is given. -/
def upTo (x : Reg) : Set Part := {p | ∃ k, p = .register k ∧ (k.val : Int) ≤ x.index}

/-- The flag register. -/
def flag : Set Part := {.register Machine.flagSlot}

/-- A stretch of memory. -/
def stretch (start : Nat) (length : Int) : Set Part :=
  {p | ∃ a : Nat, p = .byte a ∧ start ≤ a ∧ (a : Int) < start + length}

end Part

/-- The parts that the instruction may write.  The program counter is listed only where the
instruction itself sets it, not for the step to the next instruction. -/
def Instr.footprint (m : Machine) : Instr → Set Part
  | .bare .clear => {.picture}
  | .bare .ret => {.counter, .calls}
  | .address .sys _ => ∅
  | .address .jump _ => {.counter}
  | .address .call _ => {.counter, .calls}
  | .address .setIndex _ => {.index}
  | .address .jumpV0 _ => {.counter}
  | .binary .skipEq _ _ => {.counter}
  | .binary .skipNe _ _ => {.counter}
  | .binary .load x _ => Part.ofReg x
  | .binary .add x _ => Part.ofReg x ∪ Part.flag
  | .pair .or x _ => Part.ofReg x
  | .pair .and x _ => Part.ofReg x
  | .pair .xor x _ => Part.ofReg x
  | .pair .sub x _ => Part.ofReg x ∪ Part.flag
  | .pair .subn _ y => Part.ofReg y ∪ Part.flag
  | .single .shiftRight x => Part.ofReg x ∪ Part.flag
  | .single .shiftLeft x => Part.ofReg x ∪ Part.flag
  | .single .skipHeld _ => {.counter}
  | .single .skipFree _ => {.counter}
  | .single .getDelay x => Part.ofReg x
  | .single .awaitKey x => {.keys} ∪ Part.ofReg x
  | .single .setDelay _ => {.delay}
  | .single .setSound _ => {.sound}
  | .single .addIndex _ => {.index}
  | .single .glyph _ => {.index}
  | .single .decimal _ => Part.stretch m.i.toNat 3
  | .single .save x => Part.stretch m.i.toNat (x.index + 1)
  | .single .restore x => Part.upTo x
  | .random x _ => {.drawn} ∪ Part.ofReg x
  | .draw _ _ _ => {.picture} ∪ Part.flag

namespace Machine

/-! ## Machines that agree off some parts -/

/-- The machines are the same but for some of their parts. -/
def AgreesOff (W : Set Part) (m n : Machine) : Prop := ∀ p, p ∉ W → p.Same m n

variable {m n o : Machine} {W W' : Set Part} {k : Fin registerCount}

namespace AgreesOff

theorem refl (W : Set Part) (m : Machine) : AgreesOff W m m := fun p _ => .refl m p

theorem mono (h : AgreesOff W m n) (hSub : W ⊆ W') : AgreesOff W' m n :=
  fun p hp => h p fun hIn => hp (hSub hIn)

/-- After two changes the parts that either may have changed are left out. -/
theorem trans (h : AgreesOff W m n) (h' : AgreesOff W' n o) : AgreesOff (W ∪ W') m o := by
  intro p hp
  have hFirst : p ∉ W := fun hIn => hp (.inl hIn)
  have hSecond : p ∉ W' := fun hIn => hp (.inr hIn)
  exact (h p hFirst).trans (h' p hSecond)

end AgreesOff

theorem agreesOff_put (m : Machine) (k : Fin registerCount) (value : UInt8) :
    AgreesOff {.register k} m (m.put k value) := by
  intro p hp
  cases p with
  | register j =>
      apply get_put_of_ne value
      rintro rfl
      exact hp rfl
  | _ => rfl

theorem agreesOff_setFlag (m : Machine) (flag : Bool) :
    AgreesOff Part.flag m (m.setFlag flag) :=
  agreesOff_put m flagSlot _

theorem agreesOff_withPc (m : Machine) (pc : Int) : AgreesOff {.counter} m { m with pc } := by
  intro p hp
  cases p with
  | counter => exact absurd rfl hp
  | _ => rfl

theorem agreesOff_withCalls (m : Machine) (pc : Int) (stack : CallStack) (sp : Nat) :
    AgreesOff {.counter, .calls} m { m with pc, stack, sp } := by
  intro p hp
  cases p with
  | counter => exact absurd (.inl rfl) hp
  | calls => exact absurd (.inr rfl) hp
  | _ => rfl

theorem agreesOff_setIndex (m : Machine) (n : Int) : AgreesOff {.index} m (m.setIndex n) := by
  intro p hp
  cases p with
  | index => exact absurd rfl hp
  | _ => rfl

theorem agreesOff_withDisplay (m : Machine) (display : Display) :
    AgreesOff {.picture} m { m with surface := { m.surface with display } } := by
  intro p hp
  cases p with
  | picture => exact absurd rfl hp
  | _ => rfl

/-- A write changes the bytes of its stretch at most. -/
theorem agreesOff_withMemory {memory : Memory} {a : Nat} {data : List UInt8}
    (h : m.memory.write a data = .ok memory) :
    AgreesOff (Part.stretch a data.length) m { m with memory } := by
  obtain ⟨⟨-, hHigh⟩, rfl⟩ := Memory.write_eq_ok_iff.1 h
  intro p hp
  cases p with
  | byte b =>
      have hOutside : ¬(a ≤ b ∧ b < a + data.length) := by
        rintro ⟨hLow, hBelow⟩
        exact hp ⟨b, rfl, hLow, by omega⟩
      show (m.memory.replace a data).byteAt b = m.memory.byteAt b
      rw [Memory.byteAt_replace (by omega), if_neg hOutside]
  | setting => exact congrArg (m.mode, m.cycles, m.random, m.stray, ·) (Memory.size_of_write h)
  | _ => rfl

/-! ## Actions -/

/-- What is looked up before anything is changed leaves everything as it is. -/
theorem agreesOff_attempt {α : Type} {r : Except Fault α} {next : α → Result}
    (h : ∀ a, r = .ok a → AgreesOff W m (after (next a))) :
    AgreesOff W m (after (m.attempt r >>= next)) := by
  cases r with
  | ok a => exact h a rfl
  | error f => exact .refl W m

/-- After a success there may be another change, after a refusal there is none. -/
theorem agreesOff_bind_ok {r : Result} {next : Machine → Machine} (h : AgreesOff W m (after r))
    (hNext : ∀ n, AgreesOff W' n (next n)) :
    AgreesOff (W ∪ W') m (after (r >>= fun n => .ok (next n))) := by
  cases r with
  | ok n => exact AgreesOff.trans h (hNext n)
  | error failure => exact AgreesOff.mono h Set.subset_union_left

section

variable {x y : Reg}

/-- Setting a register changes no other part. -/
theorem agreesOff_set (m : Machine) (x : Reg) (n : Int) (hx : x.Exists) :
    AgreesOff (Part.ofReg x) m (after (m.set x n)) := by
  obtain ⟨k, rfl⟩ := hx.eq_ofSlot
  rw [set_ofSlot]
  refine (agreesOff_put m k _).mono ?_
  rintro p rfl
  exact ⟨k, rfl, rfl⟩

/-- Setting a register and then the flag changes both at most. -/
theorem agreesOff_set_setFlag (m : Machine) (n : Int) (flag : Bool) (hx : x.Exists) :
    AgreesOff (Part.ofReg x ∪ Part.flag) m
      (after (m.set x n >>= fun m => .ok (m.setFlag flag))) :=
  agreesOff_bind_ok (agreesOff_set m x n hx) fun n => agreesOff_setFlag n flag

theorem agreesOff_skipIf (m : Machine) (condition : Bool) :
    AgreesOff {.counter} m (m.skipIf condition) := by
  cases condition with
  | false => exact .refl _ m
  | true => exact agreesOff_withPc m _

theorem doAddress_agreesOff (op : AddressOp) (addr : Int) :
    AgreesOff ((Instr.address op addr).footprint m) m (after (m.doAddress addr op)) := by
  cases op with
  | sys => exact .refl _ m
  | jump => exact agreesOff_withPc m addr
  | call => exact agreesOff_attempt fun stack _ => agreesOff_withCalls m addr stack _
  | setIndex => exact agreesOff_setIndex m addr
  | jumpV0 => exact agreesOff_attempt fun offset _ => agreesOff_withPc m _

theorem doBare_agreesOff (op : BareOp) :
    AgreesOff ((Instr.bare op).footprint m) m (after (m.doBare op)) := by
  cases op with
  | clear => exact agreesOff_withDisplay m _
  | ret => exact agreesOff_attempt fun popped _ => agreesOff_withCalls m _ _ _

theorem doBinary_agreesOff (op : BinaryOp) (hx : x.Exists) (y : Operand) :
    AgreesOff ((Instr.binary op x y).footprint m) m (after (m.doBinary x y op)) := by
  cases op with
  | skipEq => exact agreesOff_attempt fun a _ => agreesOff_attempt fun b _ => agreesOff_skipIf m _
  | skipNe => exact agreesOff_attempt fun a _ => agreesOff_attempt fun b _ => agreesOff_skipIf m _
  | load => exact agreesOff_attempt fun b _ => agreesOff_set m x b hx
  | add =>
      exact agreesOff_attempt fun a _ => agreesOff_attempt fun b _ =>
        agreesOff_set_setFlag m _ _ hx

theorem doBitwise_agreesOff (hx : x.Exists) (y : Reg) (f : UInt8 → UInt8 → UInt8) :
    AgreesOff (Part.ofReg x) m (after (m.doBitwise x y f)) :=
  agreesOff_attempt fun _ _ => agreesOff_attempt fun _ _ => agreesOff_set m x _ hx

theorem doSubtract_agreesOff (hx : x.Exists) (y : Reg) :
    AgreesOff (Part.ofReg x ∪ Part.flag) m (after (m.doSubtract x y)) :=
  agreesOff_attempt fun _ _ => agreesOff_attempt fun _ _ => agreesOff_set_setFlag m _ _ hx

theorem doPair_agreesOff (op : PairOp) (hx : x.Exists) (hy : y.Exists) :
    AgreesOff ((Instr.pair op x y).footprint m) m (after (m.doPair x y op)) := by
  cases op with
  | or => exact doBitwise_agreesOff hx y _
  | and => exact doBitwise_agreesOff hx y _
  | xor => exact doBitwise_agreesOff hx y _
  | sub => exact doSubtract_agreesOff hx y
  | subn => exact doSubtract_agreesOff hy x

/-- A random byte is drawn, and the register is set. -/
theorem doRandom_agreesOff (hx : x.Exists) (mask : Int) :
    AgreesOff ((Instr.random x mask).footprint m) m (after (m.doRandom x mask)) := by
  have hDrawn : AgreesOff {.drawn} m { m with drawn := m.drawn + 1 } := by
    intro p hp
    cases p with
    | drawn => exact absurd rfl hp
    | _ => rfl
  exact hDrawn.trans (agreesOff_set _ x _ hx)

/-! ### Memory -/

theorem doDecimal_agreesOff (x : Reg) :
    AgreesOff (Part.stretch m.i.toNat 3) m (after (m.doDecimal x)) := by
  refine agreesOff_attempt fun value _ => ?_
  rw [Memory.decimalDigits_toNat, Memory.writeNumbers_toNat]
  exact agreesOff_attempt fun memory hWrite => agreesOff_withMemory hWrite

theorem doSave_agreesOff (hx : x.Exists) :
    AgreesOff (Part.stretch m.i.toNat (x.index + 1)) m (after (m.doSave x)) := by
  refine agreesOff_attempt fun memory hWrite => (agreesOff_withMemory hWrite).mono ?_
  rintro p ⟨a, rfl, hLow, hHigh⟩
  obtain ⟨hFirst, hLast⟩ := hx
  rw [Bits.place, if_neg (by omega), List.length_take] at hHigh
  exact ⟨a, rfl, hLow, by omega⟩

/-- Setting registers in order from one on changes no register beyond the last of them. -/
theorem setAll_agreesOff (values : List UInt8) (n : Nat) (m : Machine)
    (h : n + values.length ≤ registerCount) :
    AgreesOff (Part.upTo ⟨(n : Int) + values.length - 1⟩) m (after (m.setAll n values)) := by
  obtain ⟨v, hAll, hGet⟩ := setAll_eq_ok values n m h
  rw [hAll]
  intro p hp
  cases p with
  | register j =>
      have hBeyond : ¬(n ≤ j.val ∧ j.val < n + values.length) := by
        rintro ⟨-, hBelow⟩
        refine hp ⟨j, rfl, ?_⟩
        change (j.val : Int) ≤ n + values.length - 1
        omega
      exact (hGet j).trans (if_neg hBeyond)
  | _ => rfl

theorem doRestore_agreesOff (hx : x.Exists) :
    AgreesOff (Part.upTo x) m (after (m.doRestore x)) := by
  refine agreesOff_attempt fun values hRead => ?_
  obtain ⟨hLow, hHigh⟩ := hx
  have hLength := Memory.length_of_read (by omega) hRead
  refine (setAll_agreesOff values 0 m (by omega)).mono ?_
  rintro p ⟨k, rfl, hk⟩
  refine ⟨k, rfl, ?_⟩
  change (k.val : Int) ≤ (0 : Nat) + values.length - 1 at hk
  omega

/-! ### Pixels and keys -/

/-- The flag is set once the picture is drawn. -/
theorem doDraw_agreesOff (x y : Reg) (rows : Int) :
    AgreesOff ((Instr.draw x y rows).footprint m) m (after (m.doDraw x y rows)) := by
  refine agreesOff_attempt fun sprite _ => agreesOff_attempt fun left _ =>
    agreesOff_attempt fun top _ => agreesOff_attempt fun drawn _ => ?_
  exact (agreesOff_withDisplay m drawn.1.publish).trans (agreesOff_setFlag _ drawn.2)

end

variable {i : Instr} {x : Reg}

/-- A wait changes what has to do with keys, and after it the register may be set. -/
theorem doAwaitKey_agreesOff (hx : x.Exists) :
    AgreesOff ((Instr.single .awaitKey x).footprint m) m (after (m.doAwaitKey x)) := by
  have hWaited : AgreesOff {.keys} m
      { m with
        surface := (m.surface.clearPress.awaitKey m.stray m.script).surface
        script := (m.surface.clearPress.awaitKey m.stray m.script).script } := by
    intro p hp
    cases p with
    | keys => exact absurd rfl hp
    | picture => exact Surface.display_awaitKey m.stray m.script m.surface.clearPress
    | _ => rfl
  unfold doAwaitKey
  dsimp only
  split
  · exact hWaited.mono Set.subset_union_left
  · exact hWaited.mono Set.subset_union_left
  · split
    · exact hWaited.trans (agreesOff_set _ x _ hx)
    · exact hWaited.mono Set.subset_union_left

theorem doSingle_agreesOff (op : SingleOp) (hx : x.Exists) :
    AgreesOff ((Instr.single op x).footprint m) m (after (m.doSingle x op)) := by
  cases op with
  | shiftRight => exact agreesOff_attempt fun a _ => agreesOff_set_setFlag m _ _ hx
  | shiftLeft => exact agreesOff_attempt fun a _ => agreesOff_set_setFlag m _ _ hx
  | skipHeld => exact agreesOff_attempt fun key _ => agreesOff_skipIf m _
  | skipFree => exact agreesOff_attempt fun key _ => agreesOff_skipIf m _
  | getDelay => exact agreesOff_set m x _ hx
  | awaitKey => exact doAwaitKey_agreesOff hx
  | setDelay =>
      refine agreesOff_attempt fun value _ p hp => ?_
      cases p with
      | delay => exact absurd rfl hp
      | _ => rfl
  | setSound =>
      refine agreesOff_attempt fun value _ p hp => ?_
      cases p with
      | sound => exact absurd rfl hp
      | _ => rfl
  | addIndex => exact agreesOff_attempt fun value _ => agreesOff_setIndex m _
  | glyph =>
      refine agreesOff_attempt fun value _ => ?_
      split
      · exact .refl _ m
      · exact agreesOff_setIndex m _
  | decimal => exact doDecimal_agreesOff x
  | save => exact doSave_agreesOff hx
  | restore => exact doRestore_agreesOff hx

/-! ## Instructions and cycles -/

/-- An instruction leaves every part alone that is not in its footprint, be it carried out or
refused. -/
theorem perform_agreesOff (hFits : i.Fits) :
    AgreesOff (i.footprint m) m (after (m.perform i)) := by
  cases i with
  | bare op => exact doBare_agreesOff op
  | address op addr => exact doAddress_agreesOff op addr
  | binary op x y => exact doBinary_agreesOff op hFits.1 y
  | pair op x y => exact doPair_agreesOff op hFits.1 hFits.2
  | single op x => exact doSingle_agreesOff op hFits
  | random x mask => exact doRandom_agreesOff hFits.1 mask
  | draw x y rows => exact doDraw_agreesOff x y rows

/-- The step to the next instruction writes the program counter besides. -/
theorem execute_agreesOff (hFits : i.Fits) :
    AgreesOff (i.footprint m ∪ {.counter}) m (after (m.execute i)) := by
  have hPerform := perform_agreesOff (m := m) hFits
  cases hJump : i.isJump with
  | true =>
      rw [execute_of_isJump hJump]
      exact hPerform.mono Set.subset_union_left
  | false =>
      rw [execute_of_not_isJump hJump]
      exact agreesOff_bind_ok hPerform fun n => agreesOff_withPc n _

/-- No instruction writes what is not a program's to change. -/
theorem setting_notMem_footprint (m : Machine) (i : Instr) : Part.setting ∉ i.footprint m := by
  intro h
  cases i with
  | bare op => cases op <;> simp [Instr.footprint] at h
  | address op addr => cases op <;> simp [Instr.footprint] at h
  | binary op x y => cases op <;> simp [Instr.footprint, Part.ofReg, Part.flag] at h
  | pair op x y => cases op <;> simp [Instr.footprint, Part.ofReg, Part.flag] at h
  | single op x =>
      cases op <;> simp [Instr.footprint, Part.ofReg, Part.upTo, Part.flag, Part.stretch] at h
  | random x mask => simp [Instr.footprint, Part.ofReg] at h
  | draw x y rows => simp [Instr.footprint, Part.flag] at h

/-- What is not a program's to change is the same after an instruction. -/
theorem setting_same_execute (hFits : i.Fits) : Part.setting.Same m (after (m.execute i)) := by
  apply execute_agreesOff hFits
  simp [setting_notMem_footprint]

theorem setting_eq_of_execute {left : Machine} (hFits : i.Fits) (h : after (m.execute i) = left) :
    left.mode = m.mode ∧ left.cycles = m.cycles ∧ left.memory.size = m.memory.size := by
  have hSame := setting_same_execute (m := m) hFits
  rw [h] at hSame
  simp only [Part.Same, Prod.mk.injEq] at hSame
  exact ⟨hSame.1, hSame.2.1, hSame.2.2.2.2⟩

theorem fits_of_instrAt (h : m.memory.instrAt m.pc = .ok i) : i.Fits :=
  Instr.fits_of_decode? (Memory.instrAt_eq_ok_iff.1 h).2

/-- The step to the next instruction is never refused. -/
theorem execute_eq_error_iff {f : Fault} {left : Machine} :
    m.execute i = .error (f, left) ↔ m.perform i = .error (f, left) := by
  unfold execute
  rw [bind_eq_error_iff]
  simp

/-- A cycle succeeds if the instruction that it finds does. -/
theorem cycle_eq_ok_iff {n : Machine} :
    m.cycle = .ok n ↔ ∃ i next, m.memory.instrAt m.pc = .ok i ∧ m.execute i = .ok next ∧
      n = { next with cycles := next.cycles + 1 } := by
  unfold cycle
  cases m.memory.instrAt m.pc with
  | error f => simp [attempt]
  | ok i =>
      simp only [attempt, ok_bind, bind_eq_ok_iff]
      constructor
      · rintro ⟨next, hExecute, hNext⟩
        exact ⟨i, next, rfl, hExecute, (Except.ok.inj hNext).symm⟩
      · rintro ⟨j, next, hFound, hExecute, rfl⟩
        cases hFound
        exact ⟨next, hExecute, rfl⟩

/-- A cycle is refused if it finds no instruction, or if the instruction is refused. -/
theorem cycle_eq_error_iff {f : Fault} {left : Machine} :
    m.cycle = .error (f, left) ↔ m.memory.instrAt m.pc = .error f ∧ left = m ∨
      ∃ i, m.memory.instrAt m.pc = .ok i ∧ m.execute i = .error (f, left) := by
  unfold cycle
  cases m.memory.instrAt m.pc with
  | error g => simp [attempt, eq_comm]
  | ok i =>
      simp only [attempt, ok_bind, bind_eq_error_iff]
      simp

/-- A cycle that succeeds is counted and keeps the mode. -/
theorem mode_cycles_of_cycle_ok {n : Machine} (h : m.cycle = .ok n) :
    n.mode = m.mode ∧ n.cycles = m.cycles + 1 := by
  obtain ⟨i, next, hInstr, hExecute, rfl⟩ := cycle_eq_ok_iff.1 h
  have hSame := setting_eq_of_execute (fits_of_instrAt hInstr) (congrArg after hExecute)
  exact ⟨hSame.1, congrArg (· + 1) hSame.2.1⟩

/-- A cycle that is refused is not counted and keeps the mode. -/
theorem mode_cycles_of_cycle_error {f : Fault} {left : Machine} (h : m.cycle = .error (f, left)) :
    left.mode = m.mode ∧ left.cycles = m.cycles := by
  rcases cycle_eq_error_iff.1 h with ⟨-, rfl⟩ | ⟨i, hInstr, hExecute⟩
  · exact ⟨rfl, rfl⟩
  · have hSame := setting_eq_of_execute (fits_of_instrAt hInstr) (congrArg after hExecute)
    exact ⟨hSame.1, hSame.2.1⟩

/-- A cycle leaves memory as large as it was. -/
theorem size_memory_cycle (m : Machine) : (after m.cycle).memory.size = m.memory.size := by
  cases hCycle : m.cycle with
  | ok n =>
      obtain ⟨i, next, hInstr, hExecute, rfl⟩ := cycle_eq_ok_iff.1 hCycle
      exact (setting_eq_of_execute (fits_of_instrAt hInstr) (congrArg after hExecute)).2.2
  | error failure =>
      rcases cycle_eq_error_iff.1 hCycle with ⟨-, hLeft⟩ | ⟨i, hInstr, hExecute⟩
      · exact congrArg (·.memory.size) hLeft
      · exact (setting_eq_of_execute (fits_of_instrAt hInstr) (congrArg after hExecute)).2.2

end Machine

end Chip8
