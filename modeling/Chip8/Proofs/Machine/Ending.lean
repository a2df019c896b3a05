import Chip8.Machine.Run
import Chip8.Proofs.Instr.Operands
import Chip8.Proofs.Machine.KeyWait
import Chip8.Proofs.Memory

/-!
# How the action of an instruction ends

`Machine.Ends` says how an action may end: it succeeds, or it is refused and leaves the machine as it
was.  There is one more ending, that of a key wait during which a key is pressed that does not exist;
its refusal is none of the program's and leaves the surface as the wait left it.

Most instructions write into registers, memory, timers or pixels and leave everything of which the
machine's shape consists alone: the program counter, the call stack, the number of bytes and of
pixels, and that no key is held twice.  `Machine.KeepsShape` relates machines of the same shape, and
every instruction keeps it that is no `Instr.isFlow` (`perform_ends_of_quiet`).  `Machine.Follows` says
where the others lead (`execute_ends`).
-/

namespace Chip8

namespace Machine

/-! ## Registers that exist -/

@[simp] theorem slot?_ofSlot (k : Fin registerCount) : slot? (Reg.ofSlot k) = some k := by
  have hBounds : -(registerCount : Int) ≤ (Reg.ofSlot k).index ∧
      (Reg.ofSlot k).index < registerCount := by
    obtain ⟨hlow, hhigh⟩ := Reg.exists_ofSlot k
    exact ⟨Int.le_trans (by decide) hlow, hhigh⟩
  have hPlace : Bits.place registerCount (Reg.ofSlot k).index = k.val := by
    rw [Bits.place, if_neg (Int.not_lt.2 (Reg.exists_ofSlot k).1)]
    exact Int.toNat_natCast k.val
  rw [slot?, dif_pos hBounds, Option.some.injEq]
  exact Fin.ext hPlace

@[simp] theorem get_ofSlot (m : Machine) (k : Fin registerCount) :
    m.get (Reg.ofSlot k) = .ok (m.v.get k) := by
  rw [get, slot?_ofSlot]

@[simp] theorem set_ofSlot (m : Machine) (k : Fin registerCount) (n : Int) :
    m.set (Reg.ofSlot k) n = .ok (m.put k (Bits.lowByte n)) := by
  rw [set, slot?_ofSlot]

theorem get_put_self (m : Machine) (k : Fin registerCount) (value : UInt8) :
    (m.put k value).v.get k = value := by
  show (m.v.set k.val value k.isLt)[k.val] = value
  exact Vector.getElem_set_self k.isLt

theorem get_put_of_ne {m : Machine} {j k : Fin registerCount} (value : UInt8) (h : j ≠ k) :
    (m.put k value).v.get j = m.v.get j := by
  have hVal : k.val ≠ j.val := fun hEq => h (Fin.ext hEq.symm)
  show (m.v.set k.val value k.isLt)[j.val] = m.v[j.val]
  exact Vector.getElem_set_ne k.isLt j.isLt hVal

/-! ## Machines of the same shape -/

/-- The program counter and the call stack are what they were, memory and the display are as large
as before, and no key has come to be held twice. -/
structure KeepsShape (m n : Machine) : Prop where
  pc_eq : n.pc = m.pc
  sp_eq : n.sp = m.sp
  stack_eq : n.stack = m.stack
  size_memory : n.memory.size = m.memory.size
  surface : m.surface.KeepsShape n.surface
  stray_eq : n.stray = m.stray

namespace KeepsShape

theorem refl (m : Machine) : m.KeepsShape m := ⟨rfl, rfl, rfl, rfl, .refl _, rfl⟩

theorem put (m : Machine) (k : Fin registerCount) (value : UInt8) :
    m.KeepsShape (m.put k value) := ⟨rfl, rfl, rfl, rfl, .refl _, rfl⟩

theorem put_setFlag (m : Machine) (k : Fin registerCount) (value : UInt8) (flag : Bool) :
    m.KeepsShape ((m.put k value).setFlag flag) := ⟨rfl, rfl, rfl, rfl, .refl _, rfl⟩

theorem setIndex (m : Machine) (n : Int) : m.KeepsShape (m.setIndex n) :=
  ⟨rfl, rfl, rfl, rfl, .refl _, rfl⟩

/-- Writing into memory leaves its size. -/
theorem withMemory (m : Machine) {memory : Memory} (h : memory.size = m.memory.size) :
    m.KeepsShape { m with memory } := ⟨rfl, rfl, rfl, h, .refl _, rfl⟩

end KeepsShape

/-! ## Endings -/

/-- The action of the machine succeeds in a machine with `P`, or is refused and leaves the machine as
it was.  A refusal that is none of the program's may leave another machine of the same shape. -/
def Ends (m : Machine) (P : Machine → Prop) : Result → Prop
  | .ok n => P n
  | .error (f, left) => left = m ∨ f.isOfProgram = false ∧ m.KeepsShape left

namespace Ends

variable {m : Machine} {P Q : Machine → Prop}

theorem ok {n : Machine} (h : P n) : Ends m P (.ok n) := h

theorem refused (f : Fault) : Ends m P (.error (f, m)) := .inl rfl

/-- What is looked up before anything is changed can only be refused. -/
theorem attempt {α : Type} {r : Except Fault α} {next : α → Result}
    (h : ∀ a, r = .ok a → Ends m P (next a)) : Ends m P (m.attempt r >>= next) := by
  cases r with
  | ok a => exact h a rfl
  | error f => exact refused f

/-- After a success nothing more can be refused. -/
theorem bind_ok {r : Result} {next : Machine → Machine} (h : Ends m P r)
    (hNext : ∀ n, P n → Q (next n)) : Ends m Q (r >>= fun n => .ok (next n)) := by
  cases r with
  | ok n => exact hNext n h
  | error failure => exact h

/-- A refusal of the program's own leaves the machine as it was. -/
theorem eq_of_error {f : Fault} {left : Machine} (h : Ends m P (.error (f, left)))
    (hFault : f.isOfProgram = true) : left = m := by
  rcases h with h | ⟨hOther, -⟩
  · exact h
  · rw [hFault] at hOther
    cases hOther

/-- Whatever holds of the machine and of all machines of its shape holds after a refusal. -/
theorem keepsShape_of_error {f : Fault} {left : Machine} (h : Ends m P (.error (f, left))) :
    m.KeepsShape left := by
  rcases h with rfl | ⟨-, hShape⟩
  · exact .refl _
  · exact hShape

end Ends

/-! ## The quiet actions -/

section

variable {m : Machine} {x y : Reg}

theorem doAdd_ends (hx : x.Exists) (y : Operand) : Ends m m.KeepsShape (m.doAdd x y) := by
  obtain ⟨k, rfl⟩ := hx.eq_ofSlot
  refine .attempt fun a _ => .attempt fun b _ => ?_
  simp only [set_ofSlot, ok_bind]
  exact .ok (.put_setFlag m k _ _)

theorem doSubtract_ends (hx : x.Exists) (y : Reg) : Ends m m.KeepsShape (m.doSubtract x y) := by
  obtain ⟨k, rfl⟩ := hx.eq_ofSlot
  refine .attempt fun a _ => .attempt fun b _ => ?_
  simp only [set_ofSlot, ok_bind]
  exact .ok (.put_setFlag m k _ _)

theorem doBitwise_ends (hx : x.Exists) (y : Reg) (f : UInt8 → UInt8 → UInt8) :
    Ends m m.KeepsShape (m.doBitwise x y f) := by
  obtain ⟨k, rfl⟩ := hx.eq_ofSlot
  refine .attempt fun a _ => .attempt fun b _ => ?_
  rw [set_ofSlot]
  exact .ok (.put m k _)

theorem doPair_ends (hx : x.Exists) (hy : y.Exists) (op : PairOp) :
    Ends m m.KeepsShape (m.doPair x y op) := by
  cases op with
  | or => exact doBitwise_ends hx y _
  | and => exact doBitwise_ends hx y _
  | xor => exact doBitwise_ends hx y _
  | sub => exact doSubtract_ends hx y
  | subn => exact doSubtract_ends hy x

theorem doShiftRight_ends (hx : x.Exists) : Ends m m.KeepsShape (m.doShiftRight x) := by
  obtain ⟨k, rfl⟩ := hx.eq_ofSlot
  refine .attempt fun a _ => ?_
  simp only [set_ofSlot, ok_bind]
  exact .ok (.put_setFlag m k _ _)

theorem doShiftLeft_ends (hx : x.Exists) : Ends m m.KeepsShape (m.doShiftLeft x) := by
  obtain ⟨k, rfl⟩ := hx.eq_ofSlot
  refine .attempt fun a _ => ?_
  simp only [set_ofSlot, ok_bind]
  exact .ok (.put_setFlag m k _ _)

theorem doRandom_ends (hx : x.Exists) (mask : Int) : Ends m m.KeepsShape (m.doRandom x mask) := by
  obtain ⟨k, rfl⟩ := hx.eq_ofSlot
  simp only [doRandom, set_ofSlot]
  exact .ok ⟨rfl, rfl, rfl, rfl, .refl _, rfl⟩

theorem doGlyph_ends (x : Reg) : Ends m m.KeepsShape (m.doGlyph x) := by
  refine .attempt fun value _ => ?_
  split
  · exact .refused _
  · exact .ok (.setIndex m _)

/-! ### Memory -/

theorem doDecimal_ends (x : Reg) : Ends m m.KeepsShape (m.doDecimal x) := by
  refine .attempt fun value _ => ?_
  -- The digits are bytes, so that the write alone can be refused, and it writes all of them or none.
  rw [Memory.decimalDigits_toNat, Memory.writeNumbers_toNat]
  refine .attempt fun memory hWrite => ?_
  exact .ok (.withMemory m (Memory.size_of_write hWrite))

theorem doSave_ends (x : Reg) : Ends m m.KeepsShape (m.doSave x) := by
  refine .attempt fun memory hWrite => ?_
  exact .ok (.withMemory m (Memory.size_of_write hWrite))

/-- Setting registers that all exist succeeds and changes these registers only, each to the byte in
its place. -/
theorem setAll_eq_ok (values : List UInt8) (n : Nat) (m : Machine)
    (h : n + values.length ≤ registerCount) :
    ∃ v, m.setAll n values = .ok { m with v } ∧ ∀ j : Fin registerCount, v.get j =
      if n ≤ j.val ∧ j.val < n + values.length then values.getD (j.val - n) 0 else m.v.get j := by
  induction values generalizing n m with
  | nil =>
      refine ⟨m.v, rfl, fun j => ?_⟩
      rw [if_neg (by simp)]
  | cons value values ih =>
      rw [List.length_cons] at h ⊢
      have hSlot : n < registerCount := by omega
      have hSet := set_ofSlot m ⟨n, hSlot⟩ value.toNat
      rw [Bits.lowByte_toNat] at hSet
      obtain ⟨v, hAll, hGet⟩ := ih (n + 1) (m.put ⟨n, hSlot⟩ value) (by omega)
      refine ⟨v, ?_, fun j => ?_⟩
      · show (m.set (Reg.ofSlot ⟨n, hSlot⟩) value.toNat >>= fun m => m.setAll (n + 1) values) = _
        rw [hSet, ok_bind, hAll]
        rfl
      · rw [hGet j]
        by_cases hFirst : j = ⟨n, hSlot⟩
        · subst hFirst
          have hPast : ¬(n + 1 ≤ n ∧ n < n + 1 + values.length) := by omega
          have hHere : n ≤ n ∧ n < n + (values.length + 1) := by omega
          rw [if_neg hPast, get_put_self, if_pos hHere, Nat.sub_self, List.getD_cons_zero]
        · have hVal : j.val ≠ n := fun hEq => hFirst (Fin.ext hEq)
          rw [get_put_of_ne value hFirst]
          by_cases hInside : n + 1 ≤ j.val ∧ j.val < n + 1 + values.length
          · have hPlace : j.val - n = j.val - (n + 1) + 1 := by omega
            rw [if_pos hInside, if_pos (by omega), hPlace, List.getD_cons_succ]
          · rw [if_neg hInside, if_neg (by omega)]

/-- All bytes are read before the first register is set, and there are as many as registers. -/
theorem doRestore_ends (hx : x.Exists) : Ends m m.KeepsShape (m.doRestore x) := by
  refine .attempt fun values hRead => ?_
  have hLow := hx.1
  have hHigh := hx.2
  have hLength := Memory.length_of_read (by omega) hRead
  obtain ⟨v, hAll, -⟩ := setAll_eq_ok values 0 m (by omega)
  rw [hAll]
  exact .ok ⟨rfl, rfl, rfl, rfl, .refl _, rfl⟩

/-! ### Pixels and keys -/

theorem doDraw_ends (x y : Reg) (rows : Int) : Ends m m.KeepsShape (m.doDraw x y rows) := by
  -- The sprite and the position are read before the first pixel is changed.
  refine .attempt fun sprite _ => .attempt fun left _ => .attempt fun top _ => ?_
  refine .attempt fun drawn hDraw => ?_
  exact .ok ⟨rfl, rfl, rfl, rfl, Surface.keepsShape_of_draw hDraw, rfl⟩

/-- The wait looks for real keys only, so what it finds is the number of a key. -/
theorem doAwaitKey_ends (hStray : m.stray = none) (hx : x.Exists) :
    Ends m m.KeepsShape (m.doAwaitKey x) := by
  obtain ⟨k, rfl⟩ := hx.eq_ofSlot
  have hShape : m.surface.KeepsShape (m.surface.clearPress.awaitKey none m.script).surface :=
    (Surface.keepsShape_clearPress m.surface).trans (Surface.keepsShape_awaitKey _ _ _)
  simp only [doAwaitKey, hStray]
  rcases Surface.awaitKey_ending m.script m.surface.clearPress with hEnd | ⟨key, hEnd⟩ | ⟨code, hEnd⟩
  · -- The surface was closed while the machine waited, and no register is set.
    rw [hEnd]
    exact .ok ⟨rfl, rfl, rfl, rfl, hShape, hStray.symm⟩
  · -- A key was found, and its number goes into the register.
    simp only [hEnd, Surface.key?_val, Option.isSome_some, if_true, set_ofSlot]
    exact .ok ⟨rfl, rfl, rfl, rfl, hShape, hStray.symm⟩
  · -- Someone pressed a key that does not exist.  What was waited for until then has happened.
    rw [hEnd]
    exact .inr ⟨rfl, rfl, rfl, rfl, rfl, hShape, hStray.symm⟩

end

end Machine

/-! ## Quiet instructions -/

/-- The instruction sets the program counter or the stack itself. -/
def Instr.isFlow : Instr → Bool
  | .bare .ret => true
  | .address .jump _ => true
  | .address .call _ => true
  | .address .jumpV0 _ => true
  | .binary .skipEq _ _ => true
  | .binary .skipNe _ _ => true
  | .single .skipHeld _ => true
  | .single .skipFree _ => true
  | _ => false

namespace Machine

variable {m : Machine} {i : Instr}

theorem doSingle_ends {x : Reg} {op : SingleOp} (hStray : m.stray = none) (hx : x.Exists)
    (hQuiet : (Instr.single op x).isFlow = false) : Ends m m.KeepsShape (m.doSingle x op) := by
  cases op with
  | shiftRight => exact doShiftRight_ends hx
  | shiftLeft => exact doShiftLeft_ends hx
  | skipHeld => cases hQuiet
  | skipFree => cases hQuiet
  | getDelay =>
      obtain ⟨k, rfl⟩ := hx.eq_ofSlot
      rw [doSingle, set_ofSlot]
      exact .ok (.put m k _)
  | awaitKey => exact doAwaitKey_ends hStray hx
  | setDelay => exact .attempt fun value _ => .ok ⟨rfl, rfl, rfl, rfl, .refl _, rfl⟩
  | setSound => exact .attempt fun value _ => .ok ⟨rfl, rfl, rfl, rfl, .refl _, rfl⟩
  | addIndex => exact .attempt fun value _ => .ok (.setIndex m _)
  | glyph => exact doGlyph_ends x
  | decimal => exact doDecimal_ends x
  | save => exact doSave_ends x
  | restore => exact doRestore_ends hx

/-- An instruction that is no flow keeps the shape of the machine. -/
theorem perform_ends_of_quiet (hStray : m.stray = none) (hFits : i.Fits)
    (hQuiet : i.isFlow = false) : Ends m m.KeepsShape (m.perform i) := by
  cases i with
  | bare op =>
      cases op with
      | clear => exact .ok ⟨rfl, rfl, rfl, rfl, Surface.keepsShape_blank m.surface, rfl⟩
      | ret => cases hQuiet
  | address op addr =>
      cases op with
      | sys => exact .ok (.refl m)
      | setIndex => exact .ok (.setIndex m addr)
      | jump => cases hQuiet
      | call => cases hQuiet
      | jumpV0 => cases hQuiet
  | binary op x y =>
      cases op with
      | skipEq => cases hQuiet
      | skipNe => cases hQuiet
      | load =>
          obtain ⟨k, rfl⟩ := hFits.1.eq_ofSlot
          refine .attempt fun b _ => ?_
          rw [set_ofSlot]
          exact .ok (.put m k _)
      | add => exact doAdd_ends hFits.1 y
  | pair op x y => exact doPair_ends hFits.1 hFits.2 op
  | single op x => exact doSingle_ends hStray hFits hQuiet
  | random x mask => exact doRandom_ends hFits.1 mask
  | draw x y rows => exact doDraw_ends x y rows

/-! ## All instructions -/

/-- How a machine follows another by one instruction that succeeds. -/
inductive Follows (m : Machine) : Machine → Prop
  /-- The next instruction in order is reached in a machine of the same shape. -/
  | next {n : Machine} (h : m.KeepsShape n) : Follows m n.advance
  /-- The next instruction is passed over. -/
  | skip : Follows m m.advance.advance
  /-- A jump, at most by a byte beyond a twelve bit address. -/
  | jump {addr : Int} (hLow : 0 ≤ addr) (hHigh : addr ≤ 0x10FE) : Follows m { m with pc := addr }
  /-- A call, which saves the address of the call itself. -/
  | call {addr : Int} {stack : CallStack} (hLow : 0 ≤ addr) (hHigh : addr ≤ 0xFFF)
      (hPush : m.stack.push m.pc = .ok stack) :
      Follows m { m with pc := addr, stack, sp := stack.size }
  /-- A return, to what comes after the latest saved address. -/
  | ret {addr : Int} {stack : CallStack} (hPop : m.stack.pop = .ok (addr, stack)) :
      Follows m { m with pc := addr + opcodeSize, stack, sp := stack.size }

/-- Passing over an instruction or not, and then going on. -/
theorem follows_skipIf (m : Machine) (condition : Bool) :
    Follows m (m.skipIf condition).advance := by
  cases condition with
  | false => exact .next (.refl m)
  | true => exact .skip

theorem execute_of_not_isJump (hJump : i.isJump = false) :
    m.execute i = m.perform i >>= fun n => .ok n.advance := by
  rw [execute, hJump]
  rfl

theorem execute_of_isJump (hJump : i.isJump = true) : m.execute i = m.perform i := by
  rw [execute, hJump]
  cases m.perform i <;> rfl

theorem isJump_of_quiet (hQuiet : i.isFlow = false) : i.isJump = false := by
  cases i with
  | address op addr =>
      cases op with
      | sys => rfl
      | setIndex => rfl
      | jump => cases hQuiet
      | call => cases hQuiet
      | jumpV0 => cases hQuiet
  | bare op => rfl
  | binary op x y => rfl
  | pair op x y => rfl
  | single op x => rfl
  | random x mask => rfl
  | draw x y rows => rfl

/-- A skip looks up its operands and then decides. -/
theorem doBinary_skip_ends (x : Reg) (y : Operand) :
    Ends m (fun n => Follows m n.advance) (m.doBinary x y .skipEq) ∧
      Ends m (fun n => Follows m n.advance) (m.doBinary x y .skipNe) := by
  constructor
  · exact .attempt fun a _ => .attempt fun b _ => .ok (follows_skipIf m _)
  · exact .attempt fun a _ => .attempt fun b _ => .ok (follows_skipIf m _)

theorem doSkipKey_ends (x : Reg) (held : Bool) :
    Ends m (fun n => Follows m n.advance) (m.doSkipKey x held) :=
  .attempt fun _ _ => .ok (follows_skipIf m _)

theorem doReturn_ends : Ends m (fun n => Follows m n.advance) m.doReturn := by
  refine .attempt fun popped hPop => ?_
  exact .ok (.ret hPop)

theorem doCall_ends {addr : Int} (hLow : 0 ≤ addr) (hHigh : addr ≤ 0xFFF) :
    Ends m (Follows m) (m.doCall addr) := by
  refine .attempt fun stack hPush => ?_
  exact .ok (.call hLow hHigh hPush)

/-- A jump by `V0` goes at most a byte beyond its address. -/
theorem doJumpV0_ends {addr : Int} (hLow : 0 ≤ addr) (hHigh : addr ≤ 0xFFF) :
    Ends m (Follows m) (m.doAddress addr .jumpV0) := by
  refine .attempt fun offset _ => ?_
  have hOffset := offset.toNat_lt
  exact .ok (.jump (by omega) (by omega))

/-- Whatever fits is carried out in one of the ways of `Follows`, or refused. -/
theorem execute_ends (hStray : m.stray = none) (hFits : i.Fits) :
    Ends m (Follows m) (m.execute i) := by
  by_cases hQuiet : i.isFlow = false
  · -- Nothing is refused once the program counter is moved on.
    rw [execute_of_not_isJump (isJump_of_quiet hQuiet)]
    exact (perform_ends_of_quiet hStray hFits hQuiet).bind_ok fun n hn => .next hn
  · -- What is left are the jumps, which set the program counter, and the skips and `RET`, after
    -- which it is moved on all the same.
    cases i with
    | bare op =>
        cases op with
        | clear => exact absurd rfl hQuiet
        | ret =>
            rw [execute_of_not_isJump rfl]
            exact doReturn_ends.bind_ok fun n hn => hn
    | address op addr =>
        obtain ⟨hLow, hHigh⟩ := hFits
        cases op with
        | sys => exact absurd rfl hQuiet
        | setIndex => exact absurd rfl hQuiet
        | jump =>
            rw [execute_of_isJump rfl]
            exact .ok (.jump hLow (by omega))
        | call =>
            rw [execute_of_isJump rfl]
            exact doCall_ends hLow hHigh
        | jumpV0 =>
            rw [execute_of_isJump rfl]
            exact doJumpV0_ends hLow hHigh
    | binary op x y =>
        rw [execute_of_not_isJump rfl]
        cases op with
        | skipEq => exact (doBinary_skip_ends x y).1.bind_ok fun n hn => hn
        | skipNe => exact (doBinary_skip_ends x y).2.bind_ok fun n hn => hn
        | load => exact absurd rfl hQuiet
        | add => exact absurd rfl hQuiet
    | single op x =>
        rw [execute_of_not_isJump rfl]
        cases op with
        | skipHeld => exact (doSkipKey_ends x true).bind_ok fun n hn => hn
        | skipFree => exact (doSkipKey_ends x false).bind_ok fun n hn => hn
        | _ => exact absurd rfl hQuiet
    | pair op x y => exact absurd rfl hQuiet
    | random x mask => exact absurd rfl hQuiet
    | draw x y rows => exact absurd rfl hQuiet

/-- A cycle carries out whatever word it finds, if it finds an instruction at all. -/
theorem cycle_ends (hStray : m.stray = none) :
    Ends m (fun n => m.CanFetch ∧ ∃ next, Follows m next ∧ n = { next with cycles := n.cycles })
      m.cycle := by
  refine .attempt fun instr hInstr => ?_
  obtain ⟨hCovers, hDecode⟩ := Memory.instrAt_eq_ok_iff.1 hInstr
  exact (execute_ends hStray (Instr.fits_of_decode? hDecode)).bind_ok fun next hNext =>
    ⟨hCovers, next, hNext, rfl⟩

/-- A cycle that a fault of the program ends leaves every part of the machine as it was, whatever the
word and whatever the machine, as long as the keys of its surface are real.  The program counter too
is where it was, at the instruction that was refused. -/
theorem cycle_refused_unchanged {left : Machine} {f : Fault} (hStray : m.stray = none)
    (hCycle : m.cycle = .error (f, left)) (hFault : f.isOfProgram = true) : left = m := by
  have hEnds := cycle_ends hStray
  rw [hCycle] at hEnds
  exact hEnds.eq_of_error hFault

/-- Storing six registers where only four bytes are left of memory. -/
theorem cycle_refused_unchanged_at_memory_end :
    ∃ m left : Machine, Memory.ofRom [0xF5, 0x55] = .ok m.memory ∧ m.i = 0xFFB ∧
      m.stray = none ∧ m.cycle = .error (.badAddress 0xFFB 6, left) ∧
      (Fault.badAddress 0xFFB 6).isOfProgram = true ∧ left = m := by
  have hRom : ([0xF5, 0x55] : List UInt8).length ≤ maxRomSize := by decide
  obtain ⟨memory, hMemory⟩ : ∃ memory, Memory.ofRom [0xF5, 0x55] = .ok memory :=
    ⟨_, Memory.ofRom_eq_ok hRom⟩
  have hSize := Memory.size_of_ofRom hMemory
  have hInstr : memory.instrAt romBase = .ok (.single .save ⟨5⟩) := by
    have hWord := Memory.wordAt_of_ofRom hMemory (show 0 + 1 < 2 by decide)
    refine Memory.instrAt_eq_ok_iff.2 ⟨⟨by decide, ?_⟩, ?_⟩
    · rw [hSize]
      decide
    · rw [show (romBase : Int).toNat = romBase + 0 from rfl, hWord]
      rfl
  have hWrite : memory.write 0xFFB [0, 0, 0, 0, 0, 0] = .error (.badAddress 0xFFB 6) := by
    have hCheck : memory.check 0xFFB 6 = .error (.badAddress 0xFFB 6) := by
      refine Memory.check_eq_error_iff.2 ⟨?_, rfl⟩
      rintro ⟨-, hHigh⟩
      rw [hSize] at hHigh
      revert hHigh
      decide
    exact bind_eq_error_iff.2 (.inl hCheck)
  have hCycle : ({ memory, i := 0xFFB } : Machine).cycle =
      .error (.badAddress 0xFFB 6, { memory, i := 0xFFB }) := by
    refine bind_eq_error_iff.2 (.inr ⟨.single .save ⟨5⟩, ?_, ?_⟩)
    · exact congrArg _ hInstr
    · have hRefused : ({ memory, i := 0xFFB } : Machine).attempt
          (memory.write 0xFFB [0, 0, 0, 0, 0, 0]) =
            .error (.badAddress 0xFFB 6, { memory, i := 0xFFB }) := by
        rw [hWrite]
        rfl
      exact bind_eq_error_iff.2 (.inl (bind_eq_error_iff.2 (.inl
        (bind_eq_error_iff.2 (.inl hRefused)))))
  exact ⟨_, _, hMemory, rfl, rfl, hCycle, rfl, cycle_refused_unchanged rfl hCycle rfl⟩

end Machine

end Chip8
