import Chip8.Proofs.Machine.Ending

/-!
# What a cycle refuses

`Instr.RefusedBy` lists the instructions that a machine refuses and the faults by which it does, and
`Machine.Refuses` adds the two faults of fetching.  On a machine with the usual memory, stack and
display a cycle ends in a fault of these lists exactly where they say so (`cycle_refusedWith_iff`).
Everything else that the parts of a machine can refuse, such as a register that does not exist, a
number that is no byte or a display without pixels, is met by no cycle.
-/

namespace Chip8

/-! ## The lists -/

/-- The machine refuses the instruction with the fault. -/
inductive Instr.RefusedBy (m : Machine) : Instr → Fault → Prop where
  | ret (h : m.stack.frames = []) : RefusedBy m (.bare .ret) .stackEmpty
  | call {addr : Int} (h : m.stack.frames.length = 16) :
      RefusedBy m (.address .call addr) (.stackFull m.pc)
  | skipHeld {x : Reg} {value : UInt8} (hValue : m.get x = .ok value) (h : 15 < value.toNat) :
      RefusedBy m (.single .skipHeld x) (.invalidKey value.toNat x)
  | skipFree {x : Reg} {value : UInt8} (hValue : m.get x = .ok value) (h : 15 < value.toNat) :
      RefusedBy m (.single .skipFree x) (.invalidKey value.toNat x)
  | glyph {x : Reg} {value : UInt8} (hValue : m.get x = .ok value) (h : 15 < value.toNat) :
      RefusedBy m (.single .glyph x) (.noGlyph value.toNat)
  | draw {x y : Reg} {rows : Int} (h : 4095 < m.i.toNat + rows) :
      RefusedBy m (.draw x y rows) (.badAddress m.i.toNat rows)
  | decimal {x : Reg} (h : 4095 < (m.i.toNat : Int) + 3) :
      RefusedBy m (.single .decimal x) (.badAddress m.i.toNat 3)
  | save {x : Reg} (h : 4095 < m.i.toNat + (x.index + 1)) :
      RefusedBy m (.single .save x) (.badAddress m.i.toNat (x.index + 1))
  | restore {x : Reg} (h : 4095 < m.i.toNat + (x.index + 1)) :
      RefusedBy m (.single .restore x) (.badAddress m.i.toNat (x.index + 1))

/-- The event does not press a key that does not exist. -/
def KeyEvent.Exists : KeyEvent → Prop
  | .press code => 0 ≤ code ∧ code ≤ 15
  | .release _ => True
  | .close => True

namespace Machine

/-- The machine refuses to carry out what lies at the program counter. -/
inductive Refuses (m : Machine) : Fault → Prop where
  /-- The two bytes of the opcode are not all there. -/
  | fetch (h : m.pc < 0 ∨ 4095 < m.pc + 2) : Refuses m (.badAddress m.pc 2)
  /-- The opcode is that of no instruction. -/
  | decode (hLow : 0 ≤ m.pc) (hHigh : m.pc + 2 ≤ 4095)
      (h : Instr.decode? (m.memory.wordAt m.pc.toNat) = none) :
      Refuses m (.undecodable (m.memory.wordAt m.pc.toNat))
  /-- The instruction is refused. -/
  | instr {i : Instr} {f : Fault} (hLow : 0 ≤ m.pc) (hHigh : m.pc + 2 ≤ 4095)
      (hDecode : Instr.decode? (m.memory.wordAt m.pc.toNat) = some i) (h : i.RefusedBy m f) :
      Refuses m f

/-- The machine has the usual memory, stack and display.  Its registers may hold anything, and so may
the program counter. -/
structure Equipped (m : Machine) : Prop where
  memory_size : m.memory.size = 4095
  depth_eq : m.stack.depth = 16
  frames_le : m.stack.frames.length ≤ 16
  width_eq : m.surface.display.width = 64
  height_eq : m.surface.display.height = 32
  /-- No number stands in for the keys of the surface. -/
  stray_eq : m.stray = none

/-- The action ends in the fault. -/
def RefusedWith (r : Result) (f : Fault) : Prop := ∃ left, r = .error (f, left)

section

variable {m n : Machine} {r : Result} {f g : Fault}

@[simp] theorem not_refusedWith_ok : ¬RefusedWith (.ok n) f := by
  rintro ⟨left, h⟩
  cases h

@[simp] theorem refusedWith_error : RefusedWith (.error (g, n)) f ↔ f = g := by
  constructor
  · rintro ⟨left, h⟩
    cases h
    rfl
  · rintro rfl
    exact ⟨n, rfl⟩

@[simp] theorem attempt_ok {α : Type} (a : α) : m.attempt (.ok a) = .ok a := rfl

/-- What is looked up first may be refused, or else what comes after it. -/
theorem refusedWith_attempt {α : Type} {a : Except Fault α} {next : α → Result} :
    RefusedWith (m.attempt a >>= next) f ↔
      a = .error f ∨ ∃ value, a = .ok value ∧ RefusedWith (next value) f := by
  cases a with
  | ok value => simp
  | error g => simp [attempt, eq_comm]

/-- After a success nothing more is refused. -/
@[simp] theorem refusedWith_bind_ok {next : Machine → Machine} :
    RefusedWith (r >>= fun n => .ok (next n)) f ↔ RefusedWith r f := by
  cases r with
  | ok n => simp
  | error failure =>
      obtain ⟨g, left⟩ := failure
      simp

end

end Machine

/-! ## Kinds of refusal -/

namespace Instr

/-- The stretch of memory at the index register that an instruction uses, by its length. -/
def stretch? : Instr → Option Int
  | .draw _ _ rows => some rows
  | .single .decimal _ => some 3
  | .single .save x => some (x.index + 1)
  | .single .restore x => some (x.index + 1)
  | _ => none

/-- The register in which an instruction looks for a key or a digit, and the fault that it meets if
the number there is neither. -/
def digit? : Instr → Option (Reg × (Nat → Fault))
  | .single .skipHeld x => some (x, fun n => .invalidKey n x)
  | .single .skipFree x => some (x, fun n => .invalidKey n x)
  | .single .glyph x => some (x, fun n => .noGlyph n)
  | _ => none

variable {m : Machine} {i : Instr} {f : Fault}

theorem refusedBy_ret_iff :
    (Instr.bare .ret).RefusedBy m f ↔ m.stack.frames = [] ∧ f = .stackEmpty := by
  constructor
  · intro hRefused
    cases hRefused with
    | ret hFrames => exact ⟨hFrames, rfl⟩
  · rintro ⟨hFrames, rfl⟩
    exact .ret hFrames

theorem refusedBy_call_iff {addr : Int} :
    (Instr.address .call addr).RefusedBy m f ↔
      m.stack.frames.length = 16 ∧ f = .stackFull m.pc := by
  constructor
  · intro hRefused
    cases hRefused with
    | call hFrames => exact ⟨hFrames, rfl⟩
  · rintro ⟨hFrames, rfl⟩
    exact .call hFrames

/-- What uses a stretch of memory is refused if the stretch goes beyond the end. -/
theorem refusedBy_iff_of_stretch {length : Int} (hStretch : i.stretch? = some length) :
    i.RefusedBy m f ↔ 4095 < m.i.toNat + length ∧ f = .badAddress m.i.toNat length := by
  constructor
  · intro hRefused
    cases hRefused with
    | draw hBeyond | decimal hBeyond | save hBeyond | restore hBeyond =>
        cases hStretch
        exact ⟨hBeyond, rfl⟩
    | _ => cases hStretch
  · rintro ⟨hBeyond, rfl⟩
    unfold stretch? at hStretch
    split at hStretch
    · cases hStretch
      exact .draw hBeyond
    · cases hStretch
      exact .decimal hBeyond
    · cases hStretch
      exact .save hBeyond
    · cases hStretch
      exact .restore hBeyond
    · cases hStretch

/-- What looks for a key or a digit is refused if the number is above fifteen. -/
theorem refusedBy_iff_of_digit {x : Reg} {value : UInt8} {fault : Nat → Fault}
    (hDigit : i.digit? = some (x, fault)) (hValue : m.get x = .ok value) :
    i.RefusedBy m f ↔ 15 < value.toNat ∧ f = fault value.toNat := by
  constructor
  · intro hRefused
    cases hRefused with
    | skipHeld hOther hOver | skipFree hOther hOver | glyph hOther hOver =>
        cases hDigit
        cases hValue.symm.trans hOther
        exact ⟨hOver, rfl⟩
    | _ => cases hDigit
  · rintro ⟨hOver, rfl⟩
    unfold digit? at hDigit
    split at hDigit
    · cases hDigit
      exact .skipHeld hValue hOver
    · cases hDigit
      exact .skipFree hValue hOver
    · cases hDigit
      exact .glyph hValue hOver
    · cases hDigit

end Instr

/-! ## Keys -/

namespace Surface

variable {s : Surface}

/-- Keys that exist can be pressed. -/
theorem exists_happenAll {events : List KeyEvent} (h : ∀ e ∈ events, e.Exists) (s : Surface) :
    ∃ t, s.happenAll events = (t, events, none) := by
  induction events generalizing s with
  | nil => exact ⟨s, rfl⟩
  | cons e events ih =>
      have hNext : ∃ next, s.happen e = .ok next := by
        cases e with
        | press code =>
            obtain ⟨hLow, hHigh⟩ : 0 ≤ code ∧ code ≤ 15 := h _ List.mem_cons_self
            have hNumber : 0 ≤ code ∧ code < keyCount := ⟨hLow, Int.lt_add_one_of_le hHigh⟩
            simp only [happen, press, key?, dif_pos hNumber]
            exact ⟨_, rfl⟩
        | release code => exact ⟨_, rfl⟩
        | close => exact ⟨_, rfl⟩
      obtain ⟨next, hNext⟩ := hNext
      obtain ⟨t, hRest⟩ := ih (fun u hu => h u (List.mem_cons_of_mem e hu)) next
      refine ⟨t, ?_⟩
      simp only [happenAll, hNext, hRest]

/-- A wait during which only keys are pressed that exist ends with a key or with the closing of the
surface. -/
theorem awaitKey_ending_of_exists {script : List (List KeyEvent)}
    (h : ∀ batch ∈ script, ∀ e ∈ batch, e.Exists) (s : Surface) :
    (s.awaitKey none script).ending = .closed ∨
      ∃ key : Key, (s.awaitKey none script).ending = .key key.val := by
  induction script generalizing s with
  | nil =>
      rcases awaitKey_ending [] s with hEnd | hEnd | ⟨code, hEnd⟩
      · exact .inl hEnd
      · exact .inr hEnd
      · -- Without a script nothing happens that could be refused.
        unfold awaitKey at hEnd
        split at hEnd
        · split at hEnd
          · cases hEnd
          · cases hEnd
        · cases hEnd
  | cons batch later ih =>
      by_cases hOpen : s.isOpen = true
      · rcases hLook : s.look none with ⟨_ | code, t⟩
        · obtain ⟨u, hBatch⟩ := exists_happenAll (h batch List.mem_cons_self) t
          rw [awaitKey_sleep hOpen hLook hBatch]
          exact ih (fun b hb => h b (List.mem_cons_of_mem batch hb)) u.wait.2
        · rw [awaitKey_found hOpen hLook]
          obtain ⟨key, rfl⟩ := exists_key_of_look hLook
          exact .inr ⟨key, rfl⟩
      · rw [awaitKey_closed (Bool.eq_false_iff.2 hOpen)]
        exact .inl rfl

end Surface

namespace Machine

variable {m : Machine} {f : Fault}

/-! ## Registers -/

section

variable {x y : Reg}

/-- An operand that fits has a value. -/
theorem exists_operand_eq_ok {y : Operand} (h : y.Fits) : ∃ n, m.operand y = .ok n := by
  cases y with
  | reg r =>
      obtain ⟨k, rfl⟩ := Reg.Exists.eq_ofSlot h
      refine ⟨((m.v.get k).toNat : Int), ?_⟩
      rw [operand, get_ofSlot]
      rfl
  | imm n => exact ⟨n, rfl⟩

theorem not_refusedWith_doBinary (hx : x.Exists) {y : Operand} (hy : y.Fits) (op : BinaryOp) :
    ¬RefusedWith (m.doBinary x y op) f := by
  obtain ⟨k, rfl⟩ := hx.eq_ofSlot
  obtain ⟨n, hn⟩ := exists_operand_eq_ok (m := m) hy
  cases op with
  | skipEq => simp [doBinary, hn]
  | skipNe => simp [doBinary, hn]
  | load => simp [doBinary, hn]
  | add => simp [doBinary, doAdd, hn]

theorem not_refusedWith_doPair (hx : x.Exists) (hy : y.Exists) (op : PairOp) :
    ¬RefusedWith (m.doPair x y op) f := by
  obtain ⟨k, rfl⟩ := hx.eq_ofSlot
  obtain ⟨l, rfl⟩ := hy.eq_ofSlot
  cases op with
  | or => simp [doPair, doBitwise]
  | and => simp [doPair, doBitwise]
  | xor => simp [doPair, doBitwise]
  | sub => simp [doPair, doSubtract]
  | subn => simp [doPair, doSubtract]

theorem not_refusedWith_doRandom (hx : x.Exists) (mask : Int) :
    ¬RefusedWith (m.doRandom x mask) f := by
  obtain ⟨k, rfl⟩ := hx.eq_ofSlot
  simp [doRandom]

/-! ## Flow and keys -/

theorem refusedWith_doReturn :
    RefusedWith m.doReturn f ↔ m.stack.frames = [] ∧ f = .stackEmpty := by
  unfold doReturn CallStack.pop
  cases hFrames : m.stack.frames with
  | nil => simp [attempt]
  | cons addr older => simp

/-- A call is refused if there is no room for the address of its own opcode. -/
theorem refusedWith_doCall (h : m.Equipped) (addr : Int) :
    RefusedWith (m.doCall addr) f ↔ m.stack.frames.length = 16 ∧ f = .stackFull m.pc := by
  have hDepth := h.depth_eq
  have hFrames := h.frames_le
  unfold doCall CallStack.push CallStack.size
  split
  · next hFull =>
      have hLength : m.stack.frames.length = 16 := by omega
      simp [attempt, hLength]
  · next hRoom =>
      have hLength : m.stack.frames.length ≠ 16 := by omega
      simp [hLength]

theorem refusedWith_doSkipKey {value : UInt8} (hValue : m.get x = .ok value) (held : Bool) :
    RefusedWith (m.doSkipKey x held) f ↔ 15 < value.toNat ∧ f = .invalidKey value.toNat x := by
  unfold doSkipKey keyIn
  rw [hValue, ok_bind]
  split
  · next hKey =>
      have hNot : ¬15 < value.toNat := by
        unfold keyCount at hKey
        omega
      simp [hNot]
  · next hKey =>
      have hOver : 15 < value.toNat := by
        unfold keyCount at hKey
        omega
      simp [attempt, hOver]

/-- A wait is refused only if a key is pressed that does not exist, and that is no fault of the
program's. -/
theorem not_refusedWith_doAwaitKey (hStray : m.stray = none) (hx : x.Exists)
    (hFault : f.isOfProgram = true ∨ ∀ batch ∈ m.script, ∀ e ∈ batch, e.Exists) :
    ¬RefusedWith (m.doAwaitKey x) f := by
  obtain ⟨k, rfl⟩ := hx.eq_ofSlot
  simp only [doAwaitKey, hStray]
  rcases Surface.awaitKey_ending m.script m.surface.clearPress with hEnd | ⟨key, hEnd⟩ | ⟨code, hEnd⟩
  · simp [hEnd]
  · simp [hEnd, Surface.key?_val]
  · rw [hEnd, refusedWith_error]
    rintro rfl
    rcases hFault with hProgram | hExists
    · cases hProgram
    · rcases Surface.awaitKey_ending_of_exists hExists m.surface.clearPress with h | ⟨key, h⟩
      · rw [hEnd] at h
        cases h
      · rw [hEnd] at h
        cases h

theorem refusedWith_doGlyph {value : UInt8} (hValue : m.get x = .ok value) :
    RefusedWith (m.doGlyph x) f ↔ 15 < value.toNat ∧ f = .noGlyph value.toNat := by
  have hOver : 0xF < value ↔ 15 < value.toNat := UInt8.lt_iff_toNat_lt
  unfold doGlyph
  rw [hValue, attempt_ok, ok_bind]
  split
  · next h => simp [hOver.1 h]
  · next h => simp [mt hOver.2 h]

/-! ## Memory -/

/-- A stretch at the index register is not covered if it goes beyond the end of memory. -/
theorem not_covers_indexAddr_iff (h : m.Equipped) (length : Int) :
    ¬m.memory.Covers m.indexAddr length ↔ 4095 < m.i.toNat + length := by
  have hSize := h.memory_size
  unfold Memory.Covers indexAddr
  omega

theorem refusedWith_doDecimal (h : m.Equipped) (hx : x.Exists) :
    RefusedWith (m.doDecimal x) f ↔
      4095 < (m.i.toNat : Int) + 3 ∧ f = .badAddress m.i.toNat 3 := by
  obtain ⟨k, rfl⟩ := hx.eq_ofSlot
  unfold doDecimal
  rw [get_ofSlot, attempt_ok, ok_bind, Memory.decimalDigits_toNat, Memory.writeNumbers_toNat,
    refusedWith_attempt, Memory.write_eq_error_iff, ← not_covers_indexAddr_iff h]
  simp [indexAddr]

theorem refusedWith_doSave (h : m.Equipped) (hx : x.Exists) :
    RefusedWith (m.doSave x) f ↔
      4095 < m.i.toNat + (x.index + 1) ∧ f = .badAddress m.i.toNat (x.index + 1) := by
  have hLength : ((m.v.toList.take (Bits.place registerCount (x.index + 1))).length : Int) =
      x.index + 1 := by
    obtain ⟨hLow, hHigh⟩ := hx
    rw [Bits.place, if_neg (by omega), List.length_take, Vector.length_toList]
    omega
  unfold doSave
  rw [refusedWith_attempt, Memory.write_eq_error_iff, hLength, not_covers_indexAddr_iff h]
  simp [indexAddr]

/-- Once the bytes are read, there is a register for each of them. -/
theorem refusedWith_doRestore (h : m.Equipped) (hx : x.Exists) :
    RefusedWith (m.doRestore x) f ↔
      4095 < m.i.toNat + (x.index + 1) ∧ f = .badAddress m.i.toNat (x.index + 1) := by
  unfold doRestore
  rw [refusedWith_attempt, Memory.read_eq_error_iff, not_covers_indexAddr_iff h]
  refine or_iff_left ?_
  rintro ⟨values, hRead, hSet⟩
  obtain ⟨hLow, hHigh⟩ := hx
  have hLength := Memory.length_of_read (by omega) hRead
  obtain ⟨v, hAll, -⟩ := setAll_eq_ok values 0 m (by omega)
  rw [hAll] at hSet
  exact not_refusedWith_ok hSet

/-! ## Pixels -/

theorem refusedWith_doDraw (h : m.Equipped) (hx : x.Exists) (hy : y.Exists) (rows : Int) :
    RefusedWith (m.doDraw x y rows) f ↔
      4095 < m.i.toNat + rows ∧ f = .badAddress m.i.toNat rows := by
  obtain ⟨k, rfl⟩ := hx.eq_ofSlot
  obtain ⟨l, rfl⟩ := hy.eq_ofSlot
  have hWidth : m.surface.display.width ≠ 0 := by simp [h.width_eq]
  have hHeight : m.surface.display.height ≠ 0 := by simp [h.height_eq]
  unfold doDraw
  rw [refusedWith_attempt, Memory.read_eq_error_iff, not_covers_indexAddr_iff h]
  refine or_iff_left ?_
  rintro ⟨sprite, -, hDraw⟩
  simp [Display.draw_eq_ok hWidth hHeight] at hDraw

/-! ## All instructions -/

theorem doSingle_refusedWith_iff (h : m.Equipped) (op : SingleOp) (hx : x.Exists)
    (hFault : f.isOfProgram = true ∨ ∀ batch ∈ m.script, ∀ e ∈ batch, e.Exists) :
    RefusedWith (m.doSingle x op) f ↔ (Instr.single op x).RefusedBy m f := by
  obtain ⟨value, hValue⟩ : ∃ value, m.get x = .ok value := by
    obtain ⟨k, rfl⟩ := hx.eq_ofSlot
    exact ⟨_, get_ofSlot m k⟩
  have hSet : ∀ n, ¬RefusedWith (m.set x n) f := by
    intro n
    obtain ⟨k, rfl⟩ := hx.eq_ofSlot
    simp
  cases op with
  | skipHeld =>
      rw [Instr.refusedBy_iff_of_digit rfl hValue]
      exact refusedWith_doSkipKey hValue true
  | skipFree =>
      rw [Instr.refusedBy_iff_of_digit rfl hValue]
      exact refusedWith_doSkipKey hValue false
  | glyph =>
      rw [Instr.refusedBy_iff_of_digit rfl hValue]
      exact refusedWith_doGlyph hValue
  | decimal =>
      rw [Instr.refusedBy_iff_of_stretch rfl]
      exact refusedWith_doDecimal h hx
  | save =>
      rw [Instr.refusedBy_iff_of_stretch rfl]
      exact refusedWith_doSave h hx
  | restore =>
      rw [Instr.refusedBy_iff_of_stretch rfl]
      exact refusedWith_doRestore h hx
  -- The others set a register, a timer or the index register, which is never refused.
  | shiftRight =>
      refine iff_of_false (by simp [doSingle, doShiftRight, hValue, hSet]) fun hRefused => ?_
      cases hRefused
  | shiftLeft =>
      refine iff_of_false (by simp [doSingle, doShiftLeft, hValue, hSet]) fun hRefused => ?_
      cases hRefused
  | getDelay =>
      refine iff_of_false (hSet _) fun hRefused => ?_
      cases hRefused
  | awaitKey =>
      refine iff_of_false (not_refusedWith_doAwaitKey h.stray_eq hx hFault) fun hRefused => ?_
      cases hRefused
  | setDelay | setSound | addIndex =>
      refine iff_of_false (by simp [doSingle, hValue]) fun hRefused => ?_
      cases hRefused

/-- An instruction that fits is refused exactly by the faults of the list. -/
theorem perform_refusedWith_iff (h : m.Equipped) {i : Instr} (hFits : i.Fits)
    (hFault : f.isOfProgram = true ∨ ∀ batch ∈ m.script, ∀ e ∈ batch, e.Exists) :
    RefusedWith (m.perform i) f ↔ i.RefusedBy m f := by
  cases i with
  | bare op =>
      cases op with
      | clear => exact iff_of_false not_refusedWith_ok nofun
      | ret => exact refusedWith_doReturn.trans Instr.refusedBy_ret_iff.symm
  | address op addr =>
      cases op with
      | sys => exact iff_of_false not_refusedWith_ok nofun
      | jump => exact iff_of_false not_refusedWith_ok nofun
      | setIndex => exact iff_of_false not_refusedWith_ok nofun
      | call => exact (refusedWith_doCall h addr).trans Instr.refusedBy_call_iff.symm
      | jumpV0 =>
          have hZero : m.get ⟨0⟩ = .ok (m.v.get 0) := get_ofSlot m 0
          exact iff_of_false (by simp [perform, doAddress, hZero]) nofun
  | binary op x y => exact iff_of_false (not_refusedWith_doBinary hFits.1 hFits.2 op) nofun
  | pair op x y => exact iff_of_false (not_refusedWith_doPair hFits.1 hFits.2 op) nofun
  | random x mask => exact iff_of_false (not_refusedWith_doRandom hFits.1 mask) nofun
  | single op x => exact doSingle_refusedWith_iff h op hFits hFault
  | draw x y rows =>
      rw [Instr.refusedBy_iff_of_stretch rfl]
      exact refusedWith_doDraw h hFits.1 hFits.2.1 rows

/-- Moving the program counter on is never refused. -/
theorem refusedWith_execute {i : Instr} : RefusedWith (m.execute i) f ↔ RefusedWith (m.perform i) f :=
  refusedWith_bind_ok

/-! ## Cycles -/

theorem cycle_refusedWith_of_fault (h : m.Equipped)
    (hFault : f.isOfProgram = true ∨ ∀ batch ∈ m.script, ∀ e ∈ batch, e.Exists) :
    RefusedWith m.cycle f ↔ m.Refuses f := by
  have hSize := h.memory_size
  have hTwo : (opcodeSize : Int) = 2 := rfl
  -- Counting the cycle is no more refused than moving the program counter on.
  have hCarryOut : ∀ {i : Instr}, i.Fits →
      (RefusedWith (m.execute i >>= fun n => .ok { n with cycles := n.cycles + 1 }) f ↔
        i.RefusedBy m f) :=
    fun hFits => (refusedWith_bind_ok.trans refusedWith_execute).trans
      (perform_refusedWith_iff h hFits hFault)
  unfold cycle
  rw [refusedWith_attempt, Memory.instrAt_eq_error_iff]
  constructor
  · rintro ((⟨hBeyond, rfl⟩ | ⟨⟨hLow, hHigh⟩, hNone, rfl⟩) | ⟨i, hInstr, hRefused⟩)
    · refine .fetch ?_
      unfold Memory.Covers at hBeyond
      omega
    · exact .decode hLow (by omega) hNone
    · obtain ⟨⟨hLow, hHigh⟩, hDecode⟩ := Memory.instrAt_eq_ok_iff.1 hInstr
      exact .instr hLow (by omega) hDecode
        ((hCarryOut (Instr.fits_of_decode? hDecode)).1 hRefused)
  · intro hRefuses
    cases hRefuses with
    | fetch hBeyond =>
        refine .inl (.inl ⟨?_, rfl⟩)
        unfold Memory.Covers
        omega
    | decode hLow hHigh hNone => exact .inl (.inr ⟨⟨hLow, by omega⟩, hNone, rfl⟩)
    | @instr i f hLow hHigh hDecode hRefused =>
        refine .inr ⟨i, Memory.instrAt_eq_ok_iff.2 ⟨⟨hLow, by omega⟩, hDecode⟩, ?_⟩
        exact (hCarryOut (Instr.fits_of_decode? hDecode)).2 hRefused

/-- A cycle is refused by a fault of the program exactly if the lists say so, and where no key is
pressed that does not exist there are no other faults. -/
theorem cycle_refusedWith_iff (h : m.Equipped) :
    (∀ f, f.isOfProgram = true → (RefusedWith m.cycle f ↔ m.Refuses f)) ∧
      ((∀ batch ∈ m.script, ∀ e ∈ batch, e.Exists) →
        ∀ f, RefusedWith m.cycle f ↔ m.Refuses f) :=
  ⟨fun _ hFault => cycle_refusedWith_of_fault h (.inl hFault),
    fun hExists _ => cycle_refusedWith_of_fault h (.inr hExists)⟩

/-- A sprite without rows is drawn where memory ends, and refused one byte further on. -/
theorem cycle_refusedWith_iff_at_memory_end :
    ∃ memory, Memory.ofRom [0xD0, 0x00] = .ok memory ∧
      ({ memory, i := 4096 } : Machine).Equipped ∧
      RefusedWith ({ memory, i := 4096 } : Machine).cycle (.badAddress 4096 0) ∧
      ∀ f, ¬RefusedWith ({ memory, i := 4095 } : Machine).cycle f := by
  have hRom : ([0xD0, 0x00] : List UInt8).length ≤ maxRomSize := by decide
  obtain ⟨memory, hMemory⟩ : ∃ memory, Memory.ofRom [0xD0, 0x00] = .ok memory :=
    ⟨_, Memory.ofRom_eq_ok hRom⟩
  have hEquipped : ∀ i, ({ memory, i } : Machine).Equipped := fun i =>
    ⟨Memory.size_of_ofRom hMemory, rfl, Nat.zero_le 16, rfl, rfl, rfl⟩
  have hNoKeys : ∀ i, ∀ batch ∈ ({ memory, i } : Machine).script, ∀ e ∈ batch, e.Exists :=
    fun i batch hBatch => absurd hBatch List.not_mem_nil
  have hDecode : Instr.decode? (memory.wordAt (romBase : Int).toNat) = some (.draw ⟨0⟩ ⟨0⟩ 0) := by
    rw [show (romBase : Int).toNat = romBase + 0 from rfl,
      Memory.wordAt_of_ofRom hMemory (show 0 + 1 < 2 by decide)]
    rfl
  refine ⟨memory, hMemory, hEquipped 4096, ?_, fun f hRefused => ?_⟩
  · refine ((cycle_refusedWith_iff (hEquipped 4096)).1 _ rfl).2 ?_
    exact .instr (show (0 : Int) ≤ 0x200 by decide) (show (0x200 : Int) + 2 ≤ 4095 by decide) hDecode
      (.draw (show (4095 : Int) < 4096 + 0 by decide))
  · -- The bytes of the opcode are there, it is an instruction, and its sprite ends with memory.
    cases ((cycle_refusedWith_iff (hEquipped 4095)).2 (hNoKeys 4095) f).1 hRefused with
    | fetch hBeyond =>
        exact absurd hBeyond (show ¬((0x200 : Int) < 0 ∨ (4095 : Int) < 0x200 + 2) by decide)
    | decode _ _ hNone =>
        rw [hDecode] at hNone
        cases hNone
    | instr _ _ hOther hList =>
        cases hDecode.symm.trans hOther
        cases hList with
        | draw hBeyond => exact absurd hBeyond (show ¬(4095 : Int) < 4095 + 0 by decide)

end

end Machine

end Chip8
