import Chip8.Proofs.Machine.Course

/-!
# What a program stores

Of all instructions only `LD B` and `LD [I]` write bytes, and each only the stretch that it is made for
(`byte_mem_footprint_iff`).  So a byte of memory is what it was at first, a glyph, a byte of the program
or zero, unless one of the two was carried out over it (`byteAt_actAll_of_rom`).  It does not matter
whether a program changes itself on the way, which of its cycles are refused, or what happens at the
surface and to the timers meanwhile.
-/

namespace Chip8

namespace Memory

/-- The byte at an address before a program stored anything. -/
def initialByte (rom : List UInt8) (a : Nat) : UInt8 :=
  if a < glyphs.size then glyphs.getD a 0
  else if romBase ≤ a then rom.getD (a - romBase) 0
  else 0

theorem byteAt_ofSize {size : Nat} (h : glyphs.size ≤ size) (a : Nat) :
    (ofSize size).byteAt a = if a < glyphs.size then glyphs.getD a 0 else 0 := by
  have hRoom : 0 + glyphs.toList.length ≤ (⟨Array.replicate size 0⟩ : Memory).size := by
    rw [Nat.zero_add, Array.length_toList]
    exact Nat.le_trans h (Nat.le_of_eq Array.size_replicate.symm)
  have hBlank : (⟨Array.replicate size 0⟩ : Memory).byteAt a = 0 := by
    simp only [byteAt, Array.getD_eq_getD_getElem?, Array.getElem?_replicate]
    split <;> rfl
  rw [ofSize, byteAt_replace hRoom, hBlank, Nat.zero_add, Nat.sub_zero, Array.length_toList]
  simp only [Nat.zero_le, true_and, List.getD_eq_getElem?_getD, Array.getElem?_toList,
    Array.getD_eq_getD_getElem?]

/-- A memory that holds a program has its bytes, the glyphs, and zeros elsewhere. -/
theorem byteAt_eq_initialByte {rom : List UInt8} {m : Memory} (h : ofRom rom = .ok m) (a : Nat) :
    m.byteAt a = initialByte rom a := by
  obtain ⟨hLength, rfl⟩ := eq_of_ofRom h
  have hGlyphs : glyphs.size ≤ romBase := by decide
  rw [byteAt_replace (romBase_add_length_le hLength), byteAt_ofSize (by decide), initialByte]
  by_cases hGlyph : a < glyphs.size
  · rw [if_neg (by omega), if_pos hGlyph, if_pos hGlyph]
  · rw [if_neg hGlyph, if_neg hGlyph]
    by_cases hProgram : romBase ≤ a
    · rw [if_pos hProgram]
      split
      · rfl
      · rw [List.getD_eq_getElem?_getD, List.getElem?_eq_none (by omega), Option.getD_none]
    · rw [if_neg hProgram, if_neg fun hInside => hProgram hInside.1]

end Memory

namespace Machine

/-- The moment is a cycle that stores something at the address: `LD B` its three digits, `LD [I]` the
registers up to the one that it names. -/
def Moment.Stores (e : Moment) (a : Nat) : Prop :=
  e.machine.i.toNat ≤ a ∧ ∃ x,
    e.CarriesOut (.single .decimal x) ∧ a < e.machine.i.toNat + 3 ∨
      e.CarriesOut (.single .save x) ∧ (a : Int) ≤ e.machine.i.toNat + x.index

variable {m n left : Machine} {i : Instr} {f : Fault} {a : Nat}

/-! ## One instruction -/

/-- The bytes that an instruction may write. -/
theorem byte_mem_footprint_iff :
    Part.byte a ∈ i.footprint m ↔ m.i.toNat ≤ a ∧ ∃ x,
      i = .single .decimal x ∧ a < m.i.toNat + 3 ∨
        i = .single .save x ∧ (a : Int) ≤ m.i.toNat + x.index := by
  cases i with
  | bare op => cases op <;> simp [Instr.footprint]
  | address op addr => cases op <;> simp [Instr.footprint]
  | binary op x y => cases op <;> simp [Instr.footprint, Part.ofReg, Part.flag]
  | pair op x y => cases op <;> simp [Instr.footprint, Part.ofReg, Part.flag]
  | single op x =>
      cases op with
      | decimal =>
          simp only [Instr.footprint, Part.stretch, Set.mem_ofPred_eq, Part.byte.injEq,
            exists_eq_left', Instr.single.injEq, true_and, reduceCtorEq, false_and, or_false]
          omega
      | save =>
          simp only [Instr.footprint, Part.stretch, Set.mem_ofPred_eq, Part.byte.injEq,
            exists_eq_left', Instr.single.injEq, true_and, reduceCtorEq, false_and, false_or]
          omega
      | _ => simp [Instr.footprint, Part.ofReg, Part.upTo, Part.flag]
  | random x mask => simp [Instr.footprint, Part.ofReg]
  | draw x y rows => simp [Instr.footprint, Part.flag]

/-- What is looked up before anything is changed is refused without a trace. -/
theorem eq_or_of_attempt_error {α : Type} {r : Except Fault α} {next : α → Result}
    (h : (m.attempt r >>= next) = .error (f, left)) :
    left = m ∨ ∃ value, r = .ok value ∧ next value = .error (f, left) := by
  cases r with
  | ok value => exact .inr ⟨value, rfl, h⟩
  | error g =>
      cases h
      exact .inl rfl

theorem eq_of_doDecimal_error {x : Reg} (h : m.doDecimal x = .error (f, left)) : left = m := by
  rcases eq_or_of_attempt_error h with hLeft | ⟨value, -, hWrite⟩
  · exact hLeft
  · rcases eq_or_of_attempt_error hWrite with hLeft | ⟨memory, -, hNever⟩
    · exact hLeft
    · cases hNever

theorem eq_of_doSave_error {x : Reg} (h : m.doSave x = .error (f, left)) : left = m := by
  rcases eq_or_of_attempt_error h with hLeft | ⟨memory, -, hNever⟩
  · exact hLeft
  · cases hNever

/-- An instruction that is refused stores nothing. -/
theorem byteAt_of_execute_error (hFits : i.Fits) (h : m.execute i = .error (f, left)) (a : Nat) :
    left.memory.byteAt a = m.memory.byteAt a := by
  have hPerform := execute_eq_error_iff.1 h
  by_cases hWritten : Part.byte a ∈ i.footprint m
  · obtain ⟨-, x, ⟨rfl, -⟩ | ⟨rfl, -⟩⟩ := byte_mem_footprint_iff.1 hWritten
    · rw [eq_of_doDecimal_error hPerform]
    · rw [eq_of_doSave_error hPerform]
  · have hSame := perform_agreesOff (m := m) hFits _ hWritten
    rw [hPerform] at hSame
    exact hSame

/-! ## Histories -/

/-- A cycle that does not store at an address leaves the byte there, refused or not. -/
theorem byteAt_of_cycle (h : ¬(⟨m, .cycle⟩ : Moment).Stores a) :
    (after m.cycle).memory.byteAt a = m.memory.byteAt a := by
  cases hCycle : m.cycle with
  | ok next =>
      obtain ⟨i, reached, hInstr, hExecute, rfl⟩ := cycle_eq_ok_iff.1 hCycle
      have hFits := fits_of_instrAt hInstr
      have hOutside : Part.byte a ∉ i.footprint m ∪ {.counter} := by
        rintro (hWritten | hCounter)
        · obtain ⟨hLow, x, hStore⟩ := byte_mem_footprint_iff.1 hWritten
          refine h ⟨hLow, x, ?_⟩
          rcases hStore with ⟨rfl, hHigh⟩ | ⟨rfl, hHigh⟩
          · exact .inl ⟨⟨rfl, hInstr, _, hCycle⟩, hHigh⟩
          · exact .inr ⟨⟨rfl, hInstr, _, hCycle⟩, hHigh⟩
        · cases hCounter
      have hSame := execute_agreesOff hFits _ hOutside
      rw [hExecute] at hSame
      exact hSame
  | error failure =>
      rcases cycle_eq_error_iff.1 hCycle with ⟨-, hLeft⟩ | ⟨i, hInstr, hExecute⟩
      · exact congrArg (fun n => n.memory.byteAt a) hLeft
      · have hFits := fits_of_instrAt hInstr
        exact byteAt_of_execute_error hFits hExecute a

/-- Apart from cycles nothing touches memory. -/
theorem memory_act {action : Action} (hCycle : action ≠ .cycle)
    (hRun : ∀ limit, action ≠ .run limit) (m : Machine) : (m.act action).memory = m.memory := by
  rcases act_cases hCycle hRun m with ⟨-, hAct⟩ | ⟨-, hAct⟩ | ⟨-, surface, hAct⟩
  · rw [hAct]
  · rw [hAct]
  · rw [hAct]

/-- A byte is what it was unless one of the moments of a history stored at its address. -/
theorem byteAt_actAll (m : Machine) (actions : List Action) (a : Nat)
    (h : ∀ e ∈ m.course actions, ¬e.Stores a) :
    (m.actAll actions).memory.byteAt a = m.memory.byteAt a := by
  refine course_induction (R := fun m c n => (∀ e ∈ c, ¬e.Stores a) →
    n.memory.byteAt a = m.memory.byteAt a) ?refl ?trans ?turn ?single actions m h
  case refl =>
    intro m _
    rfl
  case trans =>
    intro m n o c d hFirst hSecond hBoth
    obtain ⟨hBefore, hAfter⟩ := List.forall_mem_append.1 hBoth
    exact (hSecond hAfter).trans (hFirst hBefore)
  case turn =>
    intro m mode _
    rfl
  case single =>
    intro m action hSingle hMoment
    by_cases hCycle : action = .cycle
    · subst hCycle
      exact byteAt_of_cycle (hMoment _ (List.mem_singleton_self _))
    · rw [memory_act hCycle hSingle]

/-- No history makes memory longer or shorter. -/
theorem size_memory_actAll (m : Machine) (actions : List Action) :
    (m.actAll actions).memory.size = m.memory.size := by
  refine course_induction (R := fun m _ n => n.memory.size = m.memory.size)
    ?refl ?trans ?turn ?single actions m
  case refl =>
    intro m
    rfl
  case trans =>
    intro m n o c d hFirst hSecond
    exact hSecond.trans hFirst
  case turn =>
    intro m mode
    rfl
  case single =>
    intro m action hSingle
    by_cases hCycle : action = .cycle
    · subst hCycle
      exact size_memory_cycle m
    · rw [memory_act hCycle hSingle]

/-- Data stand where they stood unless one of the moments of a history stored something over them. -/
theorem holds_actAll {actions : List Action} {data : List UInt8} (h : m.memory.Holds a data)
    (hNothing : ∀ e ∈ m.course actions, ∀ b, a ≤ b → b < a + data.length → ¬e.Stores b) :
    (m.actAll actions).memory.Holds a data := by
  obtain ⟨hCovers, hBytes⟩ := h
  refine ⟨?_, fun j hj => ?_⟩
  · rw [Memory.Covers, size_memory_actAll]
    exact hCovers
  · rw [byteAt_actAll m actions (a + j) fun e he => hNothing e he _ (by omega) (by omega)]
    exact hBytes j hj

/-- An instruction that is carried out changes no part of the machine but those in its footprint and
the program counter; and however long a program runs, and whatever else happens, a byte at whose
address it has stored nothing is the glyph's, the program's or the zero that it was at first. -/
theorem byteAt_actAll_of_rom {rom : List UInt8} (hRom : rom.length ≤ maxRomSize) :
    (∀ {w : Int} {i : Instr} {m n : Machine}, Instr.decode? w = some i → m.execute i = .ok n →
      AgreesOff (i.footprint m ∪ {.counter}) m n) ∧
    ∃ m, ofRom rom = .ok m ∧
      ∀ (random : Nat → UInt8) (script : List (List KeyEvent)) (actions : List Action) (a : Nat),
        (∀ e ∈ ({ m with random, script } : Machine).course actions, ¬e.Stores a) →
          (({ m with random, script } : Machine).actAll actions).memory.byteAt a =
            Memory.initialByte rom a := by
  constructor
  · intro w i m n hDecode hExecute
    have hAgrees := execute_agreesOff (m := m) (Instr.fits_of_decode? hDecode)
    rw [hExecute] at hAgrees
    exact hAgrees
  · obtain ⟨memory, hMemory, hLoad⟩ := exists_ofRom hRom
    refine ⟨{ memory }, hLoad, fun random script actions a hNothing => ?_⟩
    exact (byteAt_actAll _ actions a hNothing).trans (Memory.byteAt_eq_initialByte hMemory a)

/-- Three digits are stored over the first glyph, and its fourth byte is what it was. -/
theorem byteAt_actAll_of_rom_beside_digits :
    ([0xF0, 0x33] : List UInt8).length ≤ maxRomSize ∧
      Instr.decode? 0xF033 = some (.single .decimal ⟨0⟩) ∧
      ∃ m n, ofRom [0xF0, 0x33] = .ok m ∧ m.execute (.single .decimal ⟨0⟩) = .ok n ∧
        AgreesOff ((Instr.single .decimal ⟨0⟩).footprint m ∪ {.counter}) m n ∧
        (∀ e ∈ m.course [.cycle, .tickDelay], ¬e.Stores 3) ∧
        (m.actAll [.cycle, .tickDelay]).memory.byteAt 3 = 0x90 := by
  have hRom : ([0xF0, 0x33] : List UInt8).length ≤ maxRomSize := by decide
  have hDecode : Instr.decode? 0xF033 = some (.single .decimal ⟨0⟩) := rfl
  obtain ⟨hFrame, m, hLoad, hAlways⟩ := byteAt_actAll_of_rom hRom
  obtain ⟨memory, hMemory, hMachine⟩ := bind_eq_ok_iff.1 hLoad
  cases hMachine
  have hInstr := Memory.instrAt_of_ofRom hMemory (show 0 + 1 < 2 by decide) hDecode
  have hWrite : memory.write 0 [0, 0, 0] = .ok (memory.replace 0 [0, 0, 0]) := by
    refine Memory.write_eq_ok_iff.2 ⟨⟨by decide, ?_⟩, rfl⟩
    rw [Memory.size_of_ofRom hMemory]
    decide
  have hExecute : ({ memory } : Machine).execute (.single .decimal ⟨0⟩) =
      .ok { memory := memory.replace 0 [0, 0, 0], pc := romBase + opcodeSize } := by
    have hGet : ({ memory } : Machine).get ⟨0⟩ = .ok 0 := rfl
    rw [execute_of_not_isJump rfl]
    simp only [perform, doSingle, doDecimal, hGet, attempt_ok, ok_bind,
      Memory.decimalDigits_toNat, Memory.writeNumbers_toNat]
    show (({ memory } : Machine).attempt (memory.write 0 [0, 0, 0]) >>= _) >>= _ = _
    rw [hWrite]
    rfl
  have hNothing : ∀ e ∈ ({ memory } : Machine).course [.cycle, .tickDelay], ¬e.Stores 3 := by
    intro e he hStores
    obtain ⟨-, x, hStore⟩ := hStores
    rcases List.mem_cons.1 he with rfl | hTick
    · -- The digits end before the fourth byte, and no registers are stored.
      rcases hStore with ⟨-, hHigh⟩ | ⟨⟨-, hSave, -⟩, -⟩
      · exact absurd hHigh (show ¬3 < 0 + 3 by decide)
      · cases hInstr.symm.trans hSave
    · cases List.mem_singleton.1 hTick
      rcases hStore with ⟨⟨hCycle, -⟩, -⟩ | ⟨⟨hCycle, -⟩, -⟩
      · cases hCycle
      · cases hCycle
  exact ⟨hRom, hDecode, _, _, hLoad, hExecute, hFrame hDecode hExecute, hNothing,
    hAlways (fun _ => 0) [] _ 3 hNothing⟩

end Machine

end Chip8
