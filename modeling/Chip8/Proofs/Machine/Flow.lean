import Chip8.Proofs.Machine.Calls

/-!
# Where an instruction leads

`Instr.LeadsTo` lists where the program counter stands after an instruction that succeeds.  Three
instructions set it and nothing is added, a return goes to what comes after the latest saved address,
and the skips decide between the next instruction and the one after it.  All others, whatever they write
into registers, memory or elsewhere, go on to the next (`counter_notMem_footprint`).
-/

namespace Chip8

/-- The program counter after the instruction.  The condition of a skip is read off the machine before
it, and a key is held if it is among the held ones, whatever was pressed or polled. -/
inductive Instr.LeadsTo (m : Machine) : Instr → Int → Prop where
  | jump {addr : Int} : LeadsTo m (.address .jump addr) addr
  /-- The sum is not cut, so it may lie beyond memory. -/
  | jumpV0 {addr : Int} : LeadsTo m (.address .jumpV0 addr) (addr + (m.v.get 0).toNat)
  | call {addr : Int} : LeadsTo m (.address .call addr) addr
  | ret {addr : Int} {older : List Int} (h : m.stack.frames = addr :: older) :
      LeadsTo m (.bare .ret) (addr + 2)
  | skipEq {x : Reg} {y : Operand} {a : UInt8} {b : Int} (hx : m.get x = .ok a)
      (hy : m.operand y = .ok b) :
      LeadsTo m (.binary .skipEq x y) (if (a.toNat : Int) = b then m.pc + 4 else m.pc + 2)
  | skipNe {x : Reg} {y : Operand} {a : UInt8} {b : Int} (hx : m.get x = .ok a)
      (hy : m.operand y = .ok b) :
      LeadsTo m (.binary .skipNe x y) (if (a.toNat : Int) = b then m.pc + 2 else m.pc + 4)
  | skipHeld {x : Reg} {a : UInt8} {key : Key} {held : Bool} (hx : m.get x = .ok a)
      (hKey : key.val = a.toNat) (hHeld : held = true ↔ key ∈ m.surface.keypad.held) :
      LeadsTo m (.single .skipHeld x) (if held then m.pc + 4 else m.pc + 2)
  | skipFree {x : Reg} {a : UInt8} {key : Key} {held : Bool} (hx : m.get x = .ok a)
      (hKey : key.val = a.toNat) (hHeld : held = true ↔ key ∈ m.surface.keypad.held) :
      LeadsTo m (.single .skipFree x) (if held then m.pc + 2 else m.pc + 4)
  | next {i : Instr} (h : i.isFlow = false) : LeadsTo m i (m.pc + 2)

namespace Machine

variable {m n next : Machine} {i : Instr} {x : Reg} {y : Operand}

/-! ## Instructions without flow -/

/-- The program counter is no part that an instruction without flow writes. -/
theorem counter_notMem_footprint (h : i.isFlow = false) : Part.counter ∉ i.footprint m := by
  intro hCounter
  cases i with
  | bare op =>
      cases op with
      | ret => cases h
      | clear => simp [Instr.footprint] at hCounter
  | address op addr =>
      cases op with
      | sys | setIndex => simp [Instr.footprint] at hCounter
      | jump | call | jumpV0 => cases h
  | binary op x y =>
      cases op with
      | skipEq | skipNe => cases h
      | load | add => simp [Instr.footprint, Part.ofReg, Part.flag] at hCounter
  | pair op x y => cases op <;> simp [Instr.footprint, Part.ofReg, Part.flag] at hCounter
  | single op x =>
      cases op with
      | skipHeld | skipFree => cases h
      | _ => simp [Instr.footprint, Part.ofReg, Part.upTo, Part.flag, Part.stretch] at hCounter
  | random x mask => simp [Instr.footprint, Part.ofReg] at hCounter
  | draw x y rows => simp [Instr.footprint, Part.flag] at hCounter

theorem pc_of_execute_quiet (hFits : i.Fits) (hQuiet : i.isFlow = false)
    (h : m.execute i = .ok next) : next.pc = m.pc + 2 := by
  rw [execute_of_not_isJump (isJump_of_quiet hQuiet)] at h
  obtain ⟨n, hPerform, hNext⟩ := bind_eq_ok_iff.1 h
  have hSame := perform_agreesOff hFits Part.counter (counter_notMem_footprint (m := m) hQuiet)
  rw [hPerform] at hSame
  cases hNext
  exact congrArg (· + 2) hSame

/-! ## Skips -/

theorem pc_advance_skipIf (m : Machine) (p : Prop) [Decidable p] :
    (m.skipIf (decide p)).advance.pc = if p then m.pc + 4 else m.pc + 2 := by
  by_cases h : p
  · rw [if_pos h, decide_eq_true h]
    exact Int.add_assoc m.pc 2 2
  · rw [if_neg h, decide_eq_false h]
    rfl

theorem doBinary_skip_leads (x : Reg) (y : Operand) :
    Ends m (fun n => (Instr.binary .skipEq x y).LeadsTo m n.advance.pc) (m.doBinary x y .skipEq) ∧
      Ends m (fun n => (Instr.binary .skipNe x y).LeadsTo m n.advance.pc)
        (m.doBinary x y .skipNe) := by
  constructor
  · refine .attempt fun a hx => .attempt fun b hy => .ok ?_
    rw [pc_advance_skipIf]
    exact .skipEq hx hy
  · refine .attempt fun a hx => .attempt fun b hy => .ok ?_
    rw [pc_advance_skipIf, ite_not]
    exact .skipNe hx hy

/-- What is found in the register of a key skip is the number of a key. -/
theorem exists_key_of_keyIn {code : Int} (h : m.keyIn x = .ok code) :
    ∃ (a : UInt8) (key : Key), m.get x = .ok a ∧ key.val = a.toNat ∧ code = key.val := by
  obtain ⟨a, hValue, h⟩ := bind_eq_ok_iff.1 h
  split at h
  · next hKey =>
      cases h
      exact ⟨a, ⟨a.toNat, hKey⟩, hValue, rfl, rfl⟩
  · cases h

theorem keyHeld_val (s : Surface) (key : Key) :
    s.keyHeld key.val = true ↔ key ∈ s.keypad.held := by
  simp [Surface.keyHeld, Surface.key?_val]

theorem doSkipKey_leads (x : Reg) :
    Ends m (fun n => (Instr.single .skipHeld x).LeadsTo m n.advance.pc) (m.doSkipKey x true) ∧
      Ends m (fun n => (Instr.single .skipFree x).LeadsTo m n.advance.pc)
        (m.doSkipKey x false) := by
  constructor
  · refine .attempt fun code hCode => .ok ?_
    obtain ⟨a, key, hx, hKey, rfl⟩ := exists_key_of_keyIn hCode
    rw [pc_advance_skipIf]
    exact .skipHeld hx hKey (keyHeld_val m.surface key)
  · refine .attempt fun code hCode => .ok ?_
    obtain ⟨a, key, hx, hKey, rfl⟩ := exists_key_of_keyIn hCode
    rw [pc_advance_skipIf]
    simp only [Bool.eq_false_iff, ne_eq, ite_not]
    exact .skipFree hx hKey (keyHeld_val m.surface key)

/-! ## Jumps, calls and returns -/

theorem doReturn_leads : Ends m (fun n => (Instr.bare .ret).LeadsTo m n.advance.pc) m.doReturn := by
  refine .attempt fun popped hPop => .ok ?_
  exact .ret (CallStack.pop_eq_ok_iff.1 hPop).1

theorem doAddress_leads (addr : Int) :
    Ends m (fun n => (Instr.address .jump addr).LeadsTo m n.pc) (m.doAddress addr .jump) ∧
      Ends m (fun n => (Instr.address .call addr).LeadsTo m n.pc) (m.doAddress addr .call) ∧
      Ends m (fun n => (Instr.address .jumpV0 addr).LeadsTo m n.pc) (m.doAddress addr .jumpV0) := by
  refine ⟨.ok .jump, .attempt fun stack _ => .ok .call, .attempt fun offset hOffset => .ok ?_⟩
  cases hOffset.symm.trans (get_ofSlot m 0)
  exact .jumpV0

/-! ## All instructions -/

theorem leadsTo_of_execute (hFits : i.Fits) (h : m.execute i = .ok next) :
    i.LeadsTo m next.pc := by
  by_cases hQuiet : i.isFlow = false
  · rw [pc_of_execute_quiet hFits hQuiet h]
    exact .next hQuiet
  · have hEnds : Ends m (fun n => i.LeadsTo m n.pc) (m.execute i) := by
      cases i with
      | bare op =>
          cases op with
          | clear => exact absurd rfl hQuiet
          | ret =>
              rw [execute_of_not_isJump rfl]
              exact doReturn_leads.bind_ok fun n hn => hn
      | address op addr =>
          cases op with
          | sys | setIndex => exact absurd rfl hQuiet
          | jump =>
              rw [execute_of_isJump rfl]
              exact (doAddress_leads addr).1
          | call =>
              rw [execute_of_isJump rfl]
              exact (doAddress_leads addr).2.1
          | jumpV0 =>
              rw [execute_of_isJump rfl]
              exact (doAddress_leads addr).2.2
      | binary op x y =>
          rw [execute_of_not_isJump rfl]
          cases op with
          | skipEq => exact (doBinary_skip_leads x y).1.bind_ok fun n hn => hn
          | skipNe => exact (doBinary_skip_leads x y).2.bind_ok fun n hn => hn
          | load | add => exact absurd rfl hQuiet
      | single op x =>
          rw [execute_of_not_isJump rfl]
          cases op with
          | skipHeld => exact (doSkipKey_leads x).1.bind_ok fun n hn => hn
          | skipFree => exact (doSkipKey_leads x).2.bind_ok fun n hn => hn
          | _ => exact absurd rfl hQuiet
      | pair op x y => exact absurd rfl hQuiet
      | random x mask => exact absurd rfl hQuiet
      | draw x y rows => exact absurd rfl hQuiet
    rwa [h] at hEnds

/-- An instruction leads to one place only. -/
theorem leadsTo_unique {pc other : Int} (h : i.LeadsTo m pc) (h' : i.LeadsTo m other) :
    pc = other := by
  cases h with
  | jump | jumpV0 | call =>
      cases h' with
      | next hQuiet => cases hQuiet
      | _ => rfl
  | ret hFrames =>
      cases h' with
      | ret hSame =>
          cases hFrames.symm.trans hSame
          rfl
      | next hQuiet => cases hQuiet
  | skipEq hx hy =>
      cases h' with
      | skipEq hx' hy' =>
          cases hx.symm.trans hx'
          cases hy.symm.trans hy'
          rfl
      | next hQuiet => cases hQuiet
  | skipNe hx hy =>
      cases h' with
      | skipNe hx' hy' =>
          cases hx.symm.trans hx'
          cases hy.symm.trans hy'
          rfl
      | next hQuiet => cases hQuiet
  | skipHeld hx hKey hHeld =>
      cases h' with
      | skipHeld hx' hKey' hHeld' =>
          cases hx.symm.trans hx'
          cases Fin.ext (hKey.trans hKey'.symm)
          cases Bool.eq_iff_iff.2 (hHeld.trans hHeld'.symm)
          rfl
      | next hQuiet => cases hQuiet
  | skipFree hx hKey hHeld =>
      cases h' with
      | skipFree hx' hKey' hHeld' =>
          cases hx.symm.trans hx'
          cases Fin.ext (hKey.trans hKey'.symm)
          cases Bool.eq_iff_iff.2 (hHeld.trans hHeld'.symm)
          rfl
      | next hQuiet => cases hQuiet
  | next hQuiet =>
      cases h' with
      | next => rfl
      | _ => cases hQuiet

/-- Where the program counter stands after an instruction that succeeds is told by the instruction and
by the machine before it.  So it is after a cycle that succeeds, by the instruction that the cycle finds
in memory, also where this instruction is overwritten by what it does. -/
theorem pc_eq_iff_leadsTo (m : Machine) :
    (∀ word i next, Instr.decode? word = some i → m.execute i = .ok next →
      ∀ pc, next.pc = pc ↔ i.LeadsTo m pc) ∧
    ∀ next, m.cycle = .ok next →
      ∃ i, m.memory.instrAt m.pc = .ok i ∧ ∀ pc, next.pc = pc ↔ i.LeadsTo m pc := by
  have hExecute : ∀ {i : Instr} {next : Machine}, i.Fits → m.execute i = .ok next →
      ∀ pc, next.pc = pc ↔ i.LeadsTo m pc := by
    intro i next hFits h pc
    have hLeads := leadsTo_of_execute hFits h
    exact ⟨fun hSame => hSame ▸ hLeads, leadsTo_unique hLeads⟩
  refine ⟨fun word i next hDecode => hExecute (Instr.fits_of_decode? hDecode),
    fun next hCycle => ?_⟩
  obtain ⟨i, reached, hInstr, hReached, rfl⟩ := cycle_eq_ok_iff.1 hCycle
  exact ⟨i, hInstr, fun pc => hExecute (fits_of_instrAt hInstr) hReached pc⟩

/-- A skip over a key that is held although its press was taken, a jump beyond memory, and an
instruction that stores two registers over itself. -/
theorem pc_eq_iff_leadsTo_beyond_memory :
    let m : Machine :=
      { memory := ⟨#[0xF1, 0x55]⟩, pc := 0, v := .replicate _ 7,
        surface := { keypad := { held := [3, 7] } } }
    (Instr.decode? 0xE29E = some (.single .skipHeld ⟨2⟩) ∧
      ∃ next, m.execute (.single .skipHeld ⟨2⟩) = .ok next ∧ next.pc = 4) ∧
    (Instr.decode? 0xBFFF = some (.address .jumpV0 0xFFF) ∧
      ∃ next, m.execute (.address .jumpV0 0xFFF) = .ok next ∧ next.pc = 0x1006) ∧
    ∃ next, m.cycle = .ok next ∧ next.memory = ⟨#[7, 7]⟩ ∧ next.pc = 2 := by
  have hInstr : (⟨#[0xF1, 0x55]⟩ : Memory).instrAt 0 = .ok (.single .save ⟨1⟩) :=
    Memory.instrAt_eq_ok_iff.2 ⟨⟨by decide, by decide⟩, rfl⟩
  intro m
  obtain ⟨hExecute, hCycle⟩ := pc_eq_iff_leadsTo m
  have hSave : m.execute (.single .save ⟨1⟩) = .ok { m with memory := ⟨#[7, 7]⟩, pc := 2 } := rfl
  have hNext : m.cycle = .ok { m with memory := ⟨#[7, 7]⟩, pc := 2, cycles := 1 } :=
    cycle_eq_ok_iff.2 ⟨_, _, hInstr, hSave, rfl⟩
  refine ⟨⟨rfl, _, rfl, ?_⟩, ⟨rfl, _, rfl, ?_⟩, _, hNext, rfl, ?_⟩
  · have hHeld : (7 : Key) ∈ m.surface.keypad.held := by decide
    have hKey : (7 : Key).val = (7 : UInt8).toNat := rfl
    have hSkip : (Instr.single .skipHeld ⟨2⟩).LeadsTo m 4 :=
      .skipHeld (show m.get ⟨2⟩ = .ok 7 from rfl) hKey (iff_of_true rfl hHeld)
    exact (hExecute 0xE29E _ _ rfl rfl 4).2 hSkip
  · exact (hExecute 0xBFFF _ _ rfl rfl 0x1006).2 .jumpV0
  · obtain ⟨i, hFound, hLeads⟩ := hCycle _ hNext
    cases hInstr.symm.trans hFound
    exact (hLeads 2).2 (.next rfl)

end Machine

end Chip8
