import Chip8.Proofs.Machine.Stores

/-!
# Saved registers

`LD [I], Vx` puts the registers up to `Vx` into memory, and `LD Vx, [I]` takes as many from there.  A
subroutine that begins with the one and ends with the other gives its caller these registers back as
they were (`execute_restore_of_save`): it may use them, move the index register about and store what
it likes, as long as the index register is back in its place at the end and the stretch in between is
left alone.

The one instruction counts registers, the other bytes.  They fit together because the stretch is
`upTo` for both.
-/

namespace Chip8

namespace Machine

variable {m : Machine} {k : Fin registerCount}

/-- The values of the registers up to one that is given. -/
def upTo (m : Machine) (k : Fin registerCount) : List UInt8 :=
  m.v.toList.take (k.val + 1)

theorem length_upTo (m : Machine) (k : Fin registerCount) : (m.upTo k).length = k.val + 1 := by
  rw [upTo, List.length_take, Vector.length_toList]
  exact Nat.min_eq_left k.isLt

theorem getD_upTo (m : Machine) {j : Fin registerCount} (h : j ≤ k) :
    (m.upTo k).getD j.val 0 = m.v.get j := by
  have hPlace : j.val < k.val + 1 := Nat.lt_succ_of_le h
  rw [upTo, List.getD_eq_getElem?_getD, List.getElem?_take_of_lt hPlace, Vector.getElem?_toList,
    Vector.getElem?_eq_getElem j.isLt, Option.getD_some]
  rfl

/-- Saving registers puts them in memory. -/
theorem execute_save (hRoom : m.i.toNat + k.val + 1 ≤ m.memory.size) :
    ∃ saved, m.execute (.single .save (Reg.ofSlot k)) = .ok saved ∧
      saved.memory.Holds m.i.toNat (m.upTo k) := by
  have hLength := length_upTo m k
  have hPlace : Bits.place registerCount ((Reg.ofSlot k).index + 1) = k.val + 1 := by
    rw [Bits.place, if_neg (by simp [Reg.ofSlot]; omega)]
    rfl
  have hWrite : m.memory.write m.indexAddr (m.upTo k) =
      .ok (m.memory.replace m.i.toNat (m.upTo k)) := by
    refine Memory.write_eq_ok_iff.2 ⟨⟨Int.natCast_nonneg _, ?_⟩, rfl⟩
    rw [hLength, indexAddr]
    omega
  refine ⟨{ m with memory := m.memory.replace m.i.toNat (m.upTo k), pc := m.pc + opcodeSize },
    ?_, Memory.holds_replace ?_⟩
  · rw [execute_of_not_isJump rfl, perform, doSingle, doSave, hPlace]
    show (m.attempt (m.memory.write m.indexAddr (m.upTo k)) >>= _) >>= _ = _
    rw [hWrite]
    rfl
  · omega

/-- Registers that stand in memory are taken from there, and the others are left alone. -/
theorem execute_restore {values : List UInt8} (hLength : values.length = k.val + 1)
    (h : m.memory.Holds m.i.toNat values) :
    ∃ v, m.execute (.single .restore (Reg.ofSlot k)) =
        .ok { m with v, pc := m.pc + opcodeSize } ∧
      ∀ j : Fin registerCount, v.get j = if j ≤ k then values.getD j.val 0 else m.v.get j := by
  have hRead : m.memory.read m.indexAddr ((Reg.ofSlot k).index + 1) = .ok values := by
    have hStretch := Memory.read_of_holds h
    rw [hLength] at hStretch
    exact hStretch
  obtain ⟨v, hAll, hGet⟩ := setAll_eq_ok values 0 m (by omega)
  refine ⟨v, ?_, fun j => ?_⟩
  · rw [execute_of_not_isJump rfl, perform, doSingle, doRestore, hRead, attempt_ok, ok_bind, hAll]
    rfl
  · have hInside : (0 ≤ j.val ∧ j.val < 0 + values.length) ↔ j ≤ k := by
      rw [hLength, Fin.le_def]
      omega
    rw [hGet j, Nat.sub_zero]
    simp only [hInside]

/-- Registers that were saved are restored, whatever a machine did in between, if then the index
register is what it was when they were saved and nothing was stored over them.  The other registers
are left as they are in the meantime. -/
theorem execute_restore_of_save (hRoom : m.i.toNat + k.val + 1 ≤ m.memory.size) :
    ∃ saved, m.execute (.single .save (Reg.ofSlot k)) = .ok saved ∧
      ∀ actions : List Action, (saved.actAll actions).i = m.i →
        (∀ e ∈ saved.course actions, ∀ a, m.i.toNat ≤ a → a ≤ m.i.toNat + k.val → ¬e.Stores a) →
          ∃ last, (saved.actAll actions).execute (.single .restore (Reg.ofSlot k)) = .ok last ∧
            (∀ j ≤ k, last.v.get j = m.v.get j) ∧
            (∀ j, k < j → last.v.get j = (saved.actAll actions).v.get j) ∧
            last.i = m.i := by
  obtain ⟨saved, hSave, hHolds⟩ := execute_save hRoom
  have hLength := length_upTo m k
  refine ⟨saved, hSave, fun actions hIndex hNothing => ?_⟩
  -- What was saved still stands where the index register points again.
  have hStill := holds_actAll hHolds fun e he a hLow hHigh => hNothing e he a hLow (by omega)
  rw [← hIndex] at hStill
  obtain ⟨v, hRestore, hGet⟩ := execute_restore hLength hStill
  refine ⟨_, hRestore, fun j hj => ?_, fun j hj => ?_, hIndex⟩
  · rw [hGet j, if_pos hj, getD_upTo m hj]
  · rw [hGet j, if_neg (Fin.not_le.2 hj)]

/-- A machine that is about to save two registers, to overwrite the first of them by `LD V0, 7` and to
restore both. -/
def overwriting : Machine where
  memory := ⟨#[0xF1, 0x55, 0x60, 0x07, 0xF1, 0x65, 0, 0]⟩
  v := #v[5, 9, 0, 0, 0, 0, 0, 0, 0, 0, 0, 0, 0, 0, 0, 0]
  i := 6
  pc := 0

theorem execute_restore_of_save_overwriting :
    overwriting.i.toNat + (1 : Fin registerCount).val + 1 ≤ overwriting.memory.size ∧
      ∃ saved last, overwriting.execute (.single .save ⟨1⟩) = .ok saved ∧
        (saved.actAll [.cycle]).i = overwriting.i ∧
        (∀ e ∈ saved.course [.cycle], ∀ a, 6 ≤ a → a ≤ 6 + 1 → ¬e.Stores a) ∧
        (saved.actAll [.cycle]).v.get 0 = 7 ∧
        (saved.actAll [.cycle]).execute (.single .restore ⟨1⟩) = .ok last ∧
        (∀ j ≤ 1, last.v.get j = overwriting.v.get j) ∧
        (∀ j, 1 < j → last.v.get j = (saved.actAll [.cycle]).v.get j) ∧
        last.i = overwriting.i := by
  have hRoom : overwriting.i.toNat + (1 : Fin registerCount).val + 1 ≤ overwriting.memory.size := by
    decide
  obtain ⟨saved, hSave, hRestored⟩ := execute_restore_of_save hRoom
  have hSaved : overwriting.execute (.single .save ⟨1⟩) = .ok { overwriting with
      memory := ⟨#[0xF1, 0x55, 0x60, 0x07, 0xF1, 0x65, 5, 9]⟩, pc := 2 } := rfl
  have hSaved := Except.ok.inj (hSave.symm.trans hSaved)
  have hInstr : saved.memory.instrAt saved.pc = .ok (.binary .load ⟨0⟩ (.imm 7)) := by
    rw [hSaved]
    rfl
  have hSame : (saved.actAll [.cycle]).i = overwriting.i := by
    rw [hSaved]
    rfl
  have hOverwritten : (saved.actAll [.cycle]).v.get 0 = 7 := by
    rw [hSaved]
    rfl
  have hNothing : ∀ e ∈ saved.course [.cycle], ∀ a, 6 ≤ a → a ≤ 6 + 1 → ¬e.Stores a := by
    intro e he a _ _ hStores
    cases List.mem_singleton.1 he
    obtain ⟨-, x, ⟨⟨-, hStore, -⟩, -⟩ | ⟨⟨-, hStore, -⟩, -⟩⟩ := hStores
    · cases hInstr.symm.trans hStore
    · cases hInstr.symm.trans hStore
  obtain ⟨last, hLast, hBack, hOthers, hIndex⟩ := hRestored [.cycle] hSame hNothing
  exact ⟨hRoom, saved, last, hSave, hSame, hNothing, hOverwritten, hLast, hBack, hOthers, hIndex⟩

end Machine

end Chip8
