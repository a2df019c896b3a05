import Chip8.Proofs.Machine.Alike
import Chip8.Proofs.Machine.Footprint
import Chip8.Proofs.Machine.Refusal

/-!
# Instructions on machines that are alike

An instruction that looks at no hidden channel goes the same way in machines that are alike, be it carried
out or refused, and leaves them alike (`perform_inStep`); so does a cycle (`cycle_inStep`).  What it looks
at is the same in both, and what it writes is computed from that, so each handler is followed through its
look-ups to the writes, for each of which `Alike` has a lemma.
-/

namespace Chip8

namespace Machine

variable {hidden : Set Channel} {m n : Machine}

/-! ## Actions in step -/

/-- Both actions succeed and lead to machines that are alike, or both are refused by the same fault and
leave such machines behind. -/
inductive InStep (hidden : Set Channel) : Result → Result → Prop where
  | ok {m n : Machine} (h : Alike hidden m n) : InStep hidden (.ok m) (.ok n)
  | refused {f : Fault} {m n : Machine} (h : Alike hidden m n) :
      InStep hidden (.error (f, m)) (.error (f, n))

namespace InStep

variable {r r' : Result}

/-- What both look up decides for both. -/
theorem attempt {α : Type} (h : Alike hidden m n) {r : Except Fault α} {next next' : α → Result}
    (hNext : ∀ a, InStep hidden (next a) (next' a)) :
    InStep hidden (m.attempt r >>= next) (n.attempt r >>= next') := by
  cases r with
  | ok a => exact hNext a
  | error f => exact .refused h

/-- What follows stays in step if it does so from any two machines that are alike. -/
theorem bind {next next' : Machine → Result} (h : InStep hidden r r')
    (hNext : ∀ {m n}, Alike hidden m n → InStep hidden (next m) (next' n)) :
    InStep hidden (r >>= next) (r' >>= next') := by
  cases h with
  | ok h => exact hNext h
  | refused h => exact .refused h

theorem after_alike (h : InStep hidden r r') : Alike hidden (after r) (after r') := by
  cases h with
  | ok h => exact h
  | refused h => exact h

theorem refusedWith_iff (h : InStep hidden r r') (f : Fault) :
    RefusedWith r' f ↔ RefusedWith r f := by
  cases h with
  | ok h => simp
  | refused h => simp

end InStep

section

variable {x y : Reg}

theorem set_inStep (h : Alike hidden m n) (x : Reg) (k : Int) :
    InStep hidden (m.set x k) (n.set x k) := by
  unfold set
  cases slot? x with
  | some slot => exact .ok (h.put slot _)
  | none => exact .refused h

/-! ### Flow -/

theorem doBare_inStep (h : Alike hidden m n) (op : BareOp) :
    InStep hidden (m.doBare op) (n.doBare op) := by
  cases op with
  | clear =>
      -- What is published is the dark picture, of which both have the size.
      have hBlank : n.surface.display.clear.publish = m.surface.display.clear.publish := by
        unfold Display.clear Display.publish
        simp only [h.width_eq, h.height_eq, h.pixels_eq]
      simp only [doBare, Surface.blank, hBlank]
      exact .ok (h.withDisplay _)
  | ret =>
      simp only [doBare, doReturn, h.stack_eq]
      exact .attempt h fun popped => .ok (h.withCalls _ _ _)

theorem doAddress_inStep (h : Alike hidden m n) (addr : Int) (op : AddressOp) :
    InStep hidden (m.doAddress addr op) (n.doAddress addr op) := by
  cases op with
  | sys => exact .ok h
  | jump => exact .ok (h.withPc addr)
  | call =>
      simp only [doAddress, doCall, h.stack_eq, h.pc_eq]
      exact .attempt h fun stack => .ok (h.withCalls _ _ _)
  | setIndex => exact .ok (h.setIndex addr)
  | jumpV0 =>
      simp only [doAddress, h.get_eq]
      exact .attempt h fun offset => .ok (h.withPc _)

/-! ### Arithmetic -/

theorem set_setFlag_inStep (h : Alike hidden m n) (x : Reg) (k : Int) (flag : Bool) :
    InStep hidden (m.set x k >>= fun m => .ok (m.setFlag flag))
      (n.set x k >>= fun n => .ok (n.setFlag flag)) :=
  (set_inStep h x k).bind fun hSet => .ok (hSet.setFlag flag)

theorem doBitwise_inStep (h : Alike hidden m n) (x y : Reg) (f : UInt8 → UInt8 → UInt8) :
    InStep hidden (m.doBitwise x y f) (n.doBitwise x y f) := by
  simp only [doBitwise, h.get_eq]
  exact .attempt h fun a => .attempt h fun b => set_inStep h x _

theorem doSubtract_inStep (h : Alike hidden m n) (x y : Reg) :
    InStep hidden (m.doSubtract x y) (n.doSubtract x y) := by
  simp only [doSubtract, h.get_eq]
  exact .attempt h fun a => .attempt h fun b => set_setFlag_inStep h x _ _

theorem doPair_inStep (h : Alike hidden m n) (x y : Reg) (op : PairOp) :
    InStep hidden (m.doPair x y op) (n.doPair x y op) := by
  cases op with
  | or => exact doBitwise_inStep h x y _
  | and => exact doBitwise_inStep h x y _
  | xor => exact doBitwise_inStep h x y _
  | sub => exact doSubtract_inStep h x y
  | subn => exact doSubtract_inStep h y x

theorem doBinary_inStep (h : Alike hidden m n) (x : Reg) (y : Operand) (op : BinaryOp) :
    InStep hidden (m.doBinary x y op) (n.doBinary x y op) := by
  cases op with
  | skipEq =>
      simp only [doBinary, h.get_eq, h.operand_eq]
      exact .attempt h fun a => .attempt h fun b => .ok (h.skipIf _)
  | skipNe =>
      simp only [doBinary, h.get_eq, h.operand_eq]
      exact .attempt h fun a => .attempt h fun b => .ok (h.skipIf _)
  | load =>
      simp only [doBinary, h.operand_eq]
      exact .attempt h fun b => set_inStep h x b
  | add =>
      simp only [doBinary, doAdd, h.get_eq, h.operand_eq]
      exact .attempt h fun a => .attempt h fun b => set_setFlag_inStep h x _ _

/-- The same random byte is drawn. -/
theorem doRandom_inStep (h : Alike hidden m n) (hc : .random ∉ hidden) (x : Reg) (mask : Int) :
    InStep hidden (m.doRandom x mask) (n.doRandom x mask) := by
  have hRandom := h.random_eq hc
  simp only [Prod.mk.injEq] at hRandom
  obtain ⟨hBytes, hDrawn⟩ := hRandom
  have hNext : Alike hidden { m with drawn := m.drawn + 1 } { n with drawn := n.drawn + 1 } :=
    { h with random_eq := fun _ => by rw [hBytes, hDrawn] }
  simp only [doRandom, hBytes, hDrawn] at hNext ⊢
  exact set_inStep hNext x _

/-! ### Memory -/

theorem doGlyph_inStep (h : Alike hidden m n) (x : Reg) :
    InStep hidden (m.doGlyph x) (n.doGlyph x) := by
  simp only [doGlyph, h.get_eq]
  refine .attempt h fun value => ?_
  split
  · exact .refused h
  · exact .ok (h.setIndex _)

theorem doDecimal_inStep (h : Alike hidden m n) (x : Reg) :
    InStep hidden (m.doDecimal x) (n.doDecimal x) := by
  simp only [doDecimal, h.get_eq, h.memory_eq, h.indexAddr_eq]
  exact .attempt h fun value => .attempt h fun memory => .ok (h.withMemory memory)

theorem doSave_inStep (h : Alike hidden m n) (x : Reg) :
    InStep hidden (m.doSave x) (n.doSave x) := by
  have hWrite : ∀ count, n.memory.write n.indexAddr (n.v.toList.take count) =
      m.memory.write m.indexAddr (m.v.toList.take count) := by
    intro count
    rw [h.v_eq, h.memory_eq, h.indexAddr_eq]
  simp only [doSave, hWrite]
  exact .attempt h fun memory => .ok (h.withMemory memory)

theorem setAll_inStep (h : Alike hidden m n) (values : List UInt8) (k : Nat) :
    InStep hidden (m.setAll k values) (n.setAll k values) := by
  induction values generalizing k m n with
  | nil => exact .ok h
  | cons value values ih => exact (set_inStep h ⟨k⟩ value.toNat).bind fun hNext => ih hNext (k + 1)

theorem doRestore_inStep (h : Alike hidden m n) (x : Reg) :
    InStep hidden (m.doRestore x) (n.doRestore x) := by
  simp only [doRestore, h.memory_eq, h.indexAddr_eq]
  exact .attempt h fun values => setAll_inStep h values 0

/-! ### Pixels and keys -/

/-- Both publish the same picture, whatever was in the slot. -/
theorem doDraw_inStep (h : Alike hidden m n) (x y : Reg) (rows : Int) :
    InStep hidden (m.doDraw x y rows) (n.doDraw x y rows) := by
  have hRead : n.memory.read n.indexAddr rows = m.memory.read m.indexAddr rows := by
    rw [h.memory_eq, h.indexAddr_eq]
  simp only [doDraw, hRead, h.get_eq]
  refine .attempt h fun sprite => .attempt h fun left => .attempt h fun top => ?_
  have hDraw := (congrArg (·.draw left.toNat top.toNat sprite) h.display_eq).trans
    (Display.draw_withPending _ _ _ _ _)
  rw [hDraw]
  cases m.surface.display.draw left.toNat top.toNat sprite with
  | ok drawn => exact .ok ((h.withDisplay _).setFlag _)
  | error f => exact .refused h

theorem doSkipKey_inStep (h : Alike hidden m n) (hc : .keys ∉ hidden) (x : Reg) (held : Bool) :
    InStep hidden (m.doSkipKey x held) (n.doSkipKey x held) := by
  have hHeld : ∀ key, n.surface.keyHeld key = m.surface.keyHeld key := by
    intro key
    rw [(h.surface_eq hc).1]
    rfl
  simp only [doSkipKey, h.keyIn_eq, hHeld]
  exact .attempt h fun key => .ok (h.skipIf _)

/-- The wait takes the same course, since the display has no part in it. -/
theorem doAwaitKey_inStep (h : Alike hidden m n) (hc : .keys ∉ hidden) (x : Reg) :
    InStep hidden (m.doAwaitKey x) (n.doAwaitKey x) := by
  obtain ⟨hSurface, hScript, hStray⟩ := h.surface_eq hc
  have hClear : n.surface.clearPress = m.surface.clearPress.withDisplay n.surface.display := by
    rw [hSurface]
    rfl
  have hWait : n.surface.clearPress.awaitKey n.stray n.script =
      { m.surface.clearPress.awaitKey m.stray m.script with
        surface := (m.surface.clearPress.awaitKey m.stray m.script).surface.withDisplay
          n.surface.display } := by
    rw [hClear, hScript, hStray]
    exact Surface.awaitKey_withDisplay _ _ _ _
  have hDisplay := Surface.display_awaitKey m.stray m.script m.surface.clearPress
  simp only [doAwaitKey, hWait]
  generalize m.surface.clearPress.awaitKey m.stray m.script = wait at hDisplay ⊢
  have hNext : Alike hidden
      { m with surface := wait.surface, script := wait.script }
      { n with
        surface := wait.surface.withDisplay n.surface.display
        script := wait.script } :=
    { h with
      width_eq := h.width_eq.trans (congrArg Display.width hDisplay).symm
      height_eq := h.height_eq.trans (congrArg Display.height hDisplay).symm
      pixels_eq := h.pixels_eq.trans (congrArg Display.pixels hDisplay).symm
      pending_eq := fun hSlot => (h.pending_eq hSlot).trans (congrArg Display.pending hDisplay).symm
      keys_eq := fun _ => by
        rw [hStray]
        rfl }
  cases wait.ending with
  | closed => exact .ok hNext
  | fault f => exact .refused hNext
  | key code =>
      dsimp only
      split
      · exact set_inStep hNext x code
      · exact .refused hNext

/-! ## Instructions and cycles -/

theorem doSingle_inStep (h : Alike hidden m n) (x : Reg) (op : SingleOp)
    (hLooks : ∀ c ∈ (Instr.single op x).channels, c ∉ hidden) :
    InStep hidden (m.doSingle x op) (n.doSingle x op) := by
  cases op with
  | shiftRight =>
      simp only [doSingle, doShiftRight, h.get_eq]
      exact .attempt h fun a => set_setFlag_inStep h x _ _
  | shiftLeft =>
      simp only [doSingle, doShiftLeft, h.get_eq]
      exact .attempt h fun a => set_setFlag_inStep h x _ _
  | skipHeld => exact doSkipKey_inStep h (hLooks _ rfl) x true
  | skipFree => exact doSkipKey_inStep h (hLooks _ rfl) x false
  | getDelay =>
      simp only [doSingle, h.delay_eq (hLooks _ rfl)]
      exact set_inStep h x _
  | awaitKey => exact doAwaitKey_inStep h (hLooks _ rfl) x
  | setDelay =>
      simp only [doSingle, h.get_eq]
      exact .attempt h fun value => .ok (h.withDelay _)
  | setSound =>
      simp only [doSingle, h.get_eq]
      exact .attempt h fun value => .ok (h.withSound _)
  | addIndex =>
      simp only [doSingle, h.get_eq, h.i_eq]
      exact .attempt h fun value => .ok (h.setIndex _)
  | glyph => exact doGlyph_inStep h x
  | decimal => exact doDecimal_inStep h x
  | save => exact doSave_inStep h x
  | restore => exact doRestore_inStep h x

/-- An instruction that looks at no hidden channel goes the same way in machines that are alike. -/
theorem perform_inStep (h : Alike hidden m n) (i : Instr)
    (hLooks : ∀ c ∈ i.channels, c ∉ hidden) : InStep hidden (m.perform i) (n.perform i) := by
  cases i with
  | bare op => exact doBare_inStep h op
  | address op addr => exact doAddress_inStep h addr op
  | binary op x y => exact doBinary_inStep h x y op
  | pair op x y => exact doPair_inStep h x y op
  | single op x => exact doSingle_inStep h x op hLooks
  | random x mask => exact doRandom_inStep h (hLooks _ rfl) x mask
  | draw x y rows => exact doDraw_inStep h x y rows

theorem execute_inStep (h : Alike hidden m n) (i : Instr)
    (hLooks : ∀ c ∈ i.channels, c ∉ hidden) : InStep hidden (m.execute i) (n.execute i) := by
  refine (perform_inStep h i hLooks).bind fun hNext => .ok ?_
  split
  · exact hNext
  · exact hNext.advance

theorem Alike.instrAt_eq (h : Alike hidden m n) :
    n.memory.instrAt n.pc = m.memory.instrAt m.pc := by
  rw [h.memory_eq, h.pc_eq]

/-- A cycle whose instruction looks at no hidden channel finds the same instruction in machines that are
alike, and goes the same way. -/
theorem cycle_inStep (h : Alike hidden m n)
    (hLooks : ∀ i, m.memory.instrAt m.pc = .ok i → ∀ c ∈ i.channels, c ∉ hidden) :
    InStep hidden m.cycle n.cycle := by
  unfold cycle
  rw [h.instrAt_eq]
  cases hInstr : m.memory.instrAt m.pc with
  | error f => exact .refused h
  | ok i =>
      refine (execute_inStep h i (hLooks i hInstr)).bind fun hNext => .ok ?_
      exact { hNext with cycles_eq := congrArg (· + 1) hNext.cycles_eq }

end

end Machine

end Chip8
