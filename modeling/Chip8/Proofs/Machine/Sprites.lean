import Chip8.Proofs.Drawing
import Chip8.Proofs.Machine.History
import Chip8.Proofs.Machine.Refusal

/-!
# Sprites on the usual display

`DRW` reads a sprite from memory and draws it at the position that two registers hold.  The usual
display is as wide and as high as any sprite that an instruction can draw, so no two bits of the
sprite meet, and what the instruction does to a pixel is told by one bit of memory,
`Machine.spriteBit`.
-/

namespace Chip8

namespace Machine

variable {m : Machine} {x y : Reg} {rows : Int}

theorem WellFormed.display (h : m.WellFormed) : m.surface.display.WellFormed where
  width_pos := by
    rw [h.width_eq]
    decide
  height_pos := by
    rw [h.height_eq]
    decide
  size_pixels := by rw [h.width_eq, h.height_eq, h.pixels_size]

/-- The bit of memory that comes to lie on the pixel at a position when as many rows as are given
are drawn from the index register on, the first of them at `left` and `top`. -/
def spriteBit (m : Machine) (left top : UInt8) (rows X Y : Int) : Bool :=
  let column := (X - left.toNat) % 64
  let row := (Y - top.toNat) % 32
  decide (column < 8) && decide (row < rows) &&
    (m.memory.byteAt (m.i.toNat + row.toNat)).toNat.testBit (7 - column.toNat)

/-- The pixels and the collision are those of drawing as many rows as are given from the index
register on, the first of them at `left` and `top`. -/
structure Draws (m : Machine) (left top : UInt8) (rows : Int) (pixels : Frame) (collision : Bool) :
    Prop where
  size_pixels : pixels.size = 2048
  /-- A pixel is toggled if the bit that comes to lie on it is set. -/
  lit_eq : ∀ X Y : Int, ({ m.surface.display with pixels } : Display).lit X Y =
    (m.surface.display.lit X Y ^^ m.spriteBit left top rows X Y)
  /-- There is a collision if some pixel was lit and is now dark. -/
  collision_iff : collision = true ↔ ∃ X Y : Int, m.surface.display.lit X Y = true ∧
    ({ m.surface.display with pixels } : Display).lit X Y = false

variable {left top : UInt8} {sprite : List UInt8}

/-- The bits of a sprite that is read from memory are those of memory. -/
theorem spriteBit_display (h : m.WellFormed) (hRows : 0 ≤ rows)
    (hRead : m.memory.read m.indexAddr rows = .ok sprite) (left top : UInt8) (X Y : Int) :
    m.surface.display.spriteBit left.toNat top.toNat sprite X Y =
      m.spriteBit left top rows X Y := by
  have hLength := Memory.length_of_read hRows hRead
  have hRow := Int.emod_nonneg (Y - top.toNat) (show (32 : Int) ≠ 0 by decide)
  rw [Display.spriteBit, spriteBit, h.width_eq, h.height_eq, Bool.and_assoc]
  congr 1
  show Display.bitAt sprite ((Y - top.toNat) % 32).toNat ((X - left.toNat) % 64).toNat = _
  by_cases hBelow : (Y - top.toNat) % 32 < rows
  · have hByte := Memory.getD_of_read hRows hRead (k := ((Y - top.toNat) % 32).toNat) (by omega)
    rw [decide_eq_true hBelow, Bool.true_and, Display.bitAt, hByte]
    rfl
  · rw [decide_eq_false hBelow, Bool.false_and, Bool.eq_false_iff]
    intro hBit
    have hInside := Display.lt_length_of_bitAt hBit
    omega

/-- At most fifteen rows of eight pixels fit the usual display, so no two bits meet. -/
theorem draws_drawn (h : m.WellFormed) (hLow : 0 ≤ rows) (hHigh : rows ≤ 15)
    (hRead : m.memory.read m.indexAddr rows = .ok sprite) (left top : UInt8) :
    m.Draws left top rows (m.surface.display.drawn left.toNat top.toNat sprite).1.pixels
      (m.surface.display.drawn left.toNat top.toNat sprite).2 := by
  have hLength := Memory.length_of_read hLow hRead
  have hPixels := m.surface.display.drawn_eq_withPixels left.toNat top.toNat sprite
  have hWidth : Display.spriteWidth ≤ m.surface.display.width := by
    rw [h.width_eq]
    decide
  have hHeight : sprite.length ≤ m.surface.display.height := by
    rw [h.height_eq]
    omega
  constructor
  · rw [Display.size_drawn, h.pixels_size]
  · intro X Y
    rw [← hPixels, h.display.lit_drawn_of_fits hWidth hHeight, spriteBit_display h hLow hRead]
  · rw [← hPixels]
    exact h.display.collision_drawn_of_fits hWidth hHeight left.toNat top.toNat

/-- The new picture is published, and the flag is set. -/
theorem doDraw_eq_ok (h : m.WellFormed) (hx : m.get x = .ok left) (hy : m.get y = .ok top)
    (hRead : m.memory.read m.indexAddr rows = .ok sprite) :
    m.doDraw x y rows =
      let drawn := m.surface.display.drawn left.toNat top.toNat sprite
      .ok { m with
        surface := { m.surface with
          display := { m.surface.display with
            pixels := drawn.1.pixels, pending := some drawn.1.pixels } }
        v := m.v.set 15 (if drawn.2 then 1 else 0) } := by
  have hDraw := Display.draw_eq_ok h.display.width_pos.ne' h.display.height_pos.ne' left.toNat
    top.toNat sprite
  have hPublish := congrArg Display.publish
    (m.surface.display.drawn_eq_withPixels left.toNat top.toNat sprite)
  simp only [doDraw, hRead, hx, hy, hDraw, attempt_ok, ok_bind, hPublish]
  rfl

/-- The instruction `DRW` at work on the usual display, for every sprite that it can name and
whatever the two registers are.  The pixels and the flag are those of drawing the sprite, and the
new picture is published; all else is as it was, but for the step to the next instruction.  If the
sprite does not lie in memory the instruction is refused, and nothing changes. -/
theorem execute_draw (h : m.WellFormed) {word : Int}
    (hDecode : Instr.decode? word = some (.draw x y rows)) :
    ∃ left top, m.get x = .ok left ∧ m.get y = .ok top ∧
      (m.i.toNat + rows ≤ 4095 → ∃ (pixels : Frame) (collision : Bool),
        m.Draws left top rows pixels collision ∧
        m.execute (.draw x y rows) = .ok { m with
          surface := { m.surface with
            display := { m.surface.display with pixels, pending := some pixels } }
          v := m.v.set 15 (if collision then 1 else 0)
          pc := m.pc + 2 }) ∧
      (4095 < m.i.toNat + rows →
        m.execute (.draw x y rows) = .error (.badAddress m.i.toNat rows, m)) := by
  obtain ⟨hx, hy, hLow, hHigh⟩ := Instr.fits_of_decode? hDecode
  obtain ⟨j, rfl⟩ := hx.eq_ofSlot
  obtain ⟨k, rfl⟩ := hy.eq_ofSlot
  have hLeft := get_ofSlot m j
  have hTop := get_ofSlot m k
  have hSize : m.memory.size = 4095 := h.memory_size
  refine ⟨m.v.get j, m.v.get k, hLeft, hTop, fun hInside => ?_, fun hOutside => ?_⟩
  · have hCovers : m.memory.Covers m.indexAddr rows := ⟨Int.natCast_nonneg _, hSize ▸ hInside⟩
    have hRead := Memory.read_eq_ok_iff.2 ⟨hCovers, rfl⟩
    refine ⟨_, _, draws_drawn h hLow hHigh hRead _ _, ?_⟩
    have hPerform := doDraw_eq_ok h hLeft hTop hRead
    rw [execute_of_not_isJump rfl, perform, hPerform]
    rfl
  · have hCovers : ¬m.memory.Covers m.indexAddr rows := by
      rintro ⟨-, hEnd⟩
      rw [hSize] at hEnd
      exact absurd hOutside (not_lt.2 hEnd)
    have hRead := Memory.read_eq_error_iff.2 ⟨hCovers, rfl⟩
    rw [execute_of_not_isJump rfl, perform, doDraw, hRead]
    rfl

/-- A row is drawn over the edges of a display that is lit all over.  The flag register is both
coordinates, and holds the collision afterwards. -/
theorem execute_draw_at_flag :
    ∃ memory, Memory.ofRom [0xDF, 0xF1] = .ok memory ∧
      let display : Display := { pixels := .replicate 2048 true }
      let m : Machine :=
        { memory, v := .replicate _ 63, i := 0x200, surface := { display } }
      m.WellFormed ∧ Instr.decode? 0xDFF1 = some (.draw (Reg.ofSlot 15) (Reg.ofSlot 15) 1) ∧
        ∃ next, m.execute (.draw (Reg.ofSlot 15) (Reg.ofSlot 15) 1) = .ok next ∧
          next.v.get 15 = 1 ∧ next.surface.display.lit 63 31 = false ∧
          next.surface.display.lit 1 31 = true := by
  have hRom : ([0xDF, 0xF1] : List UInt8).length ≤ maxRomSize := by decide
  obtain ⟨memory, hMemory⟩ : ∃ memory, Memory.ofRom [0xDF, 0xF1] = .ok memory :=
    ⟨_, Memory.ofRom_eq_ok hRom⟩
  refine ⟨memory, hMemory, ?_⟩
  intro display m
  have hByte : memory.byteAt 0x200 = 0xDF := Memory.byteAt_of_ofRom hMemory (show 0 < 2 by decide)
  have hWell : m.WellFormed :=
    { WellFormed.of_memory (Memory.size_of_ofRom hMemory) (fun _ => 0) [] with
      register_le := fun value _ => Nat.le_of_lt_succ value.toNat_lt
      index_le := Nat.le_of_lt_succ m.i.toNat_lt
      pixels_size := Array.size_replicate }
  have hDecode : Instr.decode? 0xDFF1 = some (.draw (Reg.ofSlot 15) (Reg.ofSlot 15) 1) := rfl
  obtain ⟨left, top, hLeft, hTop, hDraw, -⟩ := execute_draw hWell hDecode
  obtain ⟨pixels, collision, hDraws, hExecute⟩ := hDraw (show (0x200 : Int) + 1 ≤ 4095 by decide)
  cases hLeft.symm.trans (get_ofSlot m 15)
  cases hTop.symm.trans (get_ofSlot m 15)
  have hPixels : m.surface.display.pixels = Array.replicate 2048 true := rfl
  have hLit : ∀ X Y, m.surface.display.lit X Y = true := by
    intro X Y
    have hInside := hWell.display.index_lt X Y
    rw [hWell.pixels_size] at hInside
    rw [Display.lit, hPixels, Array.getD_eq_getD_getElem?, Array.getElem?_replicate,
      if_pos hInside, Option.getD_some]
  -- The first byte of the program is the only row: its bits 7 and 5 come to lie on the two pixels.
  have hFirst : m.spriteBit 63 63 1 63 31 = true := by
    show (memory.byteAt 0x200).toNat.testBit 7 = true
    rw [hByte]
    rfl
  have hThird : m.spriteBit 63 63 1 1 31 = false := by
    show (memory.byteAt 0x200).toNat.testBit 5 = false
    rw [hByte]
    rfl
  have hDark := (hDraws.lit_eq 63 31).trans (congrArg₂ xor (hLit 63 31) hFirst)
  have hBright := (hDraws.lit_eq 1 31).trans (congrArg₂ xor (hLit 1 31) hThird)
  have hCollision : collision = true := hDraws.collision_iff.2 ⟨63, 31, hLit 63 31, hDark⟩
  refine ⟨hWell, hDecode, _, hExecute, ?_, hDark, hBright⟩
  rw [hCollision]
  rfl

end Machine

end Chip8
