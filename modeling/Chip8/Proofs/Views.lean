import Mathlib.Data.Int.ModEq
import Chip8.Proofs.Drawing
import Chip8.Window

/-!
# Views of a picture

The pixels of a display are looked at in three ways: one by one, by their positions; as a text, by
rows; and in a window, where each lit pixel is a square.  All three show the same picture
(`views_agree`).

The text is read back by cutting it into lines, which is possible because no row has the end of a
line in it.  In the window a point lies in the square of the one pixel that is found by dividing its
coordinates by the scale (`covers_square_iff`).  From that follows that the squares lie apart and
within the window, and which points they cover.
-/

namespace Chip8

/-- The lines of a text. -/
def Text.lines (text : String) : List String := (text.split '\n').toList.map (·.copy)

namespace Display

variable {d : Display} {x y : Nat}

/-! ## Pixel by pixel -/

theorem WellFormed.index?_eq_ok (h : d.WellFormed) (x y : Int) :
    d.index? x y = .ok (d.index x y) := by
  rw [index?, check_eq_ok h.width_pos.ne' h.height_pos.ne']
  rfl

theorem WellFormed.lit?_eq_ok (h : d.WellFormed) (x y : Int) : d.lit? x y = .ok (d.lit x y) := by
  rw [lit?, check_eq_ok h.width_pos.ne' h.height_pos.ne']
  rfl

theorem WellFormed.getElem?_index (h : d.WellFormed) (x y : Int) :
    d.pixels[d.index x y]? = some (d.lit x y) := by
  rw [lit, Array.getD_eq_getD_getElem?, Array.getElem?_eq_getElem (h.index_lt x y),
    Option.getD_some]

/-- A position on the display itself does not wrap around. -/
theorem index_natCast (hx : x < d.width) (hy : y < d.height) :
    d.index x y = y * d.width + x := by
  rw [index, Int.emod_eq_of_lt (Int.natCast_nonneg y) (Int.ofNat_lt.2 hy),
    Int.emod_eq_of_lt (Int.natCast_nonneg x) (Int.ofNat_lt.2 hx), Int.toNat_natCast,
    Int.toNat_natCast]

/-! ## The text -/

/-- The text shows the pixels of the display.  It has a line for each row, and in the line a
character for each pixel of the row. -/
structure IsShownBy (d : Display) (text : String) : Prop where
  length_lines : (Text.lines text).length = d.height
  length_line : ∀ line ∈ Text.lines text, line.length = d.width
  getElem?_line {x y : Nat} : x < d.width → y < d.height →
    ∃ lit, d.lit? x y = .ok lit ∧
      ((Text.lines text).getD y "").toList[x]? = some (if lit then '#' else '.')

theorem toList_rowText (d : Display) (frame : Frame) (y : Nat) :
    (d.rowText frame y).toList =
      (List.range d.width).map fun x =>
        if frame.getD (y * d.width + x) false then '#' else '.' :=
  String.toList_ofList

theorem length_rowText (d : Display) (frame : Frame) (y : Nat) :
    (d.rowText frame y).length = d.width := by
  rw [← String.length_toList, toList_rowText, List.length_map, List.length_range]

/-- The character for a pixel of a row. -/
theorem getElem?_rowText (hx : x < d.width) (hy : y < d.height) :
    (d.rowText d.pixels y).toList[x]? = some (if d.lit x y then '#' else '.') := by
  rw [toList_rowText, List.getElem?_map, List.getElem?_range hx, Option.map_some, lit,
    index_natCast hx hy]

theorem newline_notMem_rowText (d : Display) (frame : Frame) (y : Nat) :
    '\n' ∉ (d.rowText frame y).toList := by
  rw [toList_rowText, List.mem_map]
  rintro ⟨x, -, hNewline⟩
  split at hNewline <;> simp at hNewline

/-- The lines of the text are the rows. -/
theorem lines_rows (hHeight : 0 < d.height) (frame : Frame) :
    Text.lines ("\n".intercalate (d.rows frame)) = d.rows frame := by
  have hRows : ∀ row ∈ d.rows frame, '\n' ∉ row.toList := by
    intro row hRow
    obtain ⟨y, -, rfl⟩ := List.mem_map.1 hRow
    exact newline_notMem_rowText d frame y
  have hSome : d.rows frame ≠ [] := by
    simp [rows, hHeight.ne']
  exact (String.toList_split_intercalate hRows).trans (if_neg hSome)

theorem WellFormed.isShownBy (h : d.WellFormed) :
    d.IsShownBy ("\n".intercalate (d.rows d.pixels)) := by
  have hLines := lines_rows h.height_pos d.pixels
  refine ⟨?_, ?_, fun {x y} hx hy => ⟨d.lit x y, h.lit?_eq_ok x y, ?_⟩⟩
  · rw [hLines, rows, List.length_map, List.length_range]
  · intro line hLine
    rw [hLines] at hLine
    obtain ⟨y, -, rfl⟩ := List.mem_map.1 hLine
    exact length_rowText d d.pixels y
  · rw [hLines, rows, List.getD_eq_getElem?_getD, List.getElem?_map, List.getElem?_range hy]
    exact getElem?_rowText hx hy

end Display

namespace Window

open Display (WellFormed)

variable {d : Display} {scale px py : Int} {x y : Nat} {frame : Frame}

/-! ## The window -/

/-- The call paints a rectangle in which the point lies. -/
def Call.Covers (px py : Int) : Call → Prop
  | .rect _ x y width height => (x ≤ px ∧ px < x + width) ∧ y ≤ py ∧ py < y + height
  | _ => False

/-- The point lies in the window of a display. -/
def InWindow (d : Display) (scale px py : Int) : Prop :=
  (0 ≤ px ∧ px < d.width * scale) ∧ 0 ≤ py ∧ py < d.height * scale

/-- The square for the pixel in a column and a row. -/
def square (scale : Int) (spot : Nat × Nat) : Call :=
  .rect litColor (spot.1 * scale) (spot.2 * scale) scale scale

/-- The color of a point of the window after a call. -/
def Call.colorAt (px py : Int) (before : Color) : Call → Color
  | .fill color => color
  | .rect color x y width height =>
    if (x ≤ px ∧ px < x + width) ∧ y ≤ py ∧ py < y + height then color else before
  | _ => before

/-- The color of a point of the window after calls in order. -/
def colorAfter (px py : Int) (before : Color) (calls : List Call) : Color :=
  calls.foldl (Call.colorAt px py) before

/-- The calls show the pixels of the display in a window.  They fill the background and then paint
one square for each lit pixel.  The squares lie apart and within the window. -/
structure IsPaintedBy (d : Display) (scale : Int) (calls : List Call) : Prop where
  exists_spots : ∃ spots : List (Nat × Nat), spots.Nodup ∧
    (∀ x y : Nat, (x, y) ∈ spots ↔ (x < d.width ∧ y < d.height) ∧ d.lit? x y = .ok true) ∧
    calls = .fill darkColor :: spots.map (square scale)
  apart : calls.Pairwise fun a b => ∀ px py, ¬(a.Covers px py ∧ b.Covers px py)
  inWindow {c : Call} {px py : Int} : c ∈ calls → c.Covers px py → InWindow d scale px py
  covered_iff {px py : Int} : InWindow d scale px py →
    ((∃ c ∈ calls, c.Covers px py) ↔ d.lit? (px / scale) (py / scale) = .ok true)
  colorAfter_eq {px py : Int} (before : Color) : InWindow d scale px py →
    ∃ lit, d.lit? (px / scale) (py / scale) = .ok lit ∧
      colorAfter px py before calls = if lit then litColor else darkColor

/-- The columns and rows of the lit pixels, row by row. -/
def litSpots (frame : Frame) : List (Nat × Nat) :=
  (frame.toList.zipIdx.filter (·.1)).map fun p => (p.2 % screenWidth, p.2 / screenWidth)

/-- A point lies in the square of the pixel to which dividing by the scale leads. -/
theorem covers_square_iff (hScale : 1 ≤ scale) (spot : Nat × Nat) :
    (square scale spot).Covers px py ↔ px / scale = spot.1 ∧ py / scale = spot.2 := by
  rw [Int.ediv_eq_iff_of_pos hScale, Int.ediv_eq_iff_of_pos hScale]
  rfl

/-- Squares that have a point in common are those of one pixel. -/
theorem eq_of_covers_square (hScale : 1 ≤ scale) {s t : Nat × Nat}
    (hs : (square scale s).Covers px py) (ht : (square scale t).Covers px py) : s = t := by
  obtain ⟨hX, hY⟩ := (covers_square_iff hScale s).1 hs
  obtain ⟨hX', hY'⟩ := (covers_square_iff hScale t).1 ht
  ext
  · exact Int.ofNat_inj.1 (hX.symm.trans hX')
  · exact Int.ofNat_inj.1 (hY.symm.trans hY')

/-- The points of the window are those that lead to pixels of the display. -/
theorem inWindow_iff (hScale : 1 ≤ scale) :
    InWindow d scale px py ↔
      ∃ x y : Nat, (x < d.width ∧ y < d.height) ∧ px / scale = x ∧ py / scale = y := by
  have hPos : 0 < scale := by omega
  have hLow : ∀ p : Int, 0 ≤ p ↔ 0 ≤ p / scale := by
    intro p
    rw [Int.le_ediv_iff_mul_le hPos, zero_mul]
  rw [InWindow, hLow px, hLow py, ← Int.ediv_lt_iff_lt_mul hPos, ← Int.ediv_lt_iff_lt_mul hPos]
  constructor
  · rintro ⟨⟨hX, hX'⟩, hY, hY'⟩
    exact ⟨(px / scale).toNat, (py / scale).toNat, by omega, by omega, by omega⟩
  · rintro ⟨x, y, hInside, hX, hY⟩
    omega

theorem paint_eq (scale : Int) (frame : Frame) :
    paint scale frame = .fill darkColor :: (litSpots frame).map (square scale) := by
  rw [litSpots, List.map_map]
  rfl

/-- What covers a point is one of the squares. -/
theorem exists_mem_paint_iff :
    (∃ c ∈ paint scale frame, c.Covers px py) ↔
      ∃ s ∈ litSpots frame, (square scale s).Covers px py := by
  rw [paint_eq]
  constructor
  · rintro ⟨c, hc, hCovers⟩
    rcases List.mem_cons.1 hc with rfl | hSquare
    · cases hCovers
    · obtain ⟨s, hs, rfl⟩ := List.mem_map.1 hSquare
      exact ⟨s, hs, hCovers⟩
  · rintro ⟨s, hs, hCovers⟩
    exact ⟨_, List.mem_cons_of_mem _ (List.mem_map_of_mem hs), hCovers⟩

theorem nodup_litSpots (frame : Frame) : (litSpots frame).Nodup := by
  have hAll : (frame.toList.zipIdx.map Prod.snd).Nodup := by
    rw [List.zipIdx_map_snd]
    exact List.nodup_range'
  have hNumbers : ((frame.toList.zipIdx.filter (·.1)).map Prod.snd).Nodup :=
    hAll.sublist (List.filter_sublist.map Prod.snd)
  have hInjective : Function.Injective fun n => (n % screenWidth, n / screenWidth) := by
    intro n m hSame
    obtain ⟨hColumn, hRow⟩ := Prod.mk.inj hSame
    rw [← Nat.div_add_mod n screenWidth, ← Nat.div_add_mod m screenWidth, hColumn, hRow]
  have hSpots := hNumbers.map hInjective
  rwa [List.map_map] at hSpots

theorem mem_litSpots_iff :
    (x, y) ∈ litSpots frame ↔
      x < screenWidth ∧ frame[y * screenWidth + x]? = some true := by
  have hPos : 0 < screenWidth := by decide
  rw [litSpots, List.mem_map]
  constructor
  · rintro ⟨⟨lit, n⟩, hIn, hSpot⟩
    obtain ⟨rfl, rfl⟩ := Prod.mk.inj hSpot
    rw [List.mem_filter, List.mem_zipIdx_iff_getElem?, Array.getElem?_toList] at hIn
    obtain ⟨hGet, rfl⟩ := hIn
    rw [Nat.div_add_mod']
    exact ⟨Nat.mod_lt n hPos, hGet⟩
  · rintro ⟨hx, hGet⟩
    refine ⟨(true, y * screenWidth + x), ?_, ?_⟩
    · rw [List.mem_filter, List.mem_zipIdx_iff_getElem?, Array.getElem?_toList]
      exact ⟨hGet, rfl⟩
    · obtain ⟨hRow, hColumn⟩ := (Nat.div_mod_unique hPos).2
        ⟨show x + screenWidth * y = y * screenWidth + x by rw [Nat.mul_comm, Nat.add_comm], hx⟩
      rw [hRow, hColumn]

/-- The spots that are painted are those of the lit pixels. -/
theorem mem_litSpots_pixels_iff (h : d.WellFormed) (hWidth : d.width = screenWidth) :
    (x, y) ∈ litSpots d.pixels ↔ (x < d.width ∧ y < d.height) ∧ d.lit? x y = .ok true := by
  have hLit : ∀ hx : x < d.width, ∀ hy : y < d.height,
      d.lit? x y = .ok true ↔ d.pixels[y * d.width + x]? = some true := by
    intro hx hy
    rw [← Display.index_natCast hx hy, h.getElem?_index, h.lit?_eq_ok, Except.ok.injEq,
      Option.some_inj]
  rw [mem_litSpots_iff, ← hWidth]
  constructor
  · rintro ⟨hx, hGet⟩
    have hy : y < d.height := by
      obtain ⟨hInside, -⟩ := Array.getElem?_eq_some_iff.1 hGet
      rw [h.size_pixels, Nat.mul_comm d.width] at hInside
      exact Nat.lt_of_mul_lt_mul_right (Nat.lt_of_le_of_lt (Nat.le_add_right _ _) hInside)
    exact ⟨⟨hx, hy⟩, (hLit hx hy).2 hGet⟩
  · rintro ⟨⟨hx, hy⟩, hOk⟩
    exact ⟨hx, (hLit hx hy).1 hOk⟩

theorem colorAt_square_of_covers {spot : Nat × Nat} (hCovers : (square scale spot).Covers px py)
    (before : Color) : (square scale spot).colorAt px py before = litColor :=
  if_pos hCovers

theorem colorAt_square_of_not_covers {spot : Nat × Nat}
    (hCovers : ¬(square scale spot).Covers px py) (before : Color) :
    (square scale spot).colorAt px py before = before :=
  if_neg hCovers

/-- A point becomes lit if one of the squares covers it, and otherwise stays as it was. -/
theorem colorAfter_squares (scale px py : Int) (spots : List (Nat × Nat)) (before : Color) :
    ((∃ s ∈ spots, (square scale s).Covers px py) →
        colorAfter px py before (spots.map (square scale)) = litColor) ∧
      ((¬∃ s ∈ spots, (square scale s).Covers px py) →
        colorAfter px py before (spots.map (square scale)) = before) := by
  induction spots generalizing before with
  | nil => exact ⟨fun ⟨s, hNone, _⟩ => absurd hNone List.not_mem_nil, fun _ => rfl⟩
  | cons s spots ih =>
      rw [List.exists_mem_cons_iff, List.map_cons, colorAfter, List.foldl_cons, ← colorAfter]
      by_cases hFirst : (square scale s).Covers px py
      · rw [colorAt_square_of_covers hFirst]
        refine ⟨fun _ => ?_, fun hNone => absurd (.inl hFirst) hNone⟩
        -- The later squares have no other color to give.
        by_cases hLater : ∃ s ∈ spots, (square scale s).Covers px py
        · exact (ih litColor).1 hLater
        · exact (ih litColor).2 hLater
      · rw [colorAt_square_of_not_covers hFirst, or_iff_right hFirst]
        exact ih before

/-- A square covers the point if its pixel is the lit one to which the point leads. -/
theorem exists_covers_iff (h : d.WellFormed) (hWidth : d.width = screenWidth) (hScale : 1 ≤ scale)
    (hPoint : InWindow d scale px py) :
    (∃ s ∈ litSpots d.pixels, (square scale s).Covers px py) ↔
      d.lit? (px / scale) (py / scale) = .ok true := by
  obtain ⟨x, y, hInside, hX, hY⟩ := (inWindow_iff hScale).1 hPoint
  have hHere : (square scale (x, y)).Covers px py := (covers_square_iff hScale (x, y)).2 ⟨hX, hY⟩
  rw [hX, hY]
  constructor
  · rintro ⟨s, hs, hCovers⟩
    cases eq_of_covers_square hScale hCovers hHere
    exact ((mem_litSpots_pixels_iff h hWidth).1 hs).2
  · intro hLit
    exact ⟨(x, y), (mem_litSpots_pixels_iff h hWidth).2 ⟨hInside, hLit⟩, hHere⟩

theorem isPaintedBy_paint (h : d.WellFormed) (hWidth : d.width = screenWidth)
    (hScale : 1 ≤ scale) : IsPaintedBy d scale (paint scale d.pixels) where
  exists_spots := ⟨litSpots d.pixels, nodup_litSpots d.pixels,
    fun _ _ => mem_litSpots_pixels_iff h hWidth, paint_eq scale d.pixels⟩
  apart := by
    rw [paint_eq, List.pairwise_cons]
    refine ⟨fun _ _ _ _ hBoth => hBoth.1, List.pairwise_map.2 ?_⟩
    refine (nodup_litSpots d.pixels).imp fun hDifferent px py hBoth => hDifferent ?_
    exact eq_of_covers_square hScale hBoth.1 hBoth.2
  inWindow {c px py} hc hCovers := by
    obtain ⟨⟨x, y⟩, hs, hSquare⟩ := exists_mem_paint_iff.1 ⟨c, hc, hCovers⟩
    obtain ⟨hInside, -⟩ := (mem_litSpots_pixels_iff h hWidth).1 hs
    exact (inWindow_iff hScale).2 ⟨x, y, hInside, (covers_square_iff hScale (x, y)).1 hSquare⟩
  covered_iff hPoint := by
    rw [exists_mem_paint_iff, exists_covers_iff h hWidth hScale hPoint]
  colorAfter_eq {px py} before hPoint := by
    have hCovers := exists_covers_iff h hWidth hScale hPoint
    obtain ⟨hLit, hDark⟩ := colorAfter_squares scale px py (litSpots d.pixels) darkColor
    refine ⟨d.lit (px / scale) (py / scale), h.lit?_eq_ok _ _, ?_⟩
    rw [h.lit?_eq_ok, Except.ok.injEq] at hCovers
    rw [paint_eq, colorAfter, List.foldl_cons, ← colorAfter]
    split
    · next hOn => exact hLit (hCovers.2 hOn)
    · next hOff => exact hDark fun hSome => hOff (hCovers.1 hSome)

end Window

namespace Display

variable {d : Display}

/-- The views of a display agree.  Two positions are those of one pixel if they differ by whole
turns around the display, and what is seen of the pixels one by one is what is read in the text and
what is painted in a window. -/
structure ViewsAgree (d : Display) : Prop where
  index_lt (x y : Int) : ∃ i, d.index? x y = .ok i ∧ i < d.width * d.height
  index_eq_iff (x y x' y' : Int) :
    d.index? x y = d.index? x' y' ↔ x ≡ x' [ZMOD d.width] ∧ y ≡ y' [ZMOD d.height]
  lit_eq {x y : Int} {i : Nat} : d.index? x y = .ok i →
    ∃ lit, d.lit? x y = .ok lit ∧ d.pixels[i]? = some lit
  isShownBy : d.IsShownBy ("\n".intercalate (d.rows d.pixels))
  isPaintedBy (scale : Int) : d.width = screenWidth → 1 ≤ scale →
    Window.IsPaintedBy d scale (Window.paint scale d.pixels)

/-- The pixels of a display of any size are the same in every view: by their positions, in the text,
and, if the display is as wide as the screen, in a window of any scale. -/
theorem views_agree (h : d.WellFormed) : d.ViewsAgree where
  index_lt x y := ⟨d.index x y, h.index?_eq_ok x y, Display.index_lt h.width_pos h.height_pos x y⟩
  index_eq_iff x y x' y' := by
    rw [h.index?_eq_ok, h.index?_eq_ok, Except.ok.injEq]
    exact h.index_eq_iff
  lit_eq {x y i} hIndex := by
    rw [h.index?_eq_ok] at hIndex
    cases hIndex
    exact ⟨d.lit x y, h.lit?_eq_ok x y, h.getElem?_index x y⟩
  isShownBy := h.isShownBy
  isPaintedBy _ hWidth hScale := Window.isPaintedBy_paint h hWidth hScale

/-- A screen of which the last pixel is lit. -/
def lastLit : Display := ({} : Display).toggled (-1, -1)

theorem lit_lastLit (X Y : Int) :
    lastLit.lit X Y = decide (({} : Display).index (-1) (-1) = ({} : Display).index X Y) := by
  have hDark : ({} : Display).lit X Y = false := by
    simp [lit, Array.getD]
  have hFormed : ({} : Display).WellFormed := .dark (by decide) (by decide)
  rw [lastLit, hFormed.lit_toggled, hDark, Bool.false_xor]

theorem views_agree_of_last_pixel :
    lastLit.WellFormed ∧ lastLit.width = screenWidth ∧
      lastLit.index? (-1) (-33) = lastLit.index? 63 31 ∧
      ((Text.lines ("\n".intercalate (lastLit.rows lastLit.pixels))).getD 31 "").toList[63]? =
        some '#' ∧
      (∃ c ∈ Window.paint 3 lastLit.pixels, c.Covers 191 95) ∧
      Window.colorAfter 188 95 Window.litColor (Window.paint 3 lastLit.pixels) =
        Window.darkColor := by
  have hFormed : lastLit.WellFormed :=
    WellFormed.toggled (.dark (by decide) (by decide)) (-1, -1)
  have hViews := views_agree hFormed
  have hWindow := hViews.isPaintedBy 3 rfl (by decide)
  have hOn : lastLit.lit? 63 31 = .ok true :=
    (hFormed.lit?_eq_ok 63 31).trans (congrArg Except.ok ((lit_lastLit 63 31).trans (by decide)))
  have hOff : lastLit.lit? 62 31 = .ok false :=
    (hFormed.lit?_eq_ok 62 31).trans (congrArg Except.ok ((lit_lastLit 62 31).trans (by decide)))
  refine ⟨hFormed, rfl, (hViews.index_eq_iff _ _ _ _).2 ⟨by decide, by decide⟩, ?_, ?_, ?_⟩
  · obtain ⟨lit, hLit, hChar⟩ := hViews.isShownBy.getElem?_line
      (show 63 < lastLit.width by decide) (show 31 < lastLit.height by decide)
    cases hLit.symm.trans hOn
    exact hChar
  · exact (hWindow.covered_iff ⟨by decide, by decide⟩).2 hOn
  · obtain ⟨lit, hLit, hColor⟩ := hWindow.colorAfter_eq Window.litColor
      (show Window.InWindow lastLit 3 188 95 from ⟨by decide, by decide⟩)
    cases hLit.symm.trans hOff
    exact hColor

end Display

end Chip8
