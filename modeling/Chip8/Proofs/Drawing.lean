import Mathlib.Algebra.BigOperators.Intervals
import Mathlib.Data.Nat.Count
import Chip8.Proofs.Surface

/-!
# Drawing sprites

A sprite is drawn by toggling the pixels under its set bits one after the other.  Where the display
is narrower or lower than the sprite, a pixel may lie under several of them; `Display.hits` counts
these bits.  A pixel is toggled that often (`lit_drawn`), and a collision is reported if one of the
bits meets a lit pixel (`collision_drawn`).

Several drawings toggle a pixel as often as there are hits in all of them (`lit_drawnAll`).  Only
whether that number is odd makes a difference, so the order of the drawings does not matter, and two
that are the same cancel.
-/

namespace Chip8

namespace Display

variable {d : Display} {x y x' y' X Y : Int}

/-! ## Pixels and positions -/

/-- The display has pixels, and there is one for each row and column. -/
structure WellFormed (d : Display) : Prop where
  width_pos : 0 < d.width
  height_pos : 0 < d.height
  size_pixels : d.pixels.size = d.width * d.height

theorem WellFormed.dark {width height : Nat} (hWidth : 0 < width) (hHeight : 0 < height) :
    ({ width, height } : Display).WellFormed :=
  ⟨hWidth, hHeight, Array.size_replicate⟩

/-- A display of any positive size can be made, and is well formed. -/
theorem exists_ofSize?_eq_ok {width height : Int} (hWidth : 0 < width) (hHeight : 0 < height) :
    ∃ d, ofSize? width height = .ok d ∧ d.WellFormed ∧
      (d.width : Int) = width ∧ (d.height : Int) = height := by
  have hPixels : 0 < width * height := Int.mul_pos hWidth hHeight
  exact ⟨_, if_neg hPixels.not_gt, .dark (Int.pos_iff_toNat_pos.1 hWidth)
    (Int.pos_iff_toNat_pos.1 hHeight), Int.toNat_of_nonneg hWidth.le,
    Int.toNat_of_nonneg hHeight.le⟩

/-- Every position is that of a pixel. -/
theorem WellFormed.index_lt (h : d.WellFormed) (x y : Int) : d.index x y < d.pixels.size :=
  h.size_pixels ▸ Display.index_lt h.width_pos h.height_pos x y

/-- The number of a pixel tells its row and its column. -/
theorem index_div_mod (hWidth : 0 < d.width) (x y : Int) :
    d.index x y / d.width = (y % d.height).toNat ∧ d.index x y % d.width = (x % d.width).toNat := by
  have hLow := Int.emod_nonneg x (Int.natCast_ne_zero.2 hWidth.ne')
  have hHigh := Int.emod_lt_of_pos x (Int.natCast_pos.2 hWidth)
  refine (Nat.div_mod_unique hWidth).2 ⟨?_, by omega⟩
  rw [index, Nat.mul_comm, Nat.add_comm]

/-- Two positions are those of one pixel if they differ by whole turns around the display. -/
theorem WellFormed.index_eq_iff (h : d.WellFormed) :
    d.index x y = d.index x' y' ↔ x % d.width = x' % d.width ∧ y % d.height = y' % d.height := by
  constructor
  · intro hSame
    obtain ⟨hRow, hColumn⟩ := index_div_mod h.width_pos x y
    obtain ⟨hRow', hColumn'⟩ := index_div_mod h.width_pos x' y'
    rw [hSame] at hRow hColumn
    have hWidth := Int.natCast_ne_zero.2 h.width_pos.ne'
    have hHeight := Int.natCast_ne_zero.2 h.height_pos.ne'
    have hX := Int.emod_nonneg x hWidth
    have hX' := Int.emod_nonneg x' hWidth
    have hY := Int.emod_nonneg y hHeight
    have hY' := Int.emod_nonneg y' hHeight
    constructor <;> omega
  · rintro ⟨hX, hY⟩
    rw [index, index, hX, hY]

/-- Every pixel has a position. -/
theorem exists_index_eq {i : Nat} (hi : i < d.width * d.height) : ∃ x y : Int, d.index x y = i := by
  have hWidth : 0 < d.width := Nat.pos_of_mul_pos_right (Nat.zero_lt_of_lt hi)
  have hRow : i / d.width < d.height := Nat.div_lt_of_lt_mul hi
  have hColumn := Nat.mod_lt i hWidth
  refine ⟨(i % d.width : Nat), (i / d.width : Nat), ?_⟩
  rw [index, Int.emod_eq_of_lt (Int.natCast_nonneg _) (by omega),
    Int.emod_eq_of_lt (Int.natCast_nonneg _) (by omega), Int.toNat_natCast, Int.toNat_natCast]
  exact Nat.div_add_mod' i d.width

/-! ## Toggling -/

/-- The display after a pixel is toggled. -/
def toggled (d : Display) (spot : Int × Int) : Display :=
  { d with pixels := d.pixels.modify (d.index spot.1 spot.2) not }

/-- How many of the positions are those of the pixel at a position. -/
def landings (d : Display) (spots : List (Int × Int)) (X Y : Int) : Nat :=
  spots.countP fun spot => d.index spot.1 spot.2 = d.index X Y

theorem toggle_eq (d : Display) (collision : Bool) (spot : Int × Int) :
    toggle (d, collision) spot = (d.toggled spot, collision || d.lit spot.1 spot.2) := rfl

@[simp] theorem landings_toggled (d : Display) (spot : Int × Int) :
    (d.toggled spot).landings = d.landings := rfl

theorem WellFormed.toggled (h : d.WellFormed) (spot : Int × Int) : (d.toggled spot).WellFormed where
  width_pos := h.width_pos
  height_pos := h.height_pos
  size_pixels := Array.size_modify.trans h.size_pixels

theorem landings_cons (d : Display) (spot : Int × Int) (spots : List (Int × Int)) (X Y : Int) :
    d.landings (spot :: spots) X Y =
      d.landings spots X Y + if d.index spot.1 spot.2 = d.index X Y then 1 else 0 := by
  simp only [landings, List.countP_cons, decide_eq_true_eq]

theorem landings_append (d : Display) (before after : List (Int × Int)) (X Y : Int) :
    d.landings (before ++ after) X Y = d.landings before X Y + d.landings after X Y :=
  List.countP_append

theorem WellFormed.lit_toggled (h : d.WellFormed) (spot : Int × Int) (X Y : Int) :
    (d.toggled spot).lit X Y =
      (d.lit X Y ^^ decide (d.index spot.1 spot.2 = d.index X Y)) := by
  have hInside := h.index_lt X Y
  show (d.pixels.modify (d.index spot.1 spot.2) not).getD (d.index X Y) false = _
  rw [lit, Array.getD_eq_getD_getElem?, Array.getD_eq_getD_getElem?, Array.getElem?_modify,
    Array.getElem?_eq_getElem hInside]
  by_cases hSame : d.index spot.1 spot.2 = d.index X Y
  · simp [hSame]
  · simp [hSame]

theorem decide_add_odd (a b : Nat) :
    decide ((a + b) % 2 = 1) = (decide (a % 2 = 1) ^^ decide (b % 2 = 1)) := by
  rcases Nat.mod_two_eq_zero_or_one a with ha | ha <;>
    rcases Nat.mod_two_eq_zero_or_one b with hb | hb <;> simp [Nat.add_mod, ha, hb]

/-- A pixel is toggled once for each position that is its own. -/
theorem WellFormed.lit_foldl_toggle (h : d.WellFormed) (spots : List (Int × Int)) (collision : Bool)
    (X Y : Int) :
    (spots.foldl toggle (d, collision)).1.lit X Y =
      (d.lit X Y ^^ decide (d.landings spots X Y % 2 = 1)) := by
  induction spots generalizing d collision with
  | nil => simp [landings]
  | cons spot spots ih =>
    rw [List.foldl_cons, toggle_eq, ih (h.toggled spot), landings_toggled, h.lit_toggled,
      landings_cons]
    by_cases hSame : d.index spot.1 spot.2 = d.index X Y
    · simp [hSame, decide_add_odd]
    · simp [hSame]

/-- A lit pixel becomes dark on the way if it is lit at first and toggled, or if it is toggled
twice. -/
theorem WellFormed.collision_foldl_toggle (h : d.WellFormed) (spots : List (Int × Int))
    (collision : Bool) :
    (spots.foldl toggle (d, collision)).2 = true ↔
      collision = true ∨ ∃ X Y, 2 ≤ (d.lit X Y).toNat + d.landings spots X Y := by
  induction spots generalizing d collision with
  | nil =>
    refine (or_iff_left ?_).symm
    rintro ⟨X, Y, hTwo⟩
    have hOne := Bool.toNat_le (d.lit X Y)
    simp only [landings, List.countP_nil] at hTwo
    omega
  | cons spot spots ih =>
    rw [List.foldl_cons, toggle_eq, ih (h.toggled spot), landings_toggled]
    cases hLit : d.lit spot.1 spot.2 with
    | true =>
      refine iff_of_true (.inl (Bool.or_true collision)) (.inr ⟨spot.1, spot.2, ?_⟩)
      rw [hLit, landings_cons, if_pos rfl, Bool.toNat_true]
      omega
    | false =>
      -- That the pixel is lit from now on counts as much as that it was to be toggled.
      have hCount : ∀ X Y, ((d.toggled spot).lit X Y).toNat + d.landings spots X Y =
          (d.lit X Y).toNat + d.landings (spot :: spots) X Y := by
        intro X Y
        rw [h.lit_toggled, landings_cons]
        by_cases hSame : d.index spot.1 spot.2 = d.index X Y
        · have hDark : d.lit X Y = false := by
            rw [lit, ← hSame]
            exact hLit
          simp [hSame, hDark, Nat.add_comm]
        · simp [hSame]
      simp only [hCount, Bool.or_false]

/-! ## Sprites -/

/-- The bit of a sprite in a row and a column.  Column 0 is the most significant bit. -/
def bitAt (sprite : List UInt8) (row column : Nat) : Bool :=
  (sprite.getD row 0).toNat.testBit (spriteWidth - 1 - column)

/-- The set bits of a sprite, by their rows and columns, that come to lie on the pixel at a position
when its first row begins at `x` and `y`. -/
def bitsOn (d : Display) (x y : Int) (sprite : List UInt8) (X Y : Int) : Finset (Nat × Nat) :=
  (Finset.range sprite.length ×ˢ Finset.range spriteWidth).filter fun bit =>
    bitAt sprite bit.1 bit.2 = true ∧ (x + bit.2) % d.width = X % d.width ∧
      (y + bit.1) % d.height = Y % d.height

/-- How many set bits of a sprite come to lie on the pixel at a position. -/
def hits (d : Display) (x y : Int) (sprite : List UInt8) (X Y : Int) : Nat :=
  (d.bitsOn x y sprite X Y).card

variable {sprite : List UInt8}

theorem hits_eq_sum (d : Display) (x y : Int) (sprite : List UInt8) (X Y : Int) :
    d.hits x y sprite X Y = ∑ r ∈ Finset.range sprite.length, ∑ c ∈ Finset.range spriteWidth,
      if bitAt sprite r c = true ∧ (x + c) % d.width = X % d.width ∧
        (y + r) % d.height = Y % d.height then 1 else 0 := by
  rw [hits, bitsOn, Finset.card_filter, Finset.sum_product]

/-- The positions of a row are those of its set bits. -/
theorem WellFormed.landings_row (h : d.WellFormed) (x y : Int) (row : UInt8) (X Y : Int) :
    d.landings ((columns row).map fun (c : Nat) => (x + c, y)) X Y =
      ∑ c ∈ Finset.range spriteWidth, if row.toNat.testBit (spriteWidth - 1 - c) = true ∧
        (x + c) % d.width = X % d.width ∧ y % d.height = Y % d.height then 1 else 0 := by
  rw [← Finset.card_filter, ← Nat.count_eq_card_filter_range, Nat.count, landings, columns,
    List.countP_map, List.countP_filter]
  refine List.countP_congr fun c _ => ?_
  simp [h.index_eq_iff, and_comm]

/-- As many of the positions of a sprite are those of a pixel as set bits come to lie on it. -/
theorem WellFormed.landings_spots (h : d.WellFormed) (x y : Int) (sprite : List UInt8) (X Y : Int) :
    d.landings (spots x y sprite) X Y = d.hits x y sprite X Y := by
  rw [hits_eq_sum]
  induction sprite generalizing y with
  | nil => rfl
  | cons row rows ih =>
    rw [spots, landings_append, h.landings_row, ih, List.length_cons, Finset.sum_range_succ',
      Nat.add_comm]
    -- A row of the rest lies one further down than its number there says.
    have hRest : ∀ r : Nat, y + 1 + (r : Int) = y + ((r + 1 : Nat) : Int) := by
      intro r
      omega
    have hFirst : y + ((0 : Nat) : Int) = y := Int.add_zero y
    simp only [hRest, hFirst, bitAt, List.getD_cons_succ, List.getD_cons_zero]

/-! ## Drawing -/

/-- Each pixel is toggled once for each set bit that comes to lie on it. -/
theorem WellFormed.lit_drawn (h : d.WellFormed) (x y : Int) (sprite : List UInt8) (X Y : Int) :
    (d.drawn x y sprite).1.lit X Y = (d.lit X Y ^^ decide (d.hits x y sprite X Y % 2 = 1)) := by
  rw [drawn, h.lit_foldl_toggle, h.landings_spots]

theorem WellFormed.collision_drawn (h : d.WellFormed) (x y : Int) (sprite : List UInt8) :
    (d.drawn x y sprite).2 = true ↔
      ∃ X Y, 2 ≤ (d.lit X Y).toNat + d.hits x y sprite X Y := by
  simp only [drawn, h.collision_foldl_toggle, h.landings_spots, Bool.false_eq_true, false_or]

/-- A sprite that is drawn at any position of a display of any size, wrapping around as often as it
may, toggles each pixel once for each of its set bits that comes to lie on it.  A collision is
reported exactly if such a bit met a lit pixel: if some pixel was lit and was hit, or was hit twice.
Nothing else changes, and there are as many pixels as before. -/
theorem draw_toggles_hits (h : d.WellFormed) (x y : Int) (sprite : List UInt8) :
    ∃ pixels collision, d.draw x y sprite = .ok ({ d with pixels }, collision) ∧
      pixels.size = d.pixels.size ∧
      (∀ X Y : Int, ({ d with pixels } : Display).lit X Y =
        (d.lit X Y ^^ decide (d.hits x y sprite X Y % 2 = 1))) ∧
      (collision = true ↔ ∃ X Y : Int, 2 ≤ (d.lit X Y).toNat + d.hits x y sprite X Y) := by
  have hPixels := d.drawn_eq_withPixels x y sprite
  refine ⟨(d.drawn x y sprite).1.pixels, (d.drawn x y sprite).2, ?_, size_drawn d x y sprite,
    fun X Y => ?_, h.collision_drawn x y sprite⟩
  · rw [← hPixels]
    exact draw_eq_ok h.width_pos.ne' h.height_pos.ne' x y sprite
  · rw [← hPixels]
    exact h.lit_drawn x y sprite X Y

/-- On a dark display of three columns two bits of a row meet in one pixel, which stays dark, and
that is a collision. -/
theorem draw_toggles_hits_of_narrow :
    ({ width := 3, height := 2 } : Display).WellFormed ∧
      ∃ pixels, ({ width := 3, height := 2 } : Display).draw (-1) 7 [0x90] =
          .ok ({ width := 3, height := 2, pixels }, true) ∧
        ({ width := 3, height := 2, pixels } : Display).lit 2 1 = false := by
  have hFormed : ({ width := 3, height := 2 } : Display).WellFormed :=
    .dark (by decide) (by decide)
  obtain ⟨pixels, collision, hDraw, -, hLit, hCollision⟩ :=
    draw_toggles_hits hFormed (-1) 7 [0x90]
  have hTrue : collision = true := hCollision.2 ⟨2, 1, by decide⟩
  rw [hTrue] at hDraw
  exact ⟨hFormed, pixels, hDraw, (hLit 2 1).trans (by decide)⟩

/-! ## Sprites that fit -/

/-- The column or row at which something lies that begins at `x`. -/
theorem add_emod_eq_emod_iff {x X size : Int} {k : Nat} (hk : k < size) :
    (x + k) % size = X % size ↔ (X - x) % size = k := by
  have hSmall : (k : Int) % size = k := Int.emod_eq_of_lt (Int.natCast_nonneg k) hk
  constructor
  · intro hSame
    rw [Int.sub_emod, ← hSame, ← Int.sub_emod, add_sub_cancel_left, hSmall]
  · intro hPlace
    rw [← hPlace, Int.add_emod_emod, add_sub_cancel]

/-- A row that a sprite does not have has no set bits. -/
theorem lt_length_of_bitAt {row column : Nat} (h : bitAt sprite row column = true) :
    row < sprite.length := by
  by_contra hBeyond
  rw [bitAt, List.getD_eq_getElem?_getD, List.getElem?_eq_none (not_lt.1 hBeyond)] at h
  simp at h

/-- The bit of a sprite that comes to lie on the pixel at a position, where the display is at least
as wide and as high as the sprite. -/
def spriteBit (d : Display) (x y : Int) (sprite : List UInt8) (X Y : Int) : Bool :=
  decide ((X - x) % d.width < spriteWidth) &&
    bitAt sprite ((Y - y) % d.height).toNat ((X - x) % d.width).toNat

/-- On such a display the only bit that can come to lie on a pixel is found by going back from the
pixel to the beginning of the sprite. -/
theorem WellFormed.mem_bitsOn_iff (h : d.WellFormed) (hWidth : spriteWidth ≤ d.width)
    (hHeight : sprite.length ≤ d.height) (x y X Y : Int) (bit : Nat × Nat) :
    bit ∈ d.bitsOn x y sprite X Y ↔ d.spriteBit x y sprite X Y = true ∧
      bit = (((Y - y) % d.height).toNat, ((X - x) % d.width).toNat) := by
  have hColumn := Int.emod_nonneg (X - x) (Int.natCast_ne_zero.2 h.width_pos.ne')
  have hRow := Int.emod_nonneg (Y - y) (Int.natCast_ne_zero.2 h.height_pos.ne')
  obtain ⟨row, column⟩ := bit
  simp only [bitsOn, spriteBit, Finset.mem_filter, Finset.mem_product, Finset.mem_range,
    Bool.and_eq_true, decide_eq_true_eq, Prod.mk.injEq]
  constructor
  · rintro ⟨⟨hInside, hBelow⟩, hBit, hX, hY⟩
    rw [add_emod_eq_emod_iff (by omega)] at hX hY
    simp only [hX, hY, Int.toNat_natCast, and_true]
    exact ⟨by omega, hBit⟩
  · rintro ⟨⟨hBelow, hBit⟩, rfl, rfl⟩
    have hInside := lt_length_of_bitAt hBit
    refine ⟨⟨hInside, by omega⟩, hBit, ?_, ?_⟩
    · rw [add_emod_eq_emod_iff (by omega), Int.toNat_of_nonneg hColumn]
    · rw [add_emod_eq_emod_iff (by omega), Int.toNat_of_nonneg hRow]

/-- On a display that is at least as wide and as high as the sprite no two bits meet. -/
theorem WellFormed.hits_eq_toNat (h : d.WellFormed) (hWidth : spriteWidth ≤ d.width)
    (hHeight : sprite.length ≤ d.height) (x y X Y : Int) :
    d.hits x y sprite X Y = (d.spriteBit x y sprite X Y).toNat := by
  have hMem := h.mem_bitsOn_iff hWidth hHeight x y X Y
  cases hBit : d.spriteBit x y sprite X Y with
  | false =>
    refine Finset.card_eq_zero.2 (Finset.eq_empty_of_forall_notMem fun bit hIn => ?_)
    simp [hMem, hBit] at hIn
  | true =>
    refine Finset.card_eq_one.2 ⟨(((Y - y) % d.height).toNat, ((X - x) % d.width).toNat), ?_⟩
    ext bit
    simp [hMem, hBit]

theorem WellFormed.lit_drawn_of_fits (h : d.WellFormed) (hWidth : spriteWidth ≤ d.width)
    (hHeight : sprite.length ≤ d.height) (x y X Y : Int) :
    (d.drawn x y sprite).1.lit X Y = (d.lit X Y ^^ d.spriteBit x y sprite X Y) := by
  rw [h.lit_drawn, h.hits_eq_toNat hWidth hHeight]
  cases d.spriteBit x y sprite X Y <;> rfl

/-- Where no two bits meet, what became dark on the way is still dark in the end. -/
theorem WellFormed.collision_drawn_of_fits (h : d.WellFormed) (hWidth : spriteWidth ≤ d.width)
    (hHeight : sprite.length ≤ d.height) (x y : Int) :
    (d.drawn x y sprite).2 = true ↔
      ∃ X Y : Int, d.lit X Y = true ∧ (d.drawn x y sprite).1.lit X Y = false := by
  rw [h.collision_drawn]
  refine exists₂_congr fun X Y => ?_
  rw [h.lit_drawn_of_fits hWidth hHeight, h.hits_eq_toNat hWidth hHeight]
  cases d.lit X Y <;> cases d.spriteBit x y sprite X Y <;> decide

/-! ## Many drawings -/

theorem WellFormed.drawn (h : d.WellFormed) (x y : Int) (sprite : List UInt8) :
    (d.drawn x y sprite).1.WellFormed := by
  have hSize := (d.size_drawn x y sprite).trans h.size_pixels
  rw [drawn_eq_withPixels]
  exact ⟨h.width_pos, h.height_pos, hSize⟩

/-- Where the bits of a sprite come to lie does not depend on what was drawn before. -/
@[simp] theorem hits_drawn (d : Display) (x y : Int) (sprite : List UInt8) :
    (d.drawn x y sprite).1.hits = d.hits := by
  rw [drawn_eq_withPixels]
  rfl

end Display

/-- A sprite and the position at which its first row begins. -/
structure Drawing where
  x : Int
  y : Int
  sprite : List UInt8

namespace Display

variable {d : Display} {drawings others : List Drawing}

/-- Draws one sprite after the other. -/
def drawAll (d : Display) (drawings : List Drawing) : Except Fault Display :=
  drawings.foldlM (fun d a => do return (← d.draw a.x a.y a.sprite).1) d

/-- The display after sprites are drawn one after the other. -/
def drawnAll (d : Display) (drawings : List Drawing) : Display :=
  drawings.foldl (fun d a => (d.drawn a.x a.y a.sprite).1) d

/-- How many set bits of all the sprites come to lie on the pixel at a position. -/
def allHits (d : Display) (drawings : List Drawing) (X Y : Int) : Nat :=
  (drawings.map fun a => d.hits a.x a.y a.sprite X Y).sum

@[simp] theorem allHits_drawn (d : Display) (x y : Int) (sprite : List UInt8) :
    (d.drawn x y sprite).1.allHits = d.allHits := by
  funext drawings X Y
  rw [allHits, allHits, hits_drawn]

theorem allHits_cons (d : Display) (a : Drawing) (drawings : List Drawing) (X Y : Int) :
    d.allHits (a :: drawings) X Y =
      d.hits a.x a.y a.sprite X Y + d.allHits drawings X Y := rfl

theorem WellFormed.drawAll_eq_ok (h : d.WellFormed) (drawings : List Drawing) :
    d.drawAll drawings = .ok (d.drawnAll drawings) := by
  induction drawings generalizing d with
  | nil => rfl
  | cons a drawings ih =>
    have hFirst := draw_eq_ok h.width_pos.ne' h.height_pos.ne' a.x a.y a.sprite
    rw [drawAll, List.foldlM_cons, hFirst]
    exact ih (h.drawn a.x a.y a.sprite)

theorem drawnAll_eq_withPixels (d : Display) (drawings : List Drawing) :
    d.drawnAll drawings = { d with pixels := (d.drawnAll drawings).pixels } := by
  induction drawings generalizing d with
  | nil => rfl
  | cons a drawings ih =>
    have hFirst := d.drawn_eq_withPixels a.x a.y a.sprite
    have hRest := ih (d.drawn a.x a.y a.sprite).1
    rw [hFirst] at hRest
    rw [drawnAll, List.foldl_cons, hFirst]
    exact hRest

theorem size_drawnAll (d : Display) (drawings : List Drawing) :
    (d.drawnAll drawings).pixels.size = d.pixels.size := by
  induction drawings generalizing d with
  | nil => rfl
  | cons a drawings ih => exact (ih _).trans (d.size_drawn a.x a.y a.sprite)

/-- Each pixel is toggled once for each hit of each drawing. -/
theorem WellFormed.lit_drawnAll (h : d.WellFormed) (drawings : List Drawing) (X Y : Int) :
    (d.drawnAll drawings).lit X Y = (d.lit X Y ^^ decide (d.allHits drawings X Y % 2 = 1)) := by
  induction drawings generalizing d with
  | nil => simp [drawnAll, allHits]
  | cons a drawings ih =>
    calc ((d.drawn a.x a.y a.sprite).1.drawnAll drawings).lit X Y
        = ((d.drawn a.x a.y a.sprite).1.lit X Y ^^
            decide (d.allHits drawings X Y % 2 = 1)) := by
          rw [ih (h.drawn a.x a.y a.sprite), allHits_drawn]
      _ = (d.lit X Y ^^ decide (d.allHits (a :: drawings) X Y % 2 = 1)) := by
          rw [h.lit_drawn, allHits_cons, decide_add_odd, Bool.xor_assoc]

/-- The pixels are known once it is known at each position whether the pixel there is lit. -/
theorem WellFormed.pixels_ext (h : d.WellFormed) {p q : Frame} (hp : p.size = d.pixels.size)
    (hq : q.size = d.pixels.size)
    (hLit : ∀ X Y : Int, ({ d with pixels := p } : Display).lit X Y =
      ({ d with pixels := q } : Display).lit X Y) : p = q := by
  refine Array.ext (hp.trans hq.symm) fun i hi hi' => ?_
  obtain ⟨X, Y, hIndex⟩ := exists_index_eq (d := d) (h.size_pixels ▸ hp ▸ hi)
  have hSame : p.getD (d.index X Y) false = q.getD (d.index X Y) false := hLit X Y
  simpa [hIndex, hi, hi'] using hSame

/-- Only whether the number of hits is odd makes a difference. -/
theorem WellFormed.drawnAll_eq_of_allHits (h : d.WellFormed)
    (hSame : ∀ X Y, d.allHits drawings X Y % 2 = d.allHits others X Y % 2) :
    d.drawnAll drawings = d.drawnAll others := by
  have hDrawings := d.drawnAll_eq_withPixels drawings
  have hOthers := d.drawnAll_eq_withPixels others
  rw [hDrawings, hOthers]
  congr 1
  refine h.pixels_ext (d.size_drawnAll drawings) (d.size_drawnAll others) fun X Y => ?_
  rw [← hDrawings, ← hOthers, h.lit_drawnAll, h.lit_drawnAll, hSame]

theorem WellFormed.drawnAll_eq_of_perm (h : d.WellFormed) (hPerm : others.Perm drawings) :
    d.drawnAll others = d.drawnAll drawings := by
  refine h.drawnAll_eq_of_allHits fun X Y => ?_
  rw [allHits, allHits, (hPerm.map _).sum_eq]

/-- Two drawings that are the same cancel, wherever they stand. -/
theorem WellFormed.drawnAll_twice (h : d.WellFormed) (a : Drawing)
    (before between last : List Drawing) :
    d.drawnAll (before ++ a :: between ++ a :: last) = d.drawnAll (before ++ between ++ last) := by
  refine h.drawnAll_eq_of_allHits fun X Y => ?_
  simp only [allHits, List.map_append, List.map_cons, List.sum_append, List.sum_cons]
  omega

/-- Sprites that are drawn one after the other on a display of any size leave the same picture in
whatever order they are drawn, and two that are the same may be left out, wherever they stand.  A
sprite that is drawn twice leaves everything as it was. -/
theorem drawAll_any_order (h : d.WellFormed) (drawings : List Drawing) :
    ∃ pixels, d.drawAll drawings = .ok { d with pixels } ∧
      (∀ others : List Drawing, others.Perm drawings →
        d.drawAll others = .ok { d with pixels }) ∧
      (∀ (a : Drawing) (before between last : List Drawing),
        drawings = before ++ a :: between ++ a :: last →
          d.drawAll (before ++ between ++ last) = .ok { d with pixels }) ∧
      ∀ a : Drawing, d.drawAll [a, a] = .ok d := by
  refine ⟨(d.drawnAll drawings).pixels, ?_, fun others hPerm => ?_,
    fun a before between last hTwice => ?_, fun a => ?_⟩
  · rw [← drawnAll_eq_withPixels]
    exact h.drawAll_eq_ok drawings
  · rw [← drawnAll_eq_withPixels, h.drawAll_eq_ok, h.drawnAll_eq_of_perm hPerm]
  · rw [← drawnAll_eq_withPixels, h.drawAll_eq_ok, hTwice, h.drawnAll_twice]
  · rw [h.drawAll_eq_ok]
    exact congrArg Except.ok (h.drawnAll_twice a [] [] [])

/-- On a display of three columns a sprite that overlaps itself and another one is drawn twice. -/
theorem drawAll_any_order_of_narrow :
    ({ width := 3, height := 2 } : Display).WellFormed ∧ ∃ pixels,
      ({ width := 3, height := 2 } : Display).drawAll
          [⟨-1, 7, [0xF0]⟩, ⟨1, 0, [0xC0, 0xC0]⟩, ⟨-1, 7, [0xF0]⟩] =
        .ok { width := 3, height := 2, pixels } ∧
      ({ width := 3, height := 2 } : Display).drawAll
          [⟨1, 0, [0xC0, 0xC0]⟩, ⟨-1, 7, [0xF0]⟩, ⟨-1, 7, [0xF0]⟩] =
        .ok { width := 3, height := 2, pixels } ∧
      ({ width := 3, height := 2 } : Display).drawAll [⟨1, 0, [0xC0, 0xC0]⟩] =
        .ok { width := 3, height := 2, pixels } := by
  have hFormed : ({ width := 3, height := 2 } : Display).WellFormed :=
    .dark (by decide) (by decide)
  obtain ⟨pixels, hAll, hPerm, hTwice, -⟩ := drawAll_any_order hFormed
    [⟨-1, 7, [0xF0]⟩, ⟨1, 0, [0xC0, 0xC0]⟩, ⟨-1, 7, [0xF0]⟩]
  exact ⟨hFormed, pixels, hAll, hPerm _ (.swap _ _ _),
    hTwice ⟨-1, 7, [0xF0]⟩ [] [⟨1, 0, [0xC0, 0xC0]⟩] [] rfl⟩

end Display

end Chip8
