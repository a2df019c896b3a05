import Chip8.Machine.KeyWait
import Chip8.Proofs.Sequencing

/-!
# Surfaces of the same shape

Whatever is asked of a surface, its grid of pixels stays as large as it is, and a list of held keys
in which no key stands twice stays such a list.  `Surface.KeepsShape` relates the surface before to
the surface after.  Drawing is carried out by `Display.drawn`, which toggles pixels and nothing
else.  `Surface.served` is the surface after a request, whether or not it is refused.
-/

namespace Chip8

namespace Display

variable {d : Display} {x y : Int} {sprite : List UInt8}

/-- The display after a sprite is drawn on it, and whether a lit pixel became dark on the way. -/
def drawn (d : Display) (x y : Int) (sprite : List UInt8) : Display × Bool :=
  (spots x y sprite).foldl toggle (d, false)

theorem eq_drawn_of_draw {result : Display × Bool} (h : d.draw x y sprite = .ok result) :
    result = d.drawn x y sprite := by
  unfold draw at h
  dsimp only at h
  split at h
  · exact (Except.ok.inj h).symm
  · obtain ⟨_, _, hFold⟩ := bind_eq_ok_iff.1 h
    exact (Except.ok.inj hFold).symm

theorem check_eq_ok (hWidth : d.width ≠ 0) (hHeight : d.height ≠ 0) : d.check = .ok () :=
  if_neg (by simp [hWidth, hHeight])

/-- On a display with pixels every sprite can be drawn. -/
theorem draw_eq_ok (hWidth : d.width ≠ 0) (hHeight : d.height ≠ 0) (x y : Int)
    (sprite : List UInt8) : d.draw x y sprite = .ok (d.drawn x y sprite) := by
  simp only [draw, check_eq_ok hWidth hHeight]
  split <;> rfl

theorem foldl_toggle_eq_withPixels (spots : List (Int × Int)) (state : Display × Bool) :
    (spots.foldl toggle state).1 =
      { state.1 with pixels := (spots.foldl toggle state).1.pixels } := by
  induction spots generalizing state with
  | nil => rfl
  | cons spot spots ih => exact ih (toggle state spot)

theorem size_foldl_toggle (spots : List (Int × Int)) (state : Display × Bool) :
    (spots.foldl toggle state).1.pixels.size = state.1.pixels.size := by
  induction spots generalizing state with
  | nil => rfl
  | cons spot spots ih => exact (ih (toggle state spot)).trans (size_toggle state spot)

/-- Drawing changes nothing but the pixels. -/
theorem drawn_eq_withPixels (d : Display) (x y : Int) (sprite : List UInt8) :
    (d.drawn x y sprite).1 = { d with pixels := (d.drawn x y sprite).1.pixels } :=
  foldl_toggle_eq_withPixels _ (d, false)

theorem size_drawn (d : Display) (x y : Int) (sprite : List UInt8) :
    (d.drawn x y sprite).1.pixels.size = d.pixels.size :=
  size_foldl_toggle _ (d, false)

theorem foldl_toggle_withPending (pending : Option Frame) (spots : List (Int × Int))
    (state : Display × Bool) :
    spots.foldl toggle ({ state.1 with pending }, state.2) =
      ({ (spots.foldl toggle state).1 with pending }, (spots.foldl toggle state).2) := by
  induction spots generalizing state with
  | nil => rfl
  | cons spot spots ih => exact ih (toggle state spot)

/-- Drawing has nothing to do with the published picture. -/
theorem draw_withPending (d : Display) (pending : Option Frame) (x y : Int)
    (sprite : List UInt8) :
    ({ d with pending } : Display).draw x y sprite =
      (d.draw x y sprite).map fun drawn => ({ drawn.1 with pending }, drawn.2) := by
  have hFold := foldl_toggle_withPending pending (spots x y sprite) (d, false)
  have hCheck : ({ d with pending } : Display).check = d.check := rfl
  unfold draw
  dsimp only
  rw [hFold, hCheck]
  split
  · rfl
  · cases d.check <;> rfl

end Display

namespace Surface

variable {s t u : Surface}

theorem key?_val (key : Key) : key? (key.val : Int) = some key := by
  have hBounds : (0 : Int) ≤ key.val ∧ (key.val : Int) < keyCount :=
    ⟨Int.natCast_nonneg _, Int.ofNat_lt.2 key.isLt⟩
  unfold key?
  rw [dif_pos hBounds]
  simp only [Int.toNat_natCast]

theorem val_of_key? {code : Int} {key : Key} (h : key? code = some key) : (key.val : Int) = code := by
  unfold key? at h
  split at h
  · next hBounds =>
      cases h
      exact Int.toNat_of_nonneg hBounds.1
  · cases h

/-- The grid of pixels is as large as before, and no key has come to be held twice. -/
structure KeepsShape (s t : Surface) : Prop where
  width_eq : t.display.width = s.display.width
  height_eq : t.display.height = s.display.height
  size_pixels : t.display.pixels.size = s.display.pixels.size
  nodup_held : s.keypad.held.Nodup → t.keypad.held.Nodup

namespace KeepsShape

theorem refl (s : Surface) : s.KeepsShape s := ⟨rfl, rfl, rfl, id⟩

theorem trans (h : s.KeepsShape t) (h' : t.KeepsShape u) : s.KeepsShape u :=
  ⟨h'.width_eq.trans h.width_eq, h'.height_eq.trans h.height_eq,
    h'.size_pixels.trans h.size_pixels, h'.nodup_held ∘ h.nodup_held⟩

end KeepsShape

/-- A press adds only a key that is not held yet. -/
theorem nodup_held_press {k : Keypad} (h : k.held.Nodup) (key : Key) :
    (k.press key).held.Nodup := by
  unfold Keypad.press
  by_cases hHeld : key ∈ k.held
  · simpa only [if_pos hHeld] using h
  · simp only [if_neg hHeld]
    rw [List.nodup_append]
    refine ⟨h, by simp, ?_⟩
    intro a ha b hb hab
    rw [List.mem_singleton] at hb
    exact hHeld (hb ▸ hab ▸ ha)

theorem keepsShape_press {code : Int} (h : s.press code = .ok t) : s.KeepsShape t := by
  unfold press at h
  split at h
  · next key _ =>
      cases h
      exact ⟨rfl, rfl, rfl, fun hHeld => nodup_held_press hHeld key⟩
  · cases h

theorem keepsShape_release (s : Surface) (code : Int) : s.KeepsShape (s.release code) := by
  unfold release
  split
  · next key _ => exact ⟨rfl, rfl, rfl, fun hHeld => hHeld.erase key⟩
  · exact .refl s

theorem keepsShape_close (s : Surface) : s.KeepsShape s.close := ⟨rfl, rfl, rfl, id⟩

theorem keepsShape_wait (s : Surface) : s.KeepsShape s.wait.2 := ⟨rfl, rfl, rfl, id⟩

theorem keepsShape_clearPress (s : Surface) : s.KeepsShape s.clearPress := ⟨rfl, rfl, rfl, id⟩

/-- Polling takes at most the latch. -/
theorem keepsShape_poll (s : Surface) : s.KeepsShape s.poll.2 := by
  refine ⟨rfl, rfl, rfl, ?_⟩
  intro hHeld
  simp only [poll, Keypad.poll]
  split <;> exact hHeld

theorem keepsShape_take (s : Surface) :
    s.KeepsShape { s with display := s.display.take.2 } := ⟨rfl, rfl, rfl, id⟩

/-- A dark picture has as many pixels as the one before. -/
theorem keepsShape_blank (s : Surface) : s.KeepsShape s.blank :=
  ⟨rfl, rfl, Array.size_replicate, id⟩

/-- Drawing toggles pixels that are there. -/
theorem keepsShape_of_draw {left top : Int} {sprite : List UInt8}
    {drawn : Display × Bool} (h : s.display.draw left top sprite = .ok drawn) :
    s.KeepsShape { s with display := drawn.1.publish } := by
  have hPixels := s.display.drawn_eq_withPixels left top sprite
  have hWidth := congrArg Display.width hPixels
  have hHeight := congrArg Display.height hPixels
  rw [Display.eq_drawn_of_draw h]
  exact ⟨hWidth, hHeight, s.display.size_drawn left top sprite, id⟩

/-! ## Requests -/

/-- The surface after a request.  One that is refused changes nothing. -/
def served (s : Surface) (r : Request) : Surface :=
  match s.perform r with
  | .ok (_, next) => next
  | .error _ => s

/-- The display after a request. -/
def Request.onDisplay (d : Display) : Request → Display
  | .draw x y sprite => ((d.draw x y sprite).map Prod.fst).toOption.getD d
  | .clear => d.clear
  | .publish => d.publish
  | .take => d.take.2
  | .renderFrame => d.take.2
  | _ => d

/-- The keypad after a request. -/
def Request.onKeypad (k : Keypad) : Request → Keypad
  | .press code => (key? code).elim k k.press
  | .release code => (key? code).elim k k.release
  | .poll => k.poll.2
  | .clearPress => k.clearLatch
  | _ => k

/-- What a request makes of the signal, if it changes it. -/
def Request.signal? : Request → Option Bool
  | .press code => (key? code).map fun _ => true
  | .raise => some true
  | .wait => some false
  | .close => some true
  | _ => none

/-- What a request does to each part of a surface. -/
theorem served_eq (s : Surface) (r : Request) :
    s.served r = {
      display := r.onDisplay s.display
      keypad := r.onKeypad s.keypad
      signal := r.signal?.getD s.signal
      isOpen := r != .close && s.isOpen } := by
  cases r with
  | draw x y sprite =>
      simp only [served, perform, Request.onDisplay]
      cases s.display.draw x y sprite <;> rfl
  | pixel x y =>
      simp only [served, perform]
      cases s.display.lit? x y <;> rfl
  | index x y =>
      simp only [served, perform]
      cases s.display.index? x y <;> rfl
  | press code =>
      simp only [served, perform, press, Request.onKeypad, Request.signal?]
      cases key? code <;> rfl
  | release code =>
      simp only [served, perform, release, Request.onKeypad]
      cases key? code <;> rfl
  | _ => rfl

/-- The surface with another picture, or none, in the slot of its display. -/
def withPending (s : Surface) (pending : Option Frame) : Surface :=
  { s with display := { s.display with pending } }

/-- What is in the slot of the display does not count for requests that do not take it, and only a
publication replaces it. -/
theorem served_withPending {r : Request} (hTake : r ≠ .take) (hRender : r ≠ .renderFrame)
    (s : Surface) (pending : Option Frame) :
    (s.withPending pending).served r =
      (s.served r).withPending (if r = .publish then some s.display.pixels else pending) := by
  have hDisplay : r.onDisplay { s.display with pending } =
      { r.onDisplay s.display with
        pending := if r = .publish then some s.display.pixels else pending } := by
    cases r with
    | draw x y sprite =>
        simp only [Request.onDisplay, s.display.draw_withPending pending x y sprite]
        cases s.display.draw x y sprite <;> rfl
    | take => exact absurd rfl hTake
    | renderFrame => exact absurd rfl hRender
    | _ => rfl
  rw [served_eq, served_eq]
  simp only [withPending, hDisplay]

end Surface

end Chip8
