import Chip8.Proofs.Machine.InStep
import Chip8.Proofs.Machine.Stores
import Chip8.Window

/-!
# Published and taken pictures

A program publishes pictures in the slot of the display, and a viewer takes them from it whenever he
likes.  What the two have done so far is a list of `PictureEvent`s, from which the rest is computed: the
picture that was published last, whether it was taken since, and what a viewer shows who keeps the last
picture that he was given, as `Window.turn` does.

The pixels and the slot are at every moment what this list says (`Explains`): the pixels are the last
published picture, and the slot holds that picture until it is taken.
-/

namespace Chip8

/-! ## What happens to pictures -/

/-- What happens to the slot of a display. -/
inductive PictureEvent where
  | published (frame : Frame)
  /-- Somebody takes a picture, and this is what he is given. -/
  | taken (answer : Option Frame)
deriving DecidableEq, Repr

namespace PictureEvent

variable {past : List PictureEvent} {d : Display} {frame : Frame}

/-- The picture that was published last.  Before any is published that is the dark one. -/
def lastPublished (past : List PictureEvent) : Frame :=
  past.foldl (fun last e => match e with
    | published frame => frame
    | taken _ => last) Window.darkFrame

/-- Whether a picture was published since one was last taken. -/
def isFresh (past : List PictureEvent) : Bool :=
  past.foldl (fun _ e => match e with
    | published _ => true
    | taken _ => false) false

/-- What a viewer shows who begins with the dark picture and keeps the last that he was given. -/
def shown (past : List PictureEvent) : Frame :=
  past.foldl (fun shown e => match e with
    | published _ => shown
    | taken answer => answer.getD shown) Window.darkFrame

/-- The pictures that were published, first to last. -/
def publications (past : List PictureEvent) : List Frame :=
  past.filterMap fun e => match e with
    | published frame => some frame
    | taken _ => none

/-- The pictures that were given to those who took them, first to last. -/
def deliveries (past : List PictureEvent) : List Frame :=
  past.filterMap fun e => match e with
    | published _ => none
    | taken answer => answer

/-- Only publications count for the picture that was published last. -/
theorem lastPublished_append_of_publications_eq {events others : List PictureEvent}
    (h : publications events = publications others) (past : List PictureEvent) :
    lastPublished (past ++ events) = lastPublished (past ++ others) := by
  have hLast : ∀ (events : List PictureEvent) (start : Frame),
      events.foldl (fun last e => match e with
        | published frame => frame
        | taken _ => last) start = (publications events).foldl (fun _ frame => frame) start := by
    intro events
    induction events with
    | nil => exact fun _ => rfl
    | cons e events ih => cases e <;> exact fun _ => ih _
  rw [lastPublished, lastPublished, List.foldl_append, List.foldl_append, hLast events, hLast others, h]

/-- What a viewer shows does not change as long as he is given nothing. -/
theorem shown_append {events : List PictureEvent} (h : ∀ answer, taken answer ∉ events) :
    shown (past ++ events) = shown past := by
  induction events generalizing past with
  | nil => rw [List.append_nil]
  | cons e events ih =>
      have hLater : ∀ answer, taken answer ∉ events := fun answer hIn =>
        h answer (List.mem_cons_of_mem e hIn)
      rw [List.append_cons, ih hLater]
      cases e with
      | published frame => simp [shown]
      | taken answer => exact absurd List.mem_cons_self (h answer)

/-- The events have made the display what it is. -/
structure Explains (past : List PictureEvent) (d : Display) : Prop where
  pixels_eq : d.pixels = lastPublished past
  pending_eq : d.pending = if isFresh past then some (lastPublished past) else none
  /-- Every picture that was given to somebody or can still be was published on its own. -/
  sublist : (deliveries past ++ d.pending.toList).Sublist (publications past)
  shown_eq : isFresh past = false → shown past = lastPublished past

namespace Explains

theorem nil : Explains [] {} where
  pixels_eq := rfl
  pending_eq := rfl
  sublist := .slnil
  shown_eq := fun _ => rfl

/-- A new picture takes the place of one that was not taken. -/
theorem publish (h : Explains past d) {next : Display} (hPixels : next.pixels = frame)
    (hPending : next.pending = some frame) : Explains (past ++ [published frame]) next where
  pixels_eq := by simp [lastPublished, hPixels]
  pending_eq := by simp [lastPublished, isFresh, hPending]
  sublist := by
    have hGiven : (deliveries past).Sublist (publications past) :=
      (List.sublist_append_left _ _).trans h.sublist
    simpa [deliveries, publications, hPending] using hGiven.append (List.Sublist.refl [frame])
  shown_eq := by simp [isFresh]

/-- Taking empties the slot. -/
theorem take (h : Explains past d) : Explains (past ++ [taken d.take.1]) d.take.2 where
  pixels_eq := by simpa [lastPublished, Display.take] using h.pixels_eq
  pending_eq := by simp [isFresh, Display.take]
  sublist := by
    have hSublist := h.sublist
    cases hPending : d.pending with
    | none => simpa [deliveries, publications, Display.take, hPending] using hSublist
    | some frame => simpa [deliveries, publications, Display.take, hPending] using hSublist
  shown_eq := by
    intro _
    have hPending := h.pending_eq
    cases hFresh : isFresh past with
    | false =>
        rw [hFresh] at hPending
        simpa [shown, lastPublished, Display.take, hPending] using h.shown_eq hFresh
    | true =>
        rw [hFresh] at hPending
        simp [shown, lastPublished, Display.take, hPending]

end Explains

end PictureEvent

/-- Whether the instruction is made for pictures: `CLS` and `DRW`. -/
def Instr.isPicture : Instr → Bool
  | .bare .clear => true
  | .draw _ _ _ => true
  | _ => false

namespace Machine

variable {m n : Machine} {action : Action} {i : Instr} {frame : Frame}

/-- The picture that the next cycle publishes, if it publishes one: what lies in the slot after the
cycle if the slot was empty before. -/
def published? (m : Machine) : Option Frame :=
  (after (m.act .take).cycle).surface.display.pending

/-- What the moment does to the slot. -/
def Moment.pictureEvent? (e : Moment) : Option PictureEvent :=
  match e.action with
  | .cycle => e.machine.published?.map .published
  | .take => some (.taken e.machine.surface.display.take.1)
  | _ => none

/-- What the moments do to the slot. -/
def pictureEvents (moments : List Moment) : List PictureEvent :=
  moments.filterMap Moment.pictureEvent?

/-! ## Who publishes -/

theorem picture_notMem_footprint (h : i.isPicture = false) (m : Machine) :
    Part.picture ∉ i.footprint m := by
  intro hWritten
  cases i with
  | bare op =>
      cases op with
      | clear => cases h
      | ret => simp [Instr.footprint] at hWritten
  | address op addr => cases op <;> simp [Instr.footprint] at hWritten
  | binary op x y => cases op <;> simp [Instr.footprint, Part.ofReg, Part.flag] at hWritten
  | pair op x y => cases op <;> simp [Instr.footprint, Part.ofReg, Part.flag] at hWritten
  | single op x =>
      cases op <;>
        simp [Instr.footprint, Part.ofReg, Part.upTo, Part.flag, Part.stretch] at hWritten
  | random x mask => simp [Instr.footprint, Part.ofReg] at hWritten
  | draw x y rows => cases h

/-- An instruction that is made for pictures publishes the pixels when it is carried out, and when it
is refused it leaves the display alone. -/
theorem display_of_perform (h : i.isPicture = true) :
    (∃ next, m.perform i = .ok next ∧
      next.surface.display.pending = some next.surface.display.pixels) ∨
    ∃ f, m.perform i = .error (f, m) := by
  cases i with
  | bare op =>
      cases op with
      | clear => exact .inl ⟨_, rfl, rfl⟩
      | ret => cases h
  | draw x y rows =>
      cases hPerform : m.perform (.draw x y rows) with
      | ok next =>
          refine .inl ⟨next, rfl, ?_⟩
          obtain ⟨sprite, -, hLeft⟩ := bind_eq_ok_iff.1 hPerform
          obtain ⟨left, -, hTop⟩ := bind_eq_ok_iff.1 hLeft
          obtain ⟨top, -, hDraw⟩ := bind_eq_ok_iff.1 hTop
          obtain ⟨drawn, -, hNext⟩ := bind_eq_ok_iff.1 hDraw
          cases hNext
          rfl
      | error failure =>
          obtain ⟨f, left⟩ := failure
          refine .inr ⟨f, ?_⟩
          -- What can be refused is looked up before anything is changed.
          rcases eq_or_of_attempt_error hPerform with rfl | ⟨sprite, -, hLeft⟩
          · rfl
          rcases eq_or_of_attempt_error hLeft with rfl | ⟨left, -, hTop⟩
          · rfl
          rcases eq_or_of_attempt_error hTop with rfl | ⟨top, -, hDraw⟩
          · rfl
          rcases eq_or_of_attempt_error hDraw with rfl | ⟨drawn, -, hNever⟩
          · rfl
          · cases hNever
  | address op addr => cases h
  | binary op x y => cases h
  | pair op x y => cases h
  | single op x => cases h
  | random x mask => cases h

/-- The moment is a cycle that carries out an instruction made for pictures. -/
def Moment.MakesPicture (e : Moment) : Prop := ∃ i, i.isPicture = true ∧ e.CarriesOut i

/-- A cycle that makes a picture leaves it in the slot. -/
theorem pending_of_makesPicture (h : (⟨m, .cycle⟩ : Moment).MakesPicture) :
    (after m.cycle).surface.display.pending = some (after m.cycle).surface.display.pixels := by
  obtain ⟨i, hPicture, -, hInstr, next, hCycle⟩ := h
  obtain ⟨j, reached, hFound, hExecute, rfl⟩ := cycle_eq_ok_iff.1 hCycle
  cases hInstr.symm.trans hFound
  obtain ⟨drawn, hPerform, hReached⟩ := bind_eq_ok_iff.1 hExecute
  rw [hCycle]
  rcases display_of_perform (m := m) hPicture with ⟨same, hSame, hPending⟩ | ⟨f, hRefused⟩
  · cases hPerform.symm.trans hSame
    cases hReached
    show (if i.isJump then drawn else drawn.advance).surface.display.pending =
      some (if i.isJump then drawn else drawn.advance).surface.display.pixels
    split <;> exact hPending
  · cases hPerform.symm.trans hRefused

/-- All other cycles, refused ones among them, leave the display alone. -/
theorem display_of_not_makesPicture (h : ¬(⟨m, .cycle⟩ : Moment).MakesPicture) :
    (after m.cycle).surface.display = m.surface.display := by
  cases hCycle : m.cycle with
  | ok next =>
      obtain ⟨i, reached, hInstr, hExecute, rfl⟩ := cycle_eq_ok_iff.1 hCycle
      have hPicture : i.isPicture = false := Bool.eq_false_iff.2 fun hPicture =>
        h ⟨i, hPicture, rfl, hInstr, _, hCycle⟩
      have hOutside : Part.picture ∉ i.footprint m ∪ {.counter} := by
        rintro (hWritten | hCounter)
        · exact picture_notMem_footprint hPicture m hWritten
        · cases hCounter
      have hSame := execute_agreesOff (fits_of_instrAt hInstr) _ hOutside
      rw [hExecute] at hSame
      exact hSame
  | error failure =>
      obtain ⟨f, left⟩ := failure
      rcases cycle_eq_error_iff.1 hCycle with ⟨-, rfl⟩ | ⟨i, hInstr, hExecute⟩
      · rfl
      · have hPerform := execute_eq_error_iff.1 hExecute
        cases hPicture : i.isPicture with
        | true =>
            rcases display_of_perform (m := m) hPicture with ⟨next, hDone, -⟩ | ⟨g, hRefused⟩
            · cases hPerform.symm.trans hDone
            · cases hPerform.symm.trans hRefused
              rfl
        | false =>
            have hSame := perform_agreesOff (m := m) (fits_of_instrAt hInstr) _
              (picture_notMem_footprint hPicture m)
            rw [hPerform] at hSame
            exact hSame

/-- Machines that are alike in what the instruction looks at make pictures in the same cycles. -/
theorem makesPicture_iff_of_alike {hidden : Set Channel} (h : Alike hidden m n)
    (hLooks : ∀ i, m.memory.instrAt m.pc = .ok i → ∀ c ∈ i.channels, c ∉ hidden) :
    (⟨n, .cycle⟩ : Moment).MakesPicture ↔ (⟨m, .cycle⟩ : Moment).MakesPicture := by
  have hCycle : (∃ next, n.cycle = .ok next) ↔ ∃ next, m.cycle = .ok next := by
    have hStep := cycle_inStep h hLooks
    generalize m.cycle = r at hStep ⊢
    generalize n.cycle = r' at hStep ⊢
    cases hStep <;> simp
  unfold Moment.MakesPicture Moment.CarriesOut
  rw [hCycle, h.instrAt_eq]

theorem alike_take (m : Machine) : Alike {.slot} m (m.act .take) :=
  alike_act_of_hidden (show (Action.take).channel? = some .slot from rfl) (Set.mem_singleton _) m

theorem notMem_slot_of_mem_channels {c : Channel} (h : c ∈ i.channels) :
    c ∉ ({.slot} : Set Channel) :=
  Instr.notMem_of_mem_channels (by simp) (by simp) (by simp) h

/-- Exactly the cycles that make pictures publish something, and it is the pixels as they are after the
cycle. -/
theorem published?_eq_of_makesPicture (h : (⟨m, .cycle⟩ : Moment).MakesPicture) :
    m.published? = some (after m.cycle).surface.display.pixels := by
  have hAlike := (cycle_inStep (alike_take m) fun _ _ _ => notMem_slot_of_mem_channels).after_alike
  have hMakes := (makesPicture_iff_of_alike (alike_take m) fun _ _ _ =>
    notMem_slot_of_mem_channels).2 h
  rw [published?, pending_of_makesPicture hMakes, hAlike.pixels_eq]

theorem published?_eq_none (h : ¬(⟨m, .cycle⟩ : Moment).MakesPicture) : m.published? = none := by
  have hMakes := mt (makesPicture_iff_of_alike (alike_take m) fun _ _ _ =>
    notMem_slot_of_mem_channels).1 h
  rw [published?, display_of_not_makesPicture hMakes]
  rfl

/-! ## Histories -/

/-- Nothing but a cycle or the taking of the picture touches the display. -/
theorem display_act_of_quiet (hCycle : action ≠ .cycle) (hRun : ∀ limit, action ≠ .run limit)
    (hTake : action ≠ .take) (m : Machine) :
    (m.act action).surface.display = m.surface.display := by
  by_cases hKeys : action.channel? = some .keys
  · obtain ⟨f, hAct, hDisplay, -⟩ := exists_act_eq_of_keys hKeys
    rw [hAct]
    exact hDisplay _
  · cases action with
    | cycle => exact absurd rfl hCycle
    | run limit => exact absurd rfl (hRun limit)
    | take => exact absurd rfl hTake
    | tickDelay => rfl
    | tickSound => rfl
    | press code => exact absurd rfl hKeys
    | release code => exact absurd rfl hKeys
    | close => exact absurd rfl hKeys

theorem pictureEvents_of_quiet (hCycle : action ≠ .cycle) (hTake : action ≠ .take) :
    pictureEvents [⟨m, action⟩] = [] := by
  cases action with
  | cycle => exact absurd rfl hCycle
  | take => exact absurd rfl hTake
  | _ => rfl

/-- One moment keeps the display what the events have made it. -/
theorem explains_moment {past : List PictureEvent}
    (h : PictureEvent.Explains past m.surface.display) (hRun : ∀ limit, action ≠ .run limit) :
    PictureEvent.Explains (past ++ pictureEvents [⟨m, action⟩]) (m.act action).surface.display := by
  by_cases hCycle : action = .cycle
  · subst hCycle
    by_cases hMakes : (⟨m, .cycle⟩ : Moment).MakesPicture
    · have hEvents : pictureEvents [⟨m, .cycle⟩] =
          [.published (after m.cycle).surface.display.pixels] := by
        simp [pictureEvents, Moment.pictureEvent?, published?_eq_of_makesPicture hMakes]
      rw [hEvents]
      exact h.publish rfl (pending_of_makesPicture hMakes)
    · have hEvents : pictureEvents [⟨m, .cycle⟩] = [] := by
        simp [pictureEvents, Moment.pictureEvent?, published?_eq_none hMakes]
      rw [hEvents, List.append_nil]
      exact (display_of_not_makesPicture hMakes).symm ▸ h
  · by_cases hTake : action = .take
    · subst hTake
      exact h.take
    · rw [pictureEvents_of_quiet hCycle hTake, List.append_nil,
        display_act_of_quiet hCycle hRun hTake]
      exact h

/-- At every moment of a history, and at its end, the display is what the events have made it. -/
theorem explains_course (actions : List Action) (m : Machine) {past : List PictureEvent}
    (h : PictureEvent.Explains past m.surface.display) :
    PictureEvent.Explains (past ++ pictureEvents (m.course actions))
        (m.actAll actions).surface.display ∧
      ∀ before e later, m.course actions = before ++ e :: later →
        PictureEvent.Explains (past ++ pictureEvents before) e.machine.surface.display := by
  have hPoint : ∀ before n, IsPoint (m.course actions) (m.actAll actions) before n →
      PictureEvent.Explains (past ++ pictureEvents before) n.surface.display := by
    intro before n hPoint
    refine course_induction_at (R := fun m c n => ∀ past, PictureEvent.Explains past m.surface.display →
      PictureEvent.Explains (past ++ pictureEvents c) n.surface.display)
      ?refl ?trans ?turn ?single hPoint past h
    case refl =>
      intro m past h
      simpa [pictureEvents] using h
    case trans =>
      intro m n o c d hFirst hSecond past h
      rw [pictureEvents, List.filterMap_append, ← List.append_assoc]
      exact hSecond _ (hFirst past h)
    case turn =>
      intro m mode past h
      simpa [pictureEvents] using h
    case single =>
      intro m action hRun past h
      exact explains_moment h hRun
  refine ⟨hPoint _ _ (.inl ⟨rfl, rfl⟩), fun before e later hSplit => ?_⟩
  exact hPoint before e.machine (.inr ⟨e, later, hSplit, rfl⟩)

theorem pictureEvents_course_append (m : Machine) (actions more : List Action) :
    pictureEvents (m.course (actions ++ more)) =
      pictureEvents (m.course actions) ++ pictureEvents ((m.actAll actions).course more) := by
  rw [course_append, pictureEvents, List.filterMap_append]
  rfl

/-- Nobody is given a picture who does not take one. -/
theorem taken_notMem_pictureEvents {actions : List Action} (h : .take ∉ actions) (m : Machine)
    (answer : Option Frame) : .taken answer ∉ pictureEvents (m.course actions) := by
  intro hTaken
  obtain ⟨e, hCourse, hEvent⟩ := List.mem_filterMap.1 hTaken
  rcases action_of_mem_course hCourse with hAction | hAction
  · simp [Moment.pictureEvent?, hAction] at hEvent
  · unfold Moment.pictureEvent? at hEvent
    split at hEvent
    · simp at hEvent
    · next hTake => exact h (hTake ▸ hAction)
    · cases hEvent

open PictureEvent in
/-- From a program in memory, whatever else is done with the machine and at its surface: at every moment
the pixels are the picture that was published last; whoever takes a picture is given that one if it was
not taken yet, and nothing otherwise, so every picture is given away once at most; a viewer who keeps
what he was given shows the pixels right after he has taken; and nothing that happens later changes
what was given away, nor, before he takes again, what he shows. -/
theorem pixels_eq_lastPublished_of_rom {rom : List UInt8} (hRom : rom.length ≤ maxRomSize) :
    ∃ m, ofRom rom = .ok m ∧
      ∀ (random : Nat → UInt8) (script : List (List KeyEvent)) (actions : List Action),
        let start : Machine := { m with random, script }
        let last := start.actAll actions
        let past := pictureEvents (start.course actions)
        (∀ before e later, start.course actions = before ++ e :: later →
          e.machine.surface.display.pixels = lastPublished (pictureEvents before)) ∧
        last.surface.display.pixels = lastPublished past ∧
        last.ask .take =
          .ok (.picture (if isFresh past then some (lastPublished past) else none), last.act .take) ∧
        (deliveries past).Sublist (publications past) ∧
        shown (pictureEvents (start.course (actions ++ [.take]))) =
          (start.actAll (actions ++ [.take])).surface.display.pixels ∧
        ∀ more, deliveries past <+: deliveries (pictureEvents (start.course (actions ++ more))) ∧
          (.take ∉ more →
            shown (pictureEvents (start.course (actions ++ more))) = shown past) := by
  obtain ⟨memory, -, hLoad⟩ := exists_ofRom hRom
  refine ⟨{ memory }, hLoad, ?_⟩
  intro random script actions start last past
  obtain ⟨hLast, hBefore⟩ := explains_course actions start Explains.nil
  rw [List.nil_append] at hLast
  have hTaken : Explains (pictureEvents (start.course (actions ++ [.take])))
      (start.actAll (actions ++ [.take])).surface.display := by
    rw [pictureEvents_course_append, actAll_append]
    exact hLast.take
  have hStale : isFresh (pictureEvents (start.course (actions ++ [.take]))) = false := by
    rw [pictureEvents_course_append]
    simp [isFresh, course, momentsOf, pictureEvents, Moment.pictureEvent?]
  refine ⟨?_, hLast.pixels_eq, ?_, ?_, ?_, ?_⟩
  · intro before e later hSplit
    exact (hBefore before e later hSplit).pixels_eq
  · rw [← hLast.pending_eq]
    rfl
  · exact (List.sublist_append_left _ _).trans hLast.sublist
  · rw [hTaken.pixels_eq]
    exact hTaken.shown_eq hStale
  · intro more
    rw [pictureEvents_course_append]
    refine ⟨?_, fun hMore => shown_append (taken_notMem_pictureEvents hMore last)⟩
    rw [deliveries, deliveries, List.filterMap_append]
    exact List.prefix_append _ _

/-- The top row of a glyph is drawn, taken, and then not there to be taken again. -/
theorem pixels_eq_lastPublished_of_row :
    ([0xD0, 0x01] : List UInt8).length ≤ maxRomSize ∧
      ∃ m frame, ofRom [0xD0, 0x01] = .ok m ∧ frame.getD 0 false = true ∧
        pictureEvents (m.course [.cycle]) = [.published frame] ∧
        (m.actAll [.cycle]).ask .take =
          .ok (.picture (some frame), (m.actAll [.cycle]).act .take) ∧
        (m.actAll [.cycle, .take]).ask .take =
          .ok (.picture none, (m.actAll [.cycle, .take]).act .take) := by
  have hRom : ([0xD0, 0x01] : List UInt8).length ≤ maxRomSize := by decide
  obtain ⟨m, hLoad, hAlways⟩ := pixels_eq_lastPublished_of_rom hRom
  obtain ⟨memory, hMemory, hMachine⟩ := bind_eq_ok_iff.1 hLoad
  cases hMachine
  have hInstr := Memory.instrAt_of_ofRom hMemory (show 0 + 1 < 2 by decide)
    (show Instr.decode? 0xD001 = some (.draw ⟨0⟩ ⟨0⟩ 1) from rfl)
  have hHolds : memory.Holds 0 [0xF0] := by
    refine ⟨⟨by decide, ?_⟩, ?_⟩
    · rw [Memory.size_of_ofRom hMemory]
      decide
    · intro j hj
      cases Nat.lt_one_iff.1 hj
      exact Memory.byteAt_eq_initialByte hMemory 0
  have hRead : memory.read 0 1 = .ok [0xF0] := Memory.read_of_holds hHolds
  obtain ⟨drawn, hDraw, hLit⟩ : ∃ drawn, ({} : Display).draw 0 0 [0xF0] = .ok drawn ∧
      drawn.1.pixels.getD 0 false = true := by
    have hColumns : Display.columns 0xF0 = [0, 1, 2, 3] := by decide
    refine ⟨_, rfl, ?_⟩
    simp [Display.toggle, Display.spots, hColumns, Array.getElem_modify, Display.index,
      screenWidth, screenHeight]
  let reached := (({ memory, surface := { display := drawn.1.publish } } : Machine).setFlag
    drawn.2).advance
  have hExecute : ({ memory } : Machine).execute (.draw ⟨0⟩ ⟨0⟩ 1) = .ok reached := by
    have hSprite : ({ memory } : Machine).attempt (memory.read 0 1) = .ok [0xF0] := by
      rw [hRead]
      rfl
    have hDrawn : ({ memory } : Machine).attempt (({} : Display).draw 0 0 [0xF0]) = .ok drawn := by
      rw [hDraw]
      rfl
    rw [execute_of_not_isJump rfl]
    refine bind_eq_ok_iff.2 ⟨_, bind_eq_ok_iff.2 ⟨[0xF0], hSprite, ?_⟩, rfl⟩
    exact bind_eq_ok_iff.2 ⟨0, rfl, bind_eq_ok_iff.2 ⟨0, rfl, bind_eq_ok_iff.2 ⟨drawn, hDrawn, rfl⟩⟩⟩
  have hCycle : ({ memory } : Machine).cycle = .ok { reached with cycles := 1 } :=
    cycle_eq_ok_iff.2 ⟨_, reached, hInstr, hExecute, rfl⟩
  have hMakes : (⟨{ memory }, .cycle⟩ : Moment).MakesPicture := ⟨_, rfl, rfl, hInstr, _, hCycle⟩
  have hPublished : ({ memory } : Machine).published? = some drawn.1.pixels := by
    rw [published?_eq_of_makesPicture hMakes, hCycle]
    rfl
  have hEvents : pictureEvents (({ memory } : Machine).course [.cycle]) =
      [.published drawn.1.pixels] := by
    simp [pictureEvents, course, momentsOf, Moment.pictureEvent?, hPublished]
  obtain ⟨-, -, hGiven, -⟩ := hAlways (fun _ => 0) [] [.cycle]
  obtain ⟨-, -, hAgain, -⟩ := hAlways (fun _ => 0) [] [.cycle, .take]
  refine ⟨hRom, { memory }, drawn.1.pixels, hLoad, hLit, hEvents, ?_, ?_⟩
  · rw [hEvents] at hGiven
    exact hGiven
  · rw [show ([.cycle, .take] : List Action) = [.cycle] ++ [.take] from rfl,
      pictureEvents_course_append] at hAgain
    simpa [course, momentsOf, pictureEvents, Moment.pictureEvent?, PictureEvent.isFresh] using hAgain

end Machine

end Chip8
