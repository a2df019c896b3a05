import Chip8.Proofs.Surface

/-!
# The course of a key wait

A wait looks at the surface once before each sleep.  The lemmas `awaitKey_closed`, `awaitKey_found`,
`awaitKey_script_end`, `awaitKey_fault` and `awaitKey_sleep` give its course for each of the things
that it can meet, so that later proofs follow the script and need not open the definition.

Where no stray number stands in for the keys, a wait can only end with a key that exists, with the
closing of the surface, or with a press of a key that does not exist.  The display has no part in any of
this (`awaitKey_withDisplay`).
-/

namespace Chip8

namespace Surface

variable {stray : Option Int} {script : List (List KeyEvent)} {s t u : Surface}

/-! ## One look -/

theorem awaitKey_closed (hClosed : s.isOpen = false) :
    s.awaitKey stray script = ⟨s, script, [], .closed⟩ := by
  unfold awaitKey
  rw [if_neg (by simp [hClosed])]

theorem awaitKey_found {code : Int} (hOpen : s.isOpen = true)
    (hLook : s.look stray = (some code, t)) :
    s.awaitKey stray script = ⟨t, script, [], .key code⟩ := by
  unfold awaitKey
  rw [if_pos hOpen, hLook]

/-- Once the script is at its end the surface is closed, which wakes the wait. -/
theorem awaitKey_script_end (hOpen : s.isOpen = true) (hLook : s.look stray = (none, t)) :
    s.awaitKey stray [] = ⟨t.close.wait.2, [], [.close], .closed⟩ := by
  unfold awaitKey
  rw [if_pos hOpen, hLook]

theorem awaitKey_fault {batch seen : List KeyEvent} {later : List (List KeyEvent)} {f : Fault}
    (hOpen : s.isOpen = true) (hLook : s.look stray = (none, t))
    (hBatch : t.happenAll batch = (u, seen, some f)) :
    s.awaitKey stray (batch :: later) = ⟨u, later, seen, .fault f⟩ := by
  unfold awaitKey
  rw [if_pos hOpen, hLook]
  simp only
  rw [hBatch]

theorem awaitKey_sleep {batch seen : List KeyEvent} {later : List (List KeyEvent)}
    (hOpen : s.isOpen = true) (hLook : s.look stray = (none, t))
    (hBatch : t.happenAll batch = (u, seen, none)) :
    s.awaitKey stray (batch :: later) =
      { u.wait.2.awaitKey stray later with
        seen := seen ++ (u.wait.2.awaitKey stray later).seen } := by
  conv =>
    lhs
    unfold awaitKey
  rw [if_pos hOpen, hLook]
  simp only
  rw [hBatch]

/-- What holds of the course of a wait, from what each look can meet.  A sleep from which the wait
goes on is the step; all other things that it can meet end it. -/
theorem awaitKey_induction {P : Surface → KeyWait → Prop}
    (closed : ∀ s script, s.isOpen = false → P s ⟨s, script, [], .closed⟩)
    (found : ∀ s t script code, s.isOpen = true → s.look stray = (some code, t) →
      P s ⟨t, script, [], .key code⟩)
    (scriptEnd : ∀ s t, s.isOpen = true → s.look stray = (none, t) →
      P s ⟨t.close.wait.2, [], [.close], .closed⟩)
    (fault : ∀ s t u batch seen later f, s.isOpen = true → s.look stray = (none, t) →
      t.happenAll batch = (u, seen, some f) → P s ⟨u, later, seen, .fault f⟩)
    (sleep : ∀ s t u batch seen rest, s.isOpen = true → s.look stray = (none, t) →
      t.happenAll batch = (u, seen, none) → P u.wait.2 rest →
      P s { rest with seen := seen ++ rest.seen })
    (script : List (List KeyEvent)) (s : Surface) : P s (s.awaitKey stray script) := by
  induction script generalizing s with
  | nil =>
      by_cases hOpen : s.isOpen = true
      · rcases hLook : s.look stray with ⟨_ | code, t⟩
        · rw [awaitKey_script_end hOpen hLook]
          exact scriptEnd s t hOpen hLook
        · rw [awaitKey_found hOpen hLook]
          exact found s t [] code hOpen hLook
      · rw [awaitKey_closed (Bool.eq_false_iff.2 hOpen)]
        exact closed s [] (Bool.eq_false_iff.2 hOpen)
  | cons batch later ih =>
      by_cases hOpen : s.isOpen = true
      · -- An open surface is looked at first, and a sleep follows if nothing is found there.
        rcases hLook : s.look stray with ⟨_ | code, t⟩
        · rcases hBatch : t.happenAll batch with ⟨u, seen, _ | f⟩
          · rw [awaitKey_sleep hOpen hLook hBatch]
            exact sleep s t u batch seen _ hOpen hLook hBatch (ih u.wait.2)
          · rw [awaitKey_fault hOpen hLook hBatch]
            exact fault s t u batch seen later f hOpen hLook hBatch
        · rw [awaitKey_found hOpen hLook]
          exact found s t (batch :: later) code hOpen hLook
      · rw [awaitKey_closed (Bool.eq_false_iff.2 hOpen)]
        exact closed s (batch :: later) (Bool.eq_false_iff.2 hOpen)

/-! ## What a wait can end with -/

/-- Only a press can be refused when it happens. -/
theorem eq_noSuchKey_of_happen {e : KeyEvent} {f : Fault} (h : s.happen e = .error f) :
    ∃ code, f = .noSuchKey code := by
  cases e with
  | press code =>
      simp only [happen, press] at h
      split at h
      · cases h
      · cases h
        exact ⟨code, rfl⟩
  | release code => cases h
  | close => cases h

/-- Things that happen in order cannot begin, or they go on after the first of them. -/
theorem cases_of_happenAll_cons {e : KeyEvent} {events seen : List KeyEvent} {fault : Option Fault}
    (h : s.happenAll (e :: events) = (t, seen, fault)) :
    (∃ f, s.happen e = .error f ∧ t = s ∧ seen = [] ∧ fault = some f) ∨
      ∃ next others, s.happen e = .ok next ∧ next.happenAll events = (t, others, fault) ∧
        seen = e :: others := by
  unfold happenAll at h
  cases hEvent : s.happen e with
  | error f =>
      simp only [hEvent] at h
      cases h
      exact .inl ⟨f, rfl, rfl, rfl, rfl⟩
  | ok next =>
      rcases hRest : next.happenAll events with ⟨last, others, fault'⟩
      simp only [hEvent, hRest] at h
      cases h
      exact .inr ⟨next, others, rfl, hRest, rfl⟩

theorem eq_noSuchKey_of_happenAll {events seen : List KeyEvent} {f : Fault}
    (h : s.happenAll events = (t, seen, some f)) : ∃ code, f = .noSuchKey code := by
  induction events generalizing s seen with
  | nil => cases h
  | cons e events ih =>
      obtain ⟨f', hEvent, -, -, hFault⟩ | ⟨next, others, -, hRest, -⟩ := cases_of_happenAll_cons h
      · cases hFault
        exact eq_noSuchKey_of_happen hEvent
      · exact ih hRest

/-- A key that is looked for exists. -/
theorem exists_key_of_look {code : Int} (h : s.look none = (some code, t)) :
    ∃ key : Key, code = key.val := by
  unfold look at h
  rcases hPoll : s.poll with ⟨_ | key, next⟩
  · rw [hPoll] at h
    cases h
  · rw [hPoll] at h
    cases h
    exact ⟨key, rfl⟩

/-- The endings of a wait on a surface whose keys are all real. -/
theorem awaitKey_ending (script : List (List KeyEvent)) (s : Surface) :
    (s.awaitKey none script).ending = .closed ∨
      (∃ key : Key, (s.awaitKey none script).ending = .key key.val) ∨
      ∃ code, (s.awaitKey none script).ending = .fault (.noSuchKey code) := by
  refine awaitKey_induction (P := fun _ wait => wait.ending = .closed ∨
    (∃ key : Key, wait.ending = .key key.val) ∨
    ∃ code, wait.ending = .fault (.noSuchKey code)) ?closed ?found ?scriptEnd ?fault ?sleep script s
  case closed =>
    intro s script _
    exact .inl rfl
  case found =>
    intro s t script code _ hLook
    obtain ⟨key, rfl⟩ := exists_key_of_look hLook
    exact .inr (.inl ⟨key, rfl⟩)
  case scriptEnd =>
    intro s t _ _
    exact .inl rfl
  case fault =>
    intro s t u batch seen later f _ _ hBatch
    obtain ⟨code, rfl⟩ := eq_noSuchKey_of_happenAll hBatch
    exact .inr (.inr ⟨code, rfl⟩)
  case sleep =>
    intro s t u batch seen rest _ _ _ hRest
    exact hRest

/-! ## What a wait leaves of the surface -/

theorem keepsShape_look {found : Option Int} (h : s.look stray = (found, t)) : s.KeepsShape t := by
  unfold look at h
  split at h
  · cases h
    exact .refl s
  · cases h
    exact keepsShape_poll s

theorem keepsShape_happen {e : KeyEvent} (h : s.happen e = .ok t) : s.KeepsShape t := by
  cases e with
  | press code => exact keepsShape_press h
  | release code =>
      cases h
      exact keepsShape_release s code
  | close =>
      cases h
      exact keepsShape_close s

theorem keepsShape_happenAll {events seen : List KeyEvent} {fault : Option Fault}
    (h : s.happenAll events = (t, seen, fault)) : s.KeepsShape t := by
  induction events generalizing s seen with
  | nil =>
      cases h
      exact .refl _
  | cons e events ih =>
      obtain ⟨f, -, rfl, -, -⟩ | ⟨next, others, hEvent, hRest, -⟩ := cases_of_happenAll_cons h
      · exact .refl _
      · exact (keepsShape_happen hEvent).trans (ih hRest)

/-- A wait only polls, sleeps and meets what happens. -/
theorem keepsShape_awaitKey (stray : Option Int) (script : List (List KeyEvent)) (s : Surface) :
    s.KeepsShape (s.awaitKey stray script).surface := by
  refine awaitKey_induction (P := fun s wait => s.KeepsShape wait.surface)
    ?closed ?found ?scriptEnd ?fault ?sleep script s
  case closed =>
    intro s script _
    exact .refl s
  case found =>
    intro s t script code _ hLook
    exact keepsShape_look hLook
  case scriptEnd =>
    intro s t _ hLook
    exact (keepsShape_look hLook).trans ((keepsShape_close t).trans (keepsShape_wait _))
  case fault =>
    intro s t u batch seen later f _ hLook hBatch
    exact (keepsShape_look hLook).trans (keepsShape_happenAll hBatch)
  case sleep =>
    intro s t u batch seen rest _ hLook hBatch hRest
    exact ((keepsShape_look hLook).trans (keepsShape_happenAll hBatch)).trans
      ((keepsShape_wait u).trans hRest)

/-! ## The picture has no part in a wait -/

/-- The surface with another display. -/
def withDisplay (s : Surface) (display : Display) : Surface :=
  { s with display }

theorem look_withDisplay {stray found : Option Int} (h : s.look stray = (found, t)) (d : Display) :
    (s.withDisplay d).look stray = (found, t.withDisplay d) := by
  cases stray with
  | some code =>
      cases h
      rfl
  | none =>
      cases h
      rfl

theorem happen_withDisplay (s : Surface) (d : Display) (e : KeyEvent) :
    (s.withDisplay d).happen e = (s.happen e).map (·.withDisplay d) := by
  cases e with
  | press code =>
      show (s.withDisplay d).press code = (s.press code).map _
      unfold press
      cases key? code <;> rfl
  | release code =>
      show Except.ok ((s.withDisplay d).release code) = Except.ok ((s.release code).withDisplay d)
      unfold release
      cases key? code <;> rfl
  | close => rfl

theorem happenAll_withDisplay {events seen : List KeyEvent} {fault : Option Fault}
    (h : s.happenAll events = (t, seen, fault)) (d : Display) :
    (s.withDisplay d).happenAll events = (t.withDisplay d, seen, fault) := by
  induction events generalizing s seen with
  | nil =>
      cases h
      rfl
  | cons e events ih =>
      rw [happenAll, happen_withDisplay]
      obtain ⟨f, hEvent, rfl, rfl, rfl⟩ | ⟨next, others, hEvent, hRest, rfl⟩ :=
        cases_of_happenAll_cons h
      · rw [hEvent]
        rfl
      · simp only [hEvent, Except.map, ih hRest]

/-- A wait takes the same course over any display. -/
theorem awaitKey_withDisplay (d : Display) (stray : Option Int) (script : List (List KeyEvent))
    (s : Surface) :
    (s.withDisplay d).awaitKey stray script =
      { s.awaitKey stray script with
        surface := (s.awaitKey stray script).surface.withDisplay d } := by
  induction script generalizing s with
  | nil =>
      by_cases hOpen : s.isOpen = true
      · have hOver : (s.withDisplay d).isOpen = true := hOpen
        rcases hLook : s.look stray with ⟨_ | code, t⟩
        · rw [awaitKey_script_end hOpen hLook,
            awaitKey_script_end hOver (look_withDisplay hLook d)]
          rfl
        · rw [awaitKey_found hOpen hLook, awaitKey_found hOver (look_withDisplay hLook d)]
      · have hClosed : s.isOpen = false := Bool.eq_false_iff.2 hOpen
        have hOver : (s.withDisplay d).isOpen = false := hClosed
        rw [awaitKey_closed hClosed, awaitKey_closed hOver]
  | cons batch later ih =>
      by_cases hOpen : s.isOpen = true
      · have hOver : (s.withDisplay d).isOpen = true := hOpen
        rcases hLook : s.look stray with ⟨_ | code, t⟩
        · have hLookOver := look_withDisplay hLook d
          rcases hBatch : t.happenAll batch with ⟨u, seen, _ | f⟩
          · rw [awaitKey_sleep hOpen hLook hBatch,
              awaitKey_sleep hOver hLookOver (happenAll_withDisplay hBatch d)]
            exact congrArg (fun rest : KeyWait => { rest with seen := seen ++ rest.seen })
              (ih u.wait.2)
          · rw [awaitKey_fault hOpen hLook hBatch,
              awaitKey_fault hOver hLookOver (happenAll_withDisplay hBatch d)]
        · rw [awaitKey_found hOpen hLook, awaitKey_found hOver (look_withDisplay hLook d)]
      · have hClosed : s.isOpen = false := Bool.eq_false_iff.2 hOpen
        have hOver : (s.withDisplay d).isOpen = false := hClosed
        rw [awaitKey_closed hClosed, awaitKey_closed hOver]

/-- A wait leaves the display as it is. -/
theorem display_awaitKey (stray : Option Int) (script : List (List KeyEvent)) (s : Surface) :
    (s.awaitKey stray script).surface.display = s.display := by
  have hSame := awaitKey_withDisplay s.display stray script s
  exact congrArg (fun wait : KeyWait => wait.surface.display) hSame

end Surface

end Chip8
