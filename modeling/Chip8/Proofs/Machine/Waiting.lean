import Mathlib.Logic.Relation
import Chip8.Proofs.Machine.KeyWait

/-!
# A key wait among others

`Surface.awaitKey` meets what happens at the surface only while it sleeps.  Others who press and release
keys and close the surface do so at any time, also between two looks of the wait.  Here the wait is taken
apart into its looks, with `Waiting.Step` for each of them and for each thing that others do meanwhile, in
any order.

No wake-up is lost (`sleeps_only_without_need`): whenever the wait is about to sleep and there is
something for it, the signal is raised.  `Invariant` says why.  A press and the closing change the keypad
before they raise the signal, and the wait lowers the signal before it looks again, so that a signal that
is not raised was lowered before the latest look.
-/

namespace Chip8

/-! ## Looks and events -/

namespace Surface

variable {s t : Surface}

theorem poll_eq_none_iff : s.poll.1 = none ↔ s.keypad.latch = none ∧ s.keypad.held = [] := by
  simp only [poll, Keypad.poll]
  cases s.keypad.latch with
  | some key => simp
  | none => simp

/-- A look that finds nothing changes nothing. -/
theorem eq_of_poll (h : s.poll = (none, t)) : t = s := by
  simp only [poll, Keypad.poll] at h
  cases hLatch : s.keypad.latch with
  | some key =>
      rw [hLatch] at h
      cases h
  | none =>
      rw [hLatch] at h
      exact (congrArg Prod.snd h).symm

/-- All that others can do. -/
theorem eq_of_happen {e : KeyEvent} (h : s.happen e = .ok t) :
    (∃ key : Key, e = .press key.val ∧ t = { s with keypad := s.keypad.press key, signal := true }) ∨
      (∃ key : Key, e = .release key.val ∧ t = { s with keypad := s.keypad.release key }) ∨
      (∃ code, e = .release code ∧ t = s) ∨
      e = .close ∧ t = s.close := by
  cases e with
  | press code =>
      simp only [happen, press] at h
      cases hKey : key? code with
      | some key =>
          rw [hKey] at h
          cases h
          exact .inl ⟨key, congrArg _ (val_of_key? hKey).symm, rfl⟩
      | none =>
          rw [hKey] at h
          cases h
  | release code =>
      cases h
      simp only [release]
      cases hKey : key? code with
      | some key => exact .inr (.inl ⟨key, congrArg _ (val_of_key? hKey).symm, rfl⟩)
      | none => exact .inr (.inr (.inl ⟨code, rfl, rfl⟩))
  | close =>
      cases h
      exact .inr (.inr (.inr ⟨rfl, rfl⟩))

/-- What others do raises the signal, unless it is a release, after which there is no more to find than
before. -/
theorem signal_or_quiet_of_happen {e : KeyEvent} (hEvent : s.happen e = .ok t) :
    t.signal = true ∨ t.signal = s.signal ∧ t.isOpen = s.isOpen ∧
      (s.poll.1 = none → t.poll.1 = none) := by
  rcases eq_of_happen hEvent with ⟨key, rfl, rfl⟩ | ⟨key, rfl, rfl⟩ | ⟨code, rfl, rfl⟩ | ⟨rfl, rfl⟩
  · exact .inl rfl
  · refine .inr ⟨rfl, rfl, fun hNone => ?_⟩
    obtain ⟨hLatch, hHeld⟩ := poll_eq_none_iff.1 hNone
    refine poll_eq_none_iff.2 ⟨hLatch, ?_⟩
    show s.keypad.held.erase key = []
    rw [hHeld]
    rfl
  · exact .inr ⟨rfl, rfl, id⟩
  · exact .inl rfl

theorem poll_of_look {found : Option Int} (h : s.look none = (found, t)) :
    ∃ key : Option Key, s.poll = (key, t) ∧ found = key.map fun k => (k.val : Int) := by
  rcases hPoll : s.poll with ⟨key, next⟩
  simp only [look, hPoll] at h
  cases h
  exact ⟨key, rfl, rfl⟩

end Surface

/-! ## Steps -/

/-- Where a wait stands. -/
inductive WaitStage where
  /-- It is about to forget the latest press. -/
  | clearing
  /-- It is about to see whether the surface is open. -/
  | checking
  /-- It is about to look for a key. -/
  | looking
  /-- It is about to sleep until the signal is raised, or for some time. -/
  | sleeping
  /-- It is awake again and about to lower the signal. -/
  | waking
  /-- It is over, with a key or because the surface was closed. -/
  | ended (found : Option Key)
deriving DecidableEq, Repr

/-- A wait at a surface that others use too. -/
structure Waiting where
  surface : Surface
  stage : WaitStage := .clearing
  /-- The keys that were held when the wait forgot the latest press, the longest held first. -/
  heldBefore : List Key := []
  /-- What others have done since then, in order. -/
  since : List KeyEvent := []
deriving DecidableEq, Repr

namespace Waiting

/-- One step of the wait or of others. -/
inductive Step (w : Waiting) : Waiting → Prop where
  /-- Others press or release a key or close the surface, as long as the wait goes on.  A press that is
  refused does nothing. -/
  | meanwhile {e : KeyEvent} {next : Surface} (hOn : ∀ found, w.stage ≠ .ended found)
      (hEvent : w.surface.happen e = .ok next) :
      Step w { w with surface := next, since := w.since ++ [e] }
  | clear (hStage : w.stage = .clearing) :
      Step w {
        surface := w.surface.clearPress
        stage := .checking
        heldBefore := w.surface.keypad.held }
  | closed (hStage : w.stage = .checking) (hClosed : w.surface.isOpen = false) :
      Step w { w with stage := .ended none }
  | pass (hStage : w.stage = .checking) (hOpen : w.surface.isOpen = true) :
      Step w { w with stage := .looking }
  | found {key : Key} {next : Surface} (hStage : w.stage = .looking)
      (hPoll : w.surface.poll = (some key, next)) :
      Step w { w with surface := next, stage := .ended (some key) }
  | nothing {next : Surface} (hStage : w.stage = .looking)
      (hPoll : w.surface.poll = (none, next)) :
      Step w { w with surface := next, stage := .sleeping }
  /-- The signal is raised, or the time is over. -/
  | wake (hStage : w.stage = .sleeping) : Step w { w with stage := .waking }
  | lower (hStage : w.stage = .waking) :
      Step w { w with surface := w.surface.wait.2, stage := .checking }

/-- What a wait that begins at a surface can come to. -/
def Reachable (s : Surface) (w : Waiting) : Prop :=
  Relation.ReflTransGen Step { surface := s } w

variable {w next : Waiting} {s t : Surface} {events others : List KeyEvent} {key : Key}
  {before now : List Key}

/-! ## Presses and releases in a list of events -/

/-- The latch holds the latest press of the events. -/
def IsLatest (events : List KeyEvent) : Option Key → Prop
  | some key => ∃ earlier later, events = earlier ++ .press key.val :: later ∧
      ∀ code, .press code ∉ later
  | none => ∀ code, .press code ∉ events

theorem isLatest_append_press (events : List KeyEvent) (key : Key) :
    IsLatest (events ++ [.press key.val]) (some key) :=
  ⟨events, [], rfl, fun _ => List.not_mem_nil⟩

theorem IsLatest.append {latch : Option Key} {e : KeyEvent} (h : IsLatest events latch)
    (hOther : ∀ code, e ≠ .press code) : IsLatest (events ++ [e]) latch := by
  have hLast : ∀ {others : List KeyEvent}, (∀ code, .press code ∉ others) →
      ∀ code, .press code ∉ others ++ [e] := by
    intro others hNone code hIn
    rcases List.mem_append.1 hIn with hFront | hBack
    · exact hNone code hFront
    · exact hOther code (List.mem_singleton.1 hBack).symm
  cases latch with
  | some key =>
      obtain ⟨earlier, later, rfl, hNone⟩ := h
      exact ⟨earlier, later ++ [e], by simp, hLast hNone⟩
  | none => exact hLast h

/-- Of the keys that were held before, those that are not held now were released by one of the events. -/
inductive StillHeld (events : List KeyEvent) : List Key → List Key → Prop where
  | nil : StillHeld events [] []
  | kept (key : Key) {before now : List Key} (h : StillHeld events before now) :
      StillHeld events (key :: before) (key :: now)
  | released {key : Key} {before now : List Key} (hRelease : .release key.val ∈ events)
      (h : StillHeld events before now) : StillHeld events (key :: before) now

namespace StillHeld

theorem refl (events : List KeyEvent) (held : List Key) : StillHeld events held held := by
  induction held with
  | nil => exact .nil
  | cons key held ih => exact .kept key ih

theorem mono (h : StillHeld events before now) (hSub : events ⊆ others) :
    StillHeld others before now := by
  induction h with
  | nil => exact .nil
  | kept key _ ih => exact .kept key ih
  | released hRelease _ ih => exact .released (hSub hRelease) ih

theorem erase (h : StillHeld events before now) (hRelease : .release key.val ∈ events) :
    StillHeld events before (now.erase key) := by
  induction h with
  | nil => exact .nil
  | kept first hRest ih =>
      by_cases hFirst : first = key
      · subst hFirst
        rw [List.erase_cons_head]
        exact .released hRelease hRest
      · rw [List.erase_cons_tail (by simpa using hFirst)]
        exact .kept first ih
  | released hGone _ ih => exact .released hGone ih

/-- All that were held longer than the longest held one were released. -/
theorem exists_eq_append (h : StillHeld events before (key :: now)) :
    ∃ front rest, before = front ++ key :: rest ∧ ∀ k ∈ front, .release k.val ∈ events := by
  generalize hNow : key :: now = held at h
  induction h with
  | nil => cases hNow
  | kept first _ _ =>
      cases hNow
      exact ⟨[], _, rfl, fun _ hIn => absurd hIn List.not_mem_nil⟩
  | released hGone _ ih =>
      obtain ⟨front, rest, rfl, hFront⟩ := ih hNow
      exact ⟨_ :: front, rest, rfl, List.forall_mem_cons.2 ⟨hGone, hFront⟩⟩

end StillHeld

/-! ## The invariant -/

/-- The keypad is what the events have made of it. -/
structure Recorded (w : Waiting) : Prop where
  latest : IsLatest w.since w.surface.keypad.latch
  stillHeld : (∀ code, .press code ∉ w.since) →
    StillHeld w.since w.heldBefore w.surface.keypad.held

/-- The key is the one that was pressed last since the wait began, or if none was, the one that has been
held longest: all that were held longer when the wait began were released since. -/
def Delivers (w : Waiting) (key : Key) : Prop :=
  (∃ earlier later, w.since = earlier ++ .press key.val :: later ∧ ∀ code, .press code ∉ later) ∨
    (∀ code, .press code ∉ w.since) ∧ w.surface.keypad.held.head? = some key ∧
      ∃ front rest, w.heldBefore = front ++ key :: rest ∧ ∀ k ∈ front, .release k.val ∈ w.since

/-- What holds at a stage.  Before a look the signal is up if the surface was closed since it was found
open, and after a look the signal is up if anything was done since. -/
def HoldsAt (w : Waiting) : WaitStage → Prop
  | .clearing => True
  | .checking => w.Recorded
  | .looking => w.Recorded ∧ (w.surface.signal = true ∨ w.surface.isOpen = true)
  | .sleeping => w.Recorded ∧
      (w.surface.signal = true ∨ w.surface.isOpen = true ∧ w.surface.poll.1 = none)
  | .waking => w.Recorded
  | .ended none => True
  | .ended (some key) => w.Delivers key

/-- What holds at the stage at which the wait is. -/
def Invariant (w : Waiting) : Prop := w.HoldsAt w.stage

theorem Invariant.holdsAt {stage : WaitStage} (h : w.Invariant) (hStage : w.stage = stage) :
    w.HoldsAt stage :=
  hStage ▸ h

/-- What others do is recorded. -/
theorem Recorded.meanwhile (h : w.Recorded) {e : KeyEvent} (hEvent : w.surface.happen e = .ok t) :
    ({ w with surface := t, since := w.since ++ [e] } : Waiting).Recorded := by
  -- Unless it is a press, the keys held before can only become fewer.
  have hStill : (∀ code, .press code ∉ w.since ++ [e]) →
      StillHeld (w.since ++ [e]) w.heldBefore w.surface.keypad.held := by
    intro hNone
    exact (h.stillHeld fun code hIn => hNone code (List.mem_append_left _ hIn)).mono
      (List.subset_append_left _ _)
  rcases Surface.eq_of_happen hEvent with ⟨key, rfl, rfl⟩ | ⟨key, rfl, rfl⟩ | ⟨code, rfl, rfl⟩ | ⟨rfl, rfl⟩
  · refine ⟨isLatest_append_press w.since key, fun hNone => ?_⟩
    exact absurd (List.mem_append_right _ (List.mem_singleton_self _)) (hNone key.val)
  · refine ⟨h.latest.append fun _ hPress => KeyEvent.noConfusion hPress, fun hNone => ?_⟩
    exact (hStill hNone).erase (List.mem_append_right _ (List.mem_singleton_self _))
  · exact ⟨h.latest.append fun _ hPress => KeyEvent.noConfusion hPress, hStill⟩
  · exact ⟨h.latest.append fun _ hPress => KeyEvent.noConfusion hPress, hStill⟩

theorem HoldsAt.meanwhile {stage : WaitStage} (h : w.HoldsAt stage) {e : KeyEvent}
    (hOn : ∀ found, stage ≠ .ended found) (hEvent : w.surface.happen e = .ok t) :
    ({ w with surface := t, since := w.since ++ [e] } : Waiting).HoldsAt stage := by
  have hSignal := Surface.signal_or_quiet_of_happen hEvent
  cases stage with
  | clearing => trivial
  | checking => exact Recorded.meanwhile h hEvent
  | looking =>
      refine ⟨h.1.meanwhile hEvent, ?_⟩
      rcases hSignal with hUp | ⟨hSame, hOpen, -⟩
      · exact .inl hUp
      · show t.signal = true ∨ t.isOpen = true
        rw [hSame, hOpen]
        exact h.2
  | sleeping =>
      refine ⟨h.1.meanwhile hEvent, ?_⟩
      rcases hSignal with hUp | ⟨hSame, hOpen, hPoll⟩
      · exact .inl hUp
      · show t.signal = true ∨ t.isOpen = true ∧ t.poll.1 = none
        rw [hSame, hOpen]
        exact h.2.imp_right fun hQuiet => ⟨hQuiet.1, hPoll hQuiet.2⟩
  | waking => exact Recorded.meanwhile h hEvent
  | ended found => exact absurd rfl (hOn found)

/-- A key that is found is the one that is to be delivered. -/
theorem Recorded.delivers (h : w.Recorded) (hPoll : w.surface.poll = (some key, t)) :
    ({ w with surface := t, stage := .ended (some key) } : Waiting).Delivers key := by
  simp only [Surface.poll, Keypad.poll] at hPoll
  have hLatest := h.latest
  cases hLatch : w.surface.keypad.latch with
  | some latest =>
      rw [hLatch] at hPoll hLatest
      cases hPoll
      exact .inl hLatest
  | none =>
      rw [hLatch] at hPoll hLatest
      obtain ⟨hHead, rfl⟩ := Prod.mk.inj hPoll
      obtain ⟨rest, hHeld⟩ := List.head?_eq_some_iff.1 hHead
      have hStill := h.stillHeld hLatest
      rw [hHeld] at hStill
      exact .inr ⟨hLatest, hHead, hStill.exists_eq_append⟩

/-- One step keeps the invariant. -/
theorem Invariant.step (h : w.Invariant) (hStep : Step w next) : next.Invariant := by
  cases hStep with
  | meanwhile hOn hEvent => exact HoldsAt.meanwhile h hOn hEvent
  | clear hStage => exact ⟨fun _ => List.not_mem_nil, fun _ => StillHeld.refl [] _⟩
  | closed hStage hClosed => trivial
  | pass hStage hOpen =>
      have hBefore : w.Recorded := h.holdsAt hStage
      exact ⟨⟨hBefore.latest, hBefore.stillHeld⟩, .inr hOpen⟩
  | found hStage hPoll =>
      have hBefore := h.holdsAt hStage
      exact hBefore.1.delivers hPoll
  | nothing hStage hPoll =>
      obtain ⟨hRecorded, hSignal⟩ := h.holdsAt hStage
      have hNone : w.surface.poll.1 = none := congrArg Prod.fst hPoll
      obtain rfl := Surface.eq_of_poll hPoll
      exact ⟨⟨hRecorded.latest, hRecorded.stillHeld⟩, hSignal.imp_right fun hOpen => ⟨hOpen, hNone⟩⟩
  | wake hStage =>
      have hBefore := h.holdsAt hStage
      exact ⟨hBefore.1.latest, hBefore.1.stillHeld⟩
  | lower hStage =>
      have hBefore : w.Recorded := h.holdsAt hStage
      exact ⟨hBefore.latest, hBefore.stillHeld⟩

theorem invariant_of_reachable (h : Reachable s w) : w.Invariant := by
  unfold Reachable at h
  induction h with
  | refl => trivial
  | tail _ hStep ih => exact ih.step hStep

/-! ## The wait of a program -/

/-- The stage at which a wait of `Surface.awaitKey` ends.  What cannot happen happens while it sleeps. -/
def stageOf : WaitEnd → WaitStage
  | .key code => .ended (key? code)
  | .closed => .ended none
  | .fault _ => .sleeping

/-- What happens while the wait sleeps is done by others, one after the other. -/
theorem steps_of_happenAll {seen : List KeyEvent} {fault : Option Fault}
    (h : w.surface.happenAll events = (t, seen, fault)) (hStage : w.stage = .sleeping) :
    Relation.ReflTransGen Step w { w with surface := t, since := w.since ++ seen } := by
  induction events generalizing w seen with
  | nil =>
      cases h
      rw [List.append_nil]
  | cons e events ih =>
      have hOn : ∀ found, w.stage ≠ .ended found := by
        intro found hEnded
        cases hStage.symm.trans hEnded
      obtain ⟨f, -, rfl, rfl, -⟩ | ⟨next, others, hEvent, hRest, rfl⟩ :=
        Surface.cases_of_happenAll_cons h
      · rw [List.append_nil]
      · have hLater := ih (w := { w with surface := next, since := w.since ++ [e] }) hRest hStage
        rw [List.append_assoc, List.singleton_append] at hLater
        exact .head (.meanwhile hOn hEvent) hLater

/-- An open surface at which nothing is found is slept at. -/
theorem steps_of_look (hStage : w.stage = .checking) (hOpen : w.surface.isOpen = true)
    (hLook : w.surface.look none = (none, t)) :
    Relation.ReflTransGen Step w { w with surface := t, stage := .sleeping } := by
  obtain ⟨key, hPoll, hKey⟩ := Surface.poll_of_look hLook
  cases key with
  | some key => cases hKey
  | none => exact .head (.pass hStage hOpen) (.single (.nothing rfl hPoll))

/-- A wait of a program is made of these steps, where others come in only while it sleeps. -/
theorem reachable_awaitKey (s : Surface) (script : List (List KeyEvent)) :
    Reachable s {
      surface := (s.clearPress.awaitKey none script).surface
      stage := stageOf (s.clearPress.awaitKey none script).ending
      heldBefore := s.keypad.held
      since := (s.clearPress.awaitKey none script).seen } := by
  have hSteps := @Surface.awaitKey_induction none (fun s wait => ∀ held earlier,
    Relation.ReflTransGen Step
      { surface := s, stage := .checking, heldBefore := held, since := earlier }
      { surface := wait.surface, stage := stageOf wait.ending, heldBefore := held
        since := earlier ++ wait.seen })
    ?closed ?found ?scriptEnd ?fault ?sleep script s.clearPress s.keypad.held []
  case closed =>
    intro s script hClosed held earlier
    rw [List.append_nil]
    exact .single (.closed rfl hClosed)
  case found =>
    intro s t script code hOpen hLook held earlier
    obtain ⟨key, hPoll, hKey⟩ := Surface.poll_of_look hLook
    cases key with
    | none => cases hKey
    | some key =>
        cases hKey
        rw [List.append_nil, stageOf, Surface.key?_val]
        exact .head (.pass rfl hOpen) (.single (.found rfl hPoll))
  case scriptEnd =>
    intro s t hOpen hLook held earlier
    refine (steps_of_look (w := ⟨s, .checking, held, earlier⟩) rfl hOpen hLook).trans ?_
    refine .head (.meanwhile (e := .close) (fun _ hEnded => WaitStage.noConfusion hEnded) rfl) ?_
    exact .head (.wake rfl) (.head (.lower rfl) (.single (.closed rfl rfl)))
  case fault =>
    intro s t u batch seen later f hOpen hLook hBatch held earlier
    exact (steps_of_look (w := ⟨s, .checking, held, earlier⟩) rfl hOpen hLook).trans
      (steps_of_happenAll hBatch rfl)
  case sleep =>
    intro s t u batch seen rest hOpen hLook hBatch hRest held earlier
    have hSlept := (steps_of_look (w := ⟨s, .checking, held, earlier⟩) rfl hOpen hLook).trans
      (steps_of_happenAll hBatch rfl)
    have hWoken := (hSlept.tail (.wake rfl)).tail (.lower rfl)
    rw [← List.append_assoc]
    exact hWoken.trans (hRest held (earlier ++ seen))
  exact .head (.clear rfl) hSteps

/-! ## No wake-up is lost -/

theorem Delivers.mem (h : w.Delivers key) : key ∈ w.heldBefore ∨ .press key.val ∈ w.since := by
  rcases h with ⟨earlier, later, hSince, -⟩ | ⟨-, -, front, rest, hHeld, -⟩
  · refine .inr ?_
    rw [hSince]
    exact List.mem_append_right _ List.mem_cons_self
  · refine .inl ?_
    rw [hHeld]
    exact List.mem_append_right _ List.mem_cons_self

/-- A wait that is about to sleep while its signal is down has nothing to wake up for. -/
theorem quiet_of_sleeping (h : Reachable s w) (hStage : w.stage = .sleeping)
    (hDown : w.surface.wait.1 = false) :
    w.surface.isOpen = true ∧ w.surface.poll.1 = none ∧ ∀ code, .press code ∉ w.since := by
  obtain ⟨hRecorded, hUp | ⟨hOpen, hPoll⟩⟩ := (invariant_of_reachable h).holdsAt hStage
  · cases hDown.symm.trans hUp
  · have hLatest := hRecorded.latest
    rw [(Surface.poll_eq_none_iff.1 hPoll).1] at hLatest
    exact ⟨hOpen, hPoll, hLatest⟩

theorem delivers_of_ended (h : Reachable s w) (hStage : w.stage = .ended (some key)) :
    w.Delivers key :=
  (invariant_of_reachable h).holdsAt hStage

/-- Whatever the surface is like at first and whatever others do meanwhile: a wait that is about to sleep
finds the signal raised if the surface was closed, if a key was pressed since the wait began, or if a key
is held, so that it sleeps only where there is nothing for it; a wait that ends with a key ends with the
latest press since it began, or if there was none with the key that has been held longest, and never with
one that was neither held at its beginning nor pressed since.  The wait of a program is such a wait. -/
theorem sleeps_only_without_need (s : Surface) :
    (∀ w, Reachable s w → w.stage = .sleeping →
      (w.surface.isOpen = false ∨ (∃ code, .press code ∈ w.since) ∨ w.surface.keypad.held ≠ [] →
        w.surface.wait.1 = true) ∧
      (w.surface.wait.1 = false → w.surface.isOpen = true ∧ w.surface.poll.1 = none)) ∧
    (∀ w key, Reachable s w → w.stage = .ended (some key) →
      w.Delivers key ∧ (key ∈ w.heldBefore ∨ .press key.val ∈ w.since)) ∧
    ∀ script, Reachable s {
      surface := (s.clearPress.awaitKey none script).surface
      stage := stageOf (s.clearPress.awaitKey none script).ending
      heldBefore := s.keypad.held
      since := (s.clearPress.awaitKey none script).seen } := by
  refine ⟨?_, ?_, reachable_awaitKey s⟩
  · intro w hReachable hStage
    refine ⟨fun hNeed => ?_, fun hDown => ?_⟩
    · by_contra hDown
      obtain ⟨hOpen, hPoll, hNoPress⟩ :=
        quiet_of_sleeping hReachable hStage (Bool.eq_false_iff.2 hDown)
      rcases hNeed with hClosed | ⟨code, hPress⟩ | hHeld
      · cases hOpen.symm.trans hClosed
      · exact hNoPress code hPress
      · exact hHeld (Surface.poll_eq_none_iff.1 hPoll).2
    · obtain ⟨hOpen, hPoll, -⟩ := quiet_of_sleeping hReachable hStage hDown
      exact ⟨hOpen, hPoll⟩
  · intro w key hReachable hStage
    have hDelivers := delivers_of_ended hReachable hStage
    exact ⟨hDelivers, hDelivers.mem⟩

/-- A signal and a press are left from before the wait.  It sleeps once for nothing; then a key is pressed
and released before it sleeps again, and it is awake at once and ends with that key. -/
theorem sleeps_only_without_need_after_stale_press :
    ∃ w last : Waiting, Reachable { signal := true, keypad := { latch := some 3 } } w ∧
      w.stage = .sleeping ∧ w.since = [.press 5, .release 5] ∧ w.surface.keypad.held = [] ∧
      w.surface.wait.1 = true ∧
      Relation.ReflTransGen Step w last ∧ last.stage = .ended (some 5) ∧ last.Delivers 5 := by
  let stale : Surface := { signal := true, keypad := { latch := some 3 } }
  obtain ⟨hAwake, hDelivers, -⟩ := sleeps_only_without_need stale
  have hOn : ∀ found, WaitStage.sleeping ≠ .ended found := fun _ hEnded => WaitStage.noConfusion hEnded
  have hBegun : Reachable stale { surface := { signal := true }, stage := .checking } :=
    .single (.clear rfl)
  have hFirst : Reachable stale { surface := { signal := true }, stage := .sleeping } :=
    (hBegun.tail (.pass rfl rfl)).tail (.nothing rfl rfl)
  have hAgain : Reachable stale { surface := {}, stage := .checking } :=
    (hFirst.tail (.wake rfl)).tail (.lower rfl)
  have hSecond : Reachable stale { surface := {}, stage := .sleeping } :=
    (hAgain.tail (.pass rfl rfl)).tail (.nothing rfl rfl)
  let pressed : Surface := { signal := true, keypad := { latch := some 5 } }
  have hPressed : Reachable stale
      { surface := pressed, stage := .sleeping, since := [.press 5, .release 5] } :=
    (hSecond.tail (.meanwhile (e := .press 5) hOn rfl)).tail (.meanwhile (e := .release 5) hOn rfl)
  have hEnd : Relation.ReflTransGen Step
      { surface := pressed, stage := .sleeping, since := [.press 5, .release 5] }
      { surface := {}, stage := .ended (some 5), since := [.press 5, .release 5] } :=
    .head (.wake rfl) (.head (.lower rfl) (.head (.pass rfl rfl) (.single (.found rfl rfl))))
  have hRaised := (hAwake _ hPressed rfl).1 (.inr (.inl ⟨5, List.mem_cons_self⟩))
  have hKey := (hDelivers _ 5 (hPressed.trans hEnd) rfl).1
  exact ⟨_, _, hPressed, rfl, rfl, rfl, hRaised, hEnd, rfl, hKey⟩

end Waiting

end Chip8
