import Chip8.Proofs.Keys
import Chip8.Proofs.Machine.Waiting
import Chip8.Window

/-!
# The window from its opening to its end

What happens at a window is its history: the inputs that are passed on, and between them what others
ask of its surface.  From the history alone follow the keypad, the picture that is to be shown
(`IsNewest`) and whether the window was told to close (`Told`).

`Tracks` says that a surface is what the history has made of it.  A surface differs from that only in
the slot for the published picture, which the window empties whenever it paints.  Each turn keeps
`Tracks` and paints the newest picture once (`Tracks.turn`), so that all turns up to the one in which
the window is told to close do (`Tracks.turns`), and then no other follows.
-/

namespace Chip8.Window

/-! ## Histories -/

/-- Something that happens at the surface of a window: others ask something of it, or the window passes
on an input. -/
inductive Happening where
  | asked (r : Surface.Request)
  | input (i : Input)
deriving DecidableEq, Repr

namespace Happening

/-- The surface after it. -/
def on (s : Surface) : Happening → Surface
  | asked r => s.served r
  | input i => handle s i

/-- The window is told to close: by others, by its frame or by the escape key. -/
def Closes : Happening → Prop
  | asked r => r = .close
  | input i => i = .quit ∨ i = .down escapeKey

/-- The use of the keys that it is, if it is one.  An input is one if its key is on the keymap. -/
def keyUse? : Happening → Option KeyUse
  | asked r => r.keyUse?
  | input (.down name) =>
    if name = escapeKey then none
    else (keymap.lookup name).map fun key => .press (key.val : Int)
  | input (.up name) => (keymap.lookup name).map fun key => .release (key.val : Int)
  | input _ => none

end Happening

open Happening

/-- What happens in a turn up to the painting. -/
def Batch.heard (b : Batch) : List Happening := b.requests.map asked ++ b.inputs.map input

/-- What happens in a turn. -/
def Batch.all (b : Batch) : List Happening := b.heard ++ b.late.map asked

/-- What happens before the first turn and in the turns. -/
def history (early : List Surface.Request) (batches : List Batch) : List Happening :=
  early.map asked ++ batches.flatMap Batch.all

/-- A new surface after all that happened, if no picture is ever taken from it. -/
def reached (past : List Happening) : Surface := past.foldl on {}

/-- The keypad of a new surface after the uses of its keys that happened. -/
def keypadAfter (past : List Happening) : Keypad :=
  (({} : Surface).afterUses (past.filterMap keyUse?)).keypad

/-- The window was told to close. -/
def Told (past : List Happening) : Prop := ∃ h ∈ past, h.Closes

instance (h : Happening) : Decidable h.Closes :=
  match h with
  | asked r => inferInstanceAs (Decidable (r = .close))
  | input i => inferInstanceAs (Decidable (i = .quit ∨ i = .down escapeKey))

instance (past : List Happening) : Decidable (Told past) :=
  inferInstanceAs (Decidable (∃ h ∈ past, h.Closes))

/-- The picture is the one that was published last, or the dark one if none was published. -/
def IsNewest (past : List Happening) (frame : Frame) : Prop :=
  (∃ before later, past = before ++ asked .publish :: later ∧ asked .publish ∉ later ∧
      frame = (reached before).display.pixels) ∨
    asked .publish ∉ past ∧ frame = darkFrame

/-- Others take no pictures from the surface. -/
def LeavesPictures (past : List Happening) : Prop :=
  asked .take ∉ past ∧ asked .renderFrame ∉ past

/-- The turns are those up to the one by whose end the window was told to close: before each of them it
was not told yet. -/
def EndsAfter (early : List Surface.Request) (batches : List Batch) : Prop :=
  Told (history early batches) ∧
    ∀ front b rest, batches = front ++ b :: rest → ¬Told (history early front)

/-- The calls are what a window asks of the toolkit in turns that come after the past: in each turn it
paints once, namely the newest picture, and shows it over a surface with the keypad of that moment. -/
inductive Paints (config : Config) : List Happening → List Batch → List Call → Prop where
  | nil (past : List Happening) : Paints config past [] []
  | turn {past : List Happening} {b : Batch} {later : List Batch} {frame : Frame} {s : Surface}
      {calls : List Call} (hNewest : IsNewest (past ++ b.heard) frame)
      (hKeypad : s.keypad = keypadAfter (past ++ b.heard))
      (hLater : Paints config (past ++ b.all) later calls) :
      Paints config past (b :: later)
        (paint config.scale frame ++ .flip s :: .tick config.rate :: calls)

/-- The call asks something of the toolkit, and is no answer to others. -/
def Call.isOfToolkit : Call → Bool
  | .answer _ => false
  | _ => true

/-- What holds however a window ends.  A key wait that begins then ends at once, and one that sleeps is
woken and ends.  A toolkit that there is is left once, and nothing is asked of it then. -/
structure Outcome.IsOver (o : Outcome) (hasToolkit : Bool) : Prop where
  isOpen_eq : o.surface.isOpen = false
  started_eq : o.started = true
  signal_eq : o.surface.signal = true
  awaitKey_ends (stray : Option Int) (script : List (List KeyEvent)) :
    (o.surface.awaitKey stray script).ending = .closed
  sleeper_ends (w : Waiting) : w.surface = o.surface → w.stage = .sleeping →
    ∃ next, Relation.ReflTransGen Waiting.Step w next ∧ next.stage = .ended none
  leaves_once : ∃ calls, o.calls = calls ++ (if hasToolkit then [.leave] else []) ∧ .leave ∉ calls

variable {past events : List Happening} {h : Happening} {s : Surface} {shown frame : Frame}
  {early : List Surface.Request} {batches : List Batch} {b : Batch} {config : Config}

/-! ## One happening -/

theorem isOpen_onKey (s : Surface) (name : String) (down : Bool) :
    (s.onKey name down).isOpen = s.isOpen := by
  unfold Surface.onKey
  cases keymap.lookup name with
  | none => rfl
  | some key => cases down <;> rfl

theorem isOpen_on (h : Happening) (s : Surface) :
    (h.on s).isOpen = true ↔ ¬h.Closes ∧ s.isOpen = true := by
  cases h with
  | asked r => simp [on, Surface.served_eq, Closes]
  | input i =>
      cases i with
      | quit => simp [on, handle, Closes]
      | down name =>
          by_cases hEscape : name = escapeKey
          · simp [on, handle, Closes, hEscape]
          · simp [on, handle, Closes, hEscape, isOpen_onKey]
      | up name => simp [on, handle, Closes, isOpen_onKey]
      | other => simp [on, handle, Closes]

theorem keypad_on (h : Happening) (s : Surface) :
    (h.on s).keypad = h.keyUse?.elim s.keypad s.keypad.use := by
  cases h with
  | asked r =>
      rw [on, Surface.served_eq]
      cases r <;> rfl
  | input i =>
      cases i with
      | quit => rfl
      | down name =>
          by_cases hEscape : name = escapeKey
          · simp [on, handle, keyUse?, hEscape]
          · simp only [on, handle, keyUse?, if_neg hEscape, Surface.onKey]
            cases keymap.lookup name with
            | none => rfl
            | some key => exact (s.keypad.use_press key).symm
      | up name =>
          simp only [on, handle, keyUse?, Surface.onKey]
          cases keymap.lookup name with
          | none => rfl
          | some key => exact (s.keypad.use_release key).symm
      | other => rfl

theorem on_withPending (hTake : h ≠ asked .take) (hRender : h ≠ asked .renderFrame) (s : Surface)
    (pending : Option Frame) :
    h.on (s.withPending pending) =
      (h.on s).withPending (if h = asked .publish then some s.display.pixels else pending) := by
  cases h with
  | asked r =>
      have hServed := Surface.served_withPending (fun hSame => hTake (congrArg asked hSame))
        (fun hSame => hRender (congrArg asked hSame)) s pending
      simp only [asked.injEq]
      exact hServed
  | input i =>
      rw [if_neg Happening.noConfusion]
      have hKey : ∀ name down, (s.withPending pending).onKey name down =
          (s.onKey name down).withPending pending := by
        intro name down
        unfold Surface.onKey
        cases keymap.lookup name with
        | none => rfl
        | some key => cases down <;> rfl
      cases i with
      | quit => rfl
      | down name =>
          by_cases hEscape : name = escapeKey
          · simp only [on, handle, if_pos hEscape]
            rfl
          · simp only [on, handle, if_neg hEscape]
            exact hKey name true
      | up name => exact hKey name false
      | other => rfl

/-! ## What a history makes of a surface -/

theorem leavesPictures_append :
    LeavesPictures (past ++ events) ↔ LeavesPictures past ∧ LeavesPictures events := by
  simp only [LeavesPictures, List.mem_append, not_or]
  exact and_and_and_comm

theorem told_append : Told (past ++ events) ↔ Told past ∨ Told events := by
  simp only [Told, List.mem_append, or_and_right, exists_or]

theorem history_concat (early : List Surface.Request) (front : List Batch) (b : Batch) :
    history early (front ++ [b]) = history early front ++ b.all := by
  rw [history, history, List.flatMap_append, List.flatMap_singleton, List.append_assoc]

/-- If there are turns at all, the window is told to close in the last of them first. -/
theorem endsAfter_concat {front : List Batch} :
    EndsAfter early (front ++ [b]) ↔ ¬Told (history early front) ∧ Told b.all := by
  constructor
  · rintro ⟨hTold, hOpen⟩
    have hBefore := hOpen front b [] rfl
    rw [history_concat, told_append] at hTold
    exact ⟨hBefore, hTold.resolve_left hBefore⟩
  · rintro ⟨hBefore, hLast⟩
    refine ⟨?_, fun start c rest hSplit hTold => hBefore ?_⟩
    · rw [history_concat, told_append]
      exact .inr hLast
    · -- A beginning that does not go to the end is a beginning of `front`.
      have hStart : start <+: front := by
        rcases List.eq_nil_or_concat rest with rfl | ⟨others, d, rfl⟩
        · exact (List.append_inj' hSplit rfl).1 ▸ List.prefix_refl _
        · rw [List.concat_eq_append, ← List.cons_append, ← List.append_assoc] at hSplit
          exact (List.append_inj' hSplit rfl).1 ▸ List.prefix_append _ _
      obtain ⟨others, rfl⟩ := hStart
      rw [history, List.flatMap_append, ← List.append_assoc, told_append]
      exact .inl hTold

theorem reached_concat (past : List Happening) (h : Happening) :
    reached (past ++ [h]) = h.on (reached past) := by
  rw [reached, List.foldl_append]
  rfl

theorem keypad_reached (past : List Happening) : (reached past).keypad = keypadAfter past := by
  have hFold : ∀ (past : List Happening) (s : Surface),
      (past.foldl on s).keypad = (past.filterMap keyUse?).foldl Keypad.use s.keypad := by
    intro past
    induction past with
    | nil => exact fun _ => rfl
    | cons h past ih =>
        intro s
        rw [List.foldl_cons, ih, keypad_on, List.filterMap_cons]
        cases h.keyUse? <;> rfl
  rw [keypadAfter, Surface.keypad_afterUses]
  exact hFold past {}

theorem isOpen_reached (past : List Happening) : (reached past).isOpen = true ↔ ¬Told past := by
  induction past using List.reverseRecOn with
  | nil => simp [reached, Told]
  | append_singleton past h ih => simp [reached_concat, isOpen_on, ih, Told, and_comm]

theorem isNewest_nil : IsNewest [] darkFrame := .inr ⟨List.not_mem_nil, rfl⟩

theorem isNewest_concat_publish (past : List Happening) :
    IsNewest (past ++ [asked .publish]) (reached past).display.pixels :=
  .inl ⟨past, [], rfl, List.not_mem_nil, rfl⟩

theorem IsNewest.concat (hNewest : IsNewest past frame) (hOther : h ≠ asked .publish) :
    IsNewest (past ++ [h]) frame := by
  rcases hNewest with ⟨before, later, rfl, hLater, hFrame⟩ | ⟨hNone, hFrame⟩
  · exact .inl ⟨before, later ++ [h], by simp, by simp [hLater, Ne.symm hOther], hFrame⟩
  · exact .inr ⟨by simp [hNone, Ne.symm hOther], hFrame⟩

/-- The surface after the published picture was taken. -/
def emptied (s : Surface) : Surface := { s with display := s.display.take.2 }

/-- The surface is what the past has made of it, and in its slot there is the newest picture, unless it
is shown already. -/
def Tracks (s : Surface) (shown : Frame) (past : List Happening) : Prop :=
  ∃ pending, s = (reached past).withPending pending ∧ IsNewest past (pending.getD shown)

namespace Tracks

theorem new : Tracks { unopened with isOpen := true } darkFrame [] := ⟨none, rfl, isNewest_nil⟩

theorem keypad_eq (hTracks : Tracks s shown past) : s.keypad = keypadAfter past := by
  obtain ⟨pending, rfl, -⟩ := hTracks
  exact keypad_reached past

theorem isOpen_iff (hTracks : Tracks s shown past) : s.isOpen = true ↔ ¬Told past := by
  obtain ⟨pending, rfl, -⟩ := hTracks
  exact isOpen_reached past

theorem on (hTracks : Tracks s shown past) (hTake : h ≠ asked .take)
    (hRender : h ≠ asked .renderFrame) : Tracks (h.on s) shown (past ++ [h]) := by
  obtain ⟨pending, rfl, hNewest⟩ := hTracks
  rw [on_withPending hTake hRender]
  refine ⟨_, by rw [reached_concat], ?_⟩
  -- A publication replaces what is in the slot, and nothing else touches it.
  by_cases hPublish : h = asked .publish
  · rw [if_pos hPublish, hPublish]
    exact isNewest_concat_publish past
  · rw [if_neg hPublish]
    exact hNewest.concat hPublish

theorem onAll (hTracks : Tracks s shown past) (hPictures : LeavesPictures events) :
    Tracks (events.foldl Happening.on s) shown (past ++ events) := by
  induction events generalizing s past with
  | nil => simpa using hTracks
  | cons h events ih =>
      have hSplit : LeavesPictures ([h] ++ events) := hPictures
      obtain ⟨⟨hTake, hRender⟩, hLater⟩ := leavesPictures_append.1 hSplit
      have hFirst := hTracks.on (List.ne_of_not_mem_cons hTake).symm
        (List.ne_of_not_mem_cons hRender).symm
      have hRest := ih hFirst hLater
      rwa [List.append_assoc] at hRest

/-- The window takes the picture in the slot, if there is one, and shows it from then on. -/
theorem take (hTracks : Tracks s shown past) :
    Tracks (emptied s) (s.display.take.1.getD shown) past ∧
      IsNewest past (s.display.take.1.getD shown) := by
  obtain ⟨pending, rfl, hNewest⟩ := hTracks
  exact ⟨⟨none, rfl, hNewest⟩, hNewest⟩

end Tracks

/-! ## Turns -/

theorem answerAll_spec (requests : List Surface.Request) (s : Surface) :
    (answerAll s requests).2 = (requests.map asked).foldl on s ∧
      ∀ c ∈ (answerAll s requests).1, ∃ reply, c = .answer reply := by
  induction requests generalizing s with
  | nil => exact ⟨rfl, List.forall_mem_nil _⟩
  | cons request later ih =>
      rw [answerAll, List.map_cons, List.foldl_cons]
      obtain ⟨hSurface, hAnswers⟩ := ih (s.served request)
      cases hPerform : s.perform request with
      | ok answer =>
          have hServed : s.served request = answer.2 := by rw [Surface.served, hPerform]
          rw [hServed] at hSurface hAnswers
          exact ⟨hSurface.trans (by rw [on, hServed]), List.forall_mem_cons.2 ⟨⟨_, rfl⟩, hAnswers⟩⟩
      | error f =>
          have hServed : s.served request = s := by rw [Surface.served, hPerform]
          rw [hServed] at hSurface hAnswers
          exact ⟨hSurface.trans (by rw [on, hServed]), List.forall_mem_cons.2 ⟨⟨_, rfl⟩, hAnswers⟩⟩

theorem filter_answers {calls : List Call} (hAnswers : ∀ c ∈ calls, ∃ reply, c = .answer reply) :
    calls.filter Call.isOfToolkit = [] := by
  rw [List.filter_eq_nil_iff]
  intro c hc
  obtain ⟨reply, rfl⟩ := hAnswers c hc
  exact Bool.false_ne_true

theorem mem_paint {scale : Int} {c : Call} (hc : c ∈ paint scale frame) :
    c = .fill darkColor ∨ ∃ n, c = rectAt scale n := by
  rcases List.mem_cons.1 hc with rfl | hRect
  · exact .inl rfl
  · obtain ⟨p, -, rfl⟩ := List.mem_map.1 hRect
    exact .inr ⟨p.2, rfl⟩

theorem filter_paint (scale : Int) (frame : Frame) :
    (paint scale frame).filter Call.isOfToolkit = paint scale frame := by
  rw [List.filter_eq_self]
  intro c hc
  rcases mem_paint hc with rfl | ⟨n, rfl⟩
  · rfl
  · rfl

/-- What is called in a turn, and what it leaves. -/
theorem exists_turn_eq (config : Config) (s : Surface) (shown : Frame) (b : Batch) :
    ∃ answers late : List Call, (∀ c ∈ answers ++ late, ∃ reply, c = .answer reply) ∧
      let heard := b.heard.foldl on s
      let frame := heard.display.take.1.getD shown
      turn config s shown b =
        (answers ++ paint config.scale frame ++ [.flip (emptied heard), .tick config.rate] ++ late,
          (b.late.map asked).foldl on (emptied heard), frame) := by
  have hHeard : b.inputs.foldl handle (answerAll s b.requests).2 = b.heard.foldl on s := by
    rw [(answerAll_spec b.requests s).1, Batch.heard, List.foldl_append, List.foldl_map,
      List.foldl_map]
    rfl
  have hLate := answerAll_spec b.late (emptied (b.heard.foldl on s))
  refine ⟨(answerAll s b.requests).1, (answerAll (emptied (b.heard.foldl on s)) b.late).1,
    List.forall_mem_append.2 ⟨(answerAll_spec b.requests s).2, hLate.2⟩, ?_⟩
  dsimp only
  rw [← hLate.1, ← hHeard]
  rfl

/-- A turn paints the newest picture. -/
theorem Tracks.turn (hTracks : Tracks s shown past) (hPictures : LeavesPictures b.all)
    (config : Config) :
    ∃ calls last frame painted, Window.turn config s shown b = (calls, last, frame) ∧
      calls.filter Call.isOfToolkit =
        paint config.scale frame ++ [.flip painted, .tick config.rate] ∧
      IsNewest (past ++ b.heard) frame ∧ painted.keypad = keypadAfter (past ++ b.heard) ∧
      Tracks last frame (past ++ b.all) := by
  obtain ⟨answers, late, hAnswers, hTurn⟩ := exists_turn_eq config s shown b
  obtain ⟨hBefore, hLate⟩ := List.forall_mem_append.1 hAnswers
  obtain ⟨hHeard, hAfter⟩ := leavesPictures_append.1 hPictures
  obtain ⟨hPainted, hNewest⟩ := (hTracks.onAll hHeard).take
  have hLast := hPainted.onAll hAfter
  rw [List.append_assoc] at hLast
  refine ⟨_, _, _, _, hTurn, ?_, hNewest, hPainted.keypad_eq, hLast⟩
  rw [List.filter_append, List.filter_append, List.filter_append, filter_answers hBefore,
    filter_answers hLate, filter_paint, List.nil_append, List.append_nil]
  rfl

theorem turns_of_closed (hClosed : s.isOpen = false) (config : Config) (shown : Frame)
    (batches : List Batch) : turns config s shown batches = ([], s) := by
  cases batches with
  | nil => rw [turns, if_neg (by simp [hClosed])]
  | cons b later => rw [turns, if_neg (by simp [hClosed])]

/-- The turns up to the one by whose end the window is told to close paint one picture each, and no
other turn follows. -/
theorem Tracks.turns (hTracks : Tracks s shown past)
    (hPictures : LeavesPictures (batches.flatMap Batch.all))
    (hTold : Told (past ++ batches.flatMap Batch.all))
    (hOpen : ∀ front b rest, batches = front ++ b :: rest →
      ¬Told (past ++ front.flatMap Batch.all)) (config : Config) :
    ∃ calls last frame,
      (∀ later, Window.turns config s shown (batches ++ later) = (calls, last)) ∧
      Paints config past batches (calls.filter Call.isOfToolkit) ∧
      Tracks last frame (past ++ batches.flatMap Batch.all) := by
  induction batches generalizing s shown past with
  | nil =>
      rw [List.flatMap_nil, List.append_nil] at hTold ⊢
      -- The window has been told to close, and sees it before another turn begins.
      have hClosed : s.isOpen = false :=
        Bool.eq_false_iff.2 fun hOpen => hTracks.isOpen_iff.1 hOpen hTold
      exact ⟨[], s, shown, turns_of_closed hClosed config shown, .nil past, hTracks⟩
  | cons b batches ih =>
      rw [List.flatMap_cons] at hPictures hTold ⊢
      obtain ⟨hNowPictures, hLaterPictures⟩ := leavesPictures_append.1 hPictures
      have hNow : s.isOpen = true := by
        refine hTracks.isOpen_iff.2 ?_
        simpa using hOpen [] b batches rfl
      obtain ⟨calls, last, frame, painted, hTurn, hCalls, hNewest, hKeypad, hAfter⟩ :=
        hTracks.turn hNowPictures config
      have hLaterOpen : ∀ front c rest, batches = front ++ c :: rest →
          ¬Told (past ++ b.all ++ front.flatMap Batch.all) := by
        intro front c rest hSplit
        have hBefore := hOpen (b :: front) c rest (congrArg (b :: ·) hSplit)
        rwa [List.flatMap_cons, ← List.append_assoc] at hBefore
      obtain ⟨others, final, newest, hTurns, hPaints, hFinal⟩ :=
        ih hAfter hLaterPictures (by rwa [List.append_assoc]) hLaterOpen
      refine ⟨calls ++ others, final, newest, fun later => ?_, ?_, ?_⟩
      · rw [List.cons_append, Window.turns, if_pos hNow, hTurn]
        dsimp only
        rw [hTurns later]
      · rw [List.filter_append, hCalls, List.append_assoc]
        exact .turn hNewest hKeypad hPaints
      · rwa [List.append_assoc] at hFinal

/-! ## The end -/

theorem leave_notMem_answers {calls : List Call}
    (hAnswers : ∀ c ∈ calls, ∃ reply, c = .answer reply) : .leave ∉ calls := by
  intro hIn
  obtain ⟨reply, hLeave⟩ := hAnswers _ hIn
  cases hLeave

theorem leave_notMem_turn (config : Config) (s : Surface) (shown : Frame) (b : Batch) :
    .leave ∉ (turn config s shown b).1 := by
  obtain ⟨answers, late, hAnswers, hTurn⟩ := exists_turn_eq config s shown b
  obtain ⟨hBefore, hLate⟩ := List.forall_mem_append.1 hAnswers
  have hPaint : ∀ frame, .leave ∉ paint config.scale frame := by
    intro frame hIn
    rcases mem_paint hIn with hLeave | ⟨n, hLeave⟩
    · cases hLeave
    · cases hLeave
  rw [hTurn]
  simp [leave_notMem_answers hBefore, leave_notMem_answers hLate, hPaint]

theorem leave_notMem_turns (config : Config) (s : Surface) (shown : Frame) (batches : List Batch) :
    .leave ∉ (turns config s shown batches).1 := by
  induction batches generalizing s shown with
  | nil =>
      rw [turns]
      split
      · exact leave_notMem_turn config s shown { inputs := [.quit] }
      · exact List.not_mem_nil
  | cons b later ih =>
      rw [turns]
      split
      · simp [leave_notMem_turn, ih]
      · exact List.not_mem_nil

/-- Whatever has become of a window, finishing leaves it over. -/
theorem Outcome.isOver_finish {o : Outcome} (hLeave : .leave ∉ o.calls) (hasToolkit : Bool) :
    (o.finish hasToolkit).IsOver hasToolkit where
  isOpen_eq := rfl
  started_eq := rfl
  signal_eq := rfl
  awaitKey_ends _ _ := congrArg (·.ending) (Surface.awaitKey_closed rfl)
  sleeper_ends w hSurface hStage := by
    have hClosed : w.surface.wait.2.isOpen = false := by rw [hSurface]; rfl
    refine ⟨_, .tail (.tail (.tail .refl (.wake hStage)) (.lower rfl)) (.closed rfl hClosed), rfl⟩
  leaves_once := ⟨o.calls, rfl, hLeave⟩

/-- What others ask before the first turn is answered, and counts as what has happened. -/
theorem exists_answerAll_early (early : List Surface.Request) :
    ∃ answers s, answerAll { unopened with isOpen := true } early = (answers, s) ∧
      (∀ c ∈ answers, ∃ reply, c = .answer reply) ∧
      (LeavesPictures (early.map asked) → Tracks s darkFrame (early.map asked)) := by
  obtain ⟨hSurface, hAnswers⟩ := answerAll_spec early { unopened with isOpen := true }
  refine ⟨_, _, rfl, hAnswers, fun hPictures => ?_⟩
  rw [hSurface]
  exact Tracks.new.onAll hPictures

theorem isOver_run (config : Config) (failure : Option Failure) (early : List Surface.Request)
    (batches : List Batch) :
    (run config failure early batches).IsOver (failure != some .absent) := by
  obtain ⟨answers, s, hEarly, hAnswers, -⟩ := exists_answerAll_early early
  have hLeave := leave_notMem_answers hAnswers
  have hOpening : .leave ∉ opening config := by simp [opening]
  rw [run, hEarly]
  cases failure with
  | none =>
      refine Outcome.isOver_finish ?_ true
      simp [opened, hOpening, hLeave, leave_notMem_turns]
  | some f =>
      cases f with
      | absent => exact Outcome.isOver_finish (by simp [opened, hLeave]) false
      | start => exact Outcome.isOver_finish (by simp [opened, hLeave]) true
      | mode => exact Outcome.isOver_finish (by simp [opened, hOpening, hLeave]) true

/-! ## The whole -/

theorem filter_opened (config : Config) (failure : Option Failure) :
    (opened config failure).filter Call.isOfToolkit = opened config failure := by
  cases failure with
  | none => rfl
  | some f => cases f <;> rfl

/-- A window that does not open asks for nothing more than to leave the toolkit. -/
theorem exists_run_of_failure (config : Config) {early : List Surface.Request}
    (hPictures : LeavesPictures (early.map asked)) (f : Failure) :
    ∃ o, (∀ later, run config (some f) early later = o) ∧
      o.calls.filter Call.isOfToolkit =
        opened config (some f) ++ (if f = .absent then [] else [.leave]) ∧
      o.surface.keypad = keypadAfter (early.map asked) := by
  obtain ⟨answers, s, hEarly, hAnswers, hTracks⟩ := exists_answerAll_early early
  refine ⟨_, fun later => by rw [run, hEarly], ?_, (hTracks hPictures).keypad_eq⟩
  simp only [Outcome.finish, List.filter_append, filter_opened, filter_answers hAnswers,
    List.append_nil]
  cases f <;> rfl

/-- A window that opens carries out the turns up to the one by whose end it is told to close. -/
theorem exists_run_of_endsAfter (config : Config) (hEnds : EndsAfter early batches)
    (hPictures : LeavesPictures (history early batches)) :
    ∃ o calls, (∀ later, run config none early (batches ++ later) = o) ∧
      o.calls.filter Call.isOfToolkit = opening config ++ calls ++ [.leave] ∧
      Paints config (early.map asked) batches calls ∧
      o.surface.keypad = keypadAfter (history early batches) := by
  obtain ⟨hTold, hOpen⟩ := hEnds
  obtain ⟨hFirst, hTurnPictures⟩ := leavesPictures_append.1 hPictures
  obtain ⟨answers, s, hEarly, hAnswers, hTracks⟩ := exists_answerAll_early early
  obtain ⟨calls, last, frame, hTurns, hPaints, hLast⟩ :=
    (hTracks hFirst).turns hTurnPictures hTold hOpen config
  refine ⟨Outcome.finish ⟨opened config none ++ answers ++ calls, last, true⟩ true, _,
    fun later => ?_, ?_, hPaints, hLast.keypad_eq⟩
  · rw [run, hEarly]
    dsimp only
    rw [hTurns later]
  · simp only [Outcome.finish, List.filter_append, filter_opened, filter_answers hAnswers,
      List.append_nil]
    rfl

/-- A window that opens carries out the turns up to the one by whose end it is told to close, and no
other, whatever else would come: it passes on all that is done to it, in order, and paints once in each
turn, each time the newest picture.  A window that does not open passes on and paints nothing.  However a
window ends, it is over for those who used it.  Others may ask whatever they like of its surface
meanwhile, but leave it to the window to take the pictures. -/
theorem run_follows_history (config : Config) {early : List Surface.Request} {batches : List Batch}
    (hEnds : EndsAfter early batches) (hPictures : LeavesPictures (history early batches)) :
    (∃ o calls, (∀ later, run config none early (batches ++ later) = o) ∧
      o.calls.filter Call.isOfToolkit = opening config ++ calls ++ [.leave] ∧
      Paints config (early.map asked) batches calls ∧
      o.surface.keypad = keypadAfter (history early batches)) ∧
    (∀ f, ∃ o, (∀ later, run config (some f) early later = o) ∧
      o.calls.filter Call.isOfToolkit =
        opened config (some f) ++ (if f = .absent then [] else [.leave]) ∧
      o.surface.keypad = keypadAfter (early.map asked)) ∧
    ∀ failure later, (run config failure early later).IsOver (failure != some .absent) := by
  have hEarly := (leavesPictures_append.1 hPictures).1
  exact ⟨exists_run_of_endsAfter config hEnds hPictures, exists_run_of_failure config hEarly,
    fun failure later => isOver_run config failure early later⟩

/-- A turn in which a picture is drawn and published and a key goes down. -/
def keyTurn : Batch where
  requests := [.draw 0 0 [0x80], .publish]
  inputs := [.down "q"]

/-- A turn in which the escape key goes down, and then another key goes down, the first goes up, and so
does one that is not on the keymap. -/
def escapeTurn : Batch where
  inputs := [.down "escape", .down "w", .up "q", .up "p"]

theorem run_follows_history_to_escape :
    EndsAfter [] [keyTurn, escapeTurn] ∧ LeavesPictures (history [] [keyTurn, escapeTurn]) ∧
      (∃ o calls, (∀ later, run {} none [] ([keyTurn, escapeTurn] ++ later) = o) ∧
        o.calls.filter Call.isOfToolkit = opening {} ++ calls ++ [.leave] ∧
        Paints {} [] [keyTurn, escapeTurn] calls ∧
        o.surface.keypad = { held := [5], latch := some 5 }) ∧
      ∀ later, (run {} (some .mode) [] later).IsOver true := by
  have hEnds : EndsAfter [] ([keyTurn] ++ [escapeTurn]) :=
    endsAfter_concat.2 ⟨by decide, by decide⟩
  have hPictures : LeavesPictures (history [] [keyTurn, escapeTurn]) := ⟨by decide, by decide⟩
  obtain ⟨hRun, -, hOver⟩ := run_follows_history {} hEnds hPictures
  exact ⟨hEnds, hPictures, hRun, fun later => hOver (some .mode) later⟩

end Chip8.Window
