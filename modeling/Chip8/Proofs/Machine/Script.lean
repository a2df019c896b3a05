import Chip8.Proofs.Machine.Footprint
import Chip8.Proofs.Machine.Refusal
import Chip8.Proofs.Machine.Waiting

/-!
# What a key wait comes to

A wait is over at once if the surface is closed or a key is held.  Otherwise the machine sleeps,
once for each batch of its script, until something happens that ends the wait.  Releases do not, and
so the wait goes on through all batches in which there is nothing else
(`Surface.Idle.happenAll_of_isQuiet`).  The first other batch decides it (`KeyEvent.endingBatch`):
it ends without a key if the surface is closed in that batch, and with the key that is pressed last
in it otherwise.  A script without such a batch is followed by the closing of the surface.

The presses of that batch have to be of keys that exist.  Any other press is refused to whoever
makes it.
-/

namespace Chip8

/-! ## Scripts -/

namespace KeyEvent

/-- Whether the event is the release of a key, which ends no wait. -/
def isRelease : KeyEvent → Bool
  | .release _ => true
  | _ => false

/-- Whether a wait sleeps through the batch: keys are released in it at most. -/
def isQuiet (batch : List KeyEvent) : Bool :=
  batch.all isRelease

/-- The first batch of a script in which a key is pressed or the surface is closed, and the batches
after it.  What comes at the end of every script, the closing of the surface, counts as such a
batch. -/
def endingBatch (script : List (List KeyEvent)) : List KeyEvent × List (List KeyEvent) :=
  match script.dropWhile isQuiet with
  | [] => ([.close], [])
  | batch :: later => (batch, later)

variable {batch : List KeyEvent} {later : List (List KeyEvent)}

theorem endingBatch_of_isQuiet (h : isQuiet batch = true) :
    endingBatch (batch :: later) = endingBatch later := by
  rw [endingBatch, List.dropWhile_cons_of_pos h]
  rfl

theorem endingBatch_of_not_isQuiet (h : isQuiet batch = false) :
    endingBatch (batch :: later) = (batch, later) := by
  rw [endingBatch, List.dropWhile_cons_of_neg (by simp [h])]

/-- In a batch that is not quiet a key is pressed or the surface is closed. -/
theorem exists_press_or_close (h : isQuiet batch = false) :
    (∃ code, .press code ∈ batch) ∨ .close ∈ batch := by
  obtain ⟨e, hIn, hOther⟩ := List.all_eq_false.1 h
  cases e with
  | press code => exact .inl ⟨code, hIn⟩
  | release code => exact absurd rfl hOther
  | close => exact .inr hIn

end KeyEvent

open KeyEvent Waiting

/-- Only one press is the latest. -/
theorem Waiting.IsLatest.unique {events : List KeyEvent} {key other : Key}
    (h : IsLatest events (some key)) (hOther : IsLatest events (some other)) : key = other := by
  obtain ⟨earlier, later, rfl, hLast⟩ := h
  obtain ⟨before, after, hSame, hLastOther⟩ := hOther
  -- If the presses are not the same, one of them comes after the other.
  rcases List.append_eq_append_iff.1 hSame with
    ⟨_ | ⟨e, rest⟩, -, hTail⟩ | ⟨_ | ⟨e, rest⟩, -, hTail⟩
  · obtain ⟨hPress, -⟩ := List.cons.inj hTail
    exact Fin.ext (Int.ofNat_inj.1 (KeyEvent.press.inj hPress))
  · obtain ⟨-, rfl⟩ := List.cons.inj hTail
    exact absurd (List.mem_append_right rest List.mem_cons_self) (hLast other.val)
  · obtain ⟨hPress, -⟩ := List.cons.inj hTail
    exact (Fin.ext (Int.ofNat_inj.1 (KeyEvent.press.inj hPress))).symm
  · obtain ⟨-, rfl⟩ := List.cons.inj hTail
    exact absurd (List.mem_append_right rest List.mem_cons_self) (hLastOther key.val)

/-- The wait ended with what happened in the batch: the surface was closed, or else a key was
pressed and taken. -/
def KeyWait.DecidedBy (wait : KeyWait) (batch : List KeyEvent) : Prop :=
  .close ∈ batch ∧ wait.ending = .closed ∨
    .close ∉ batch ∧ wait.surface.keypad.latch = none ∧
      ∃ key : Key, IsLatest batch (some key) ∧ wait.ending = .key key.val

namespace Surface

variable {s t : Surface} {batch events seen past : List KeyEvent} {script : List (List KeyEvent)}
  {key : Key} {others : List Key}

/-! ## Looks -/

theorem look_of_latch (h : s.keypad.latch = some key) :
    s.look none = (some (key.val : Int), s.clearPress) := by
  simp only [look, poll, Keypad.poll, h]
  rfl

theorem look_of_held (hLatch : s.keypad.latch = none) (hHeld : s.keypad.held = key :: others) :
    s.look none = (some (key.val : Int), s) := by
  simp only [look, poll, Keypad.poll, hLatch, hHeld]
  rfl

/-- A wait would sleep at the surface: it is open, and there is no key to be found. -/
structure Idle (s : Surface) : Prop where
  isOpen : s.isOpen = true
  latch_eq : s.keypad.latch = none
  held_eq : s.keypad.held = []

namespace Idle

theorem look (h : s.Idle) : s.look none = (none, s) := by
  simp only [Surface.look, poll, Keypad.poll, h.latch_eq, h.held_eq]
  rfl

theorem wait (h : s.Idle) : s.wait.2.Idle :=
  ⟨h.isOpen, h.latch_eq, h.held_eq⟩

/-- Where no key is held there is none to release. -/
theorem release (h : s.Idle) (code : Int) : s.release code = s := by
  cases hKey : key? code with
  | none => simp only [Surface.release, hKey]
  | some key =>
      have hSame : s.keypad.release key = s.keypad := by
        unfold Keypad.release
        rw [h.held_eq, List.erase_nil, ← h.held_eq]
      simp only [Surface.release, hKey, hSame]

/-- A quiet batch changes nothing. -/
theorem happenAll_of_isQuiet (h : s.Idle) (hQuiet : isQuiet batch = true) :
    s.happenAll batch = (s, batch, none) := by
  induction batch with
  | nil => rfl
  | cons e batch ih =>
      obtain ⟨hFirst, hRest⟩ := Bool.and_eq_true_iff.1 hQuiet
      cases e with
      | press code => cases hFirst
      | close => cases hFirst
      | release code =>
          have hSame : s.happen (.release code) = .ok s := congrArg Except.ok (h.release code)
          simp only [happenAll, hSame, ih hRest]

end Idle

/-! ## Batches -/

/-- Where nothing is refused, the first event happens and then the others. -/
theorem of_happenAll_cons {e : KeyEvent} (h : s.happenAll (e :: events) = (t, seen, none)) :
    ∃ next others, s.happen e = .ok next ∧ next.happenAll events = (t, others, none) := by
  obtain ⟨f, -, -, -, hFault⟩ | ⟨next, others, hEvent, hRest, -⟩ := cases_of_happenAll_cons h
  · cases hFault
  · exact ⟨next, others, hEvent, hRest⟩

/-- What a batch leaves in the latch is the latest press. -/
theorem isLatest_of_happenAll (h : IsLatest past s.keypad.latch)
    (hAll : s.happenAll events = (t, seen, none)) : IsLatest (past ++ events) t.keypad.latch := by
  induction events generalizing s past seen with
  | nil =>
      cases hAll
      rwa [List.append_nil]
  | cons e events ih =>
      obtain ⟨next, others, hEvent, hRest⟩ := of_happenAll_cons hAll
      rw [List.append_cons]
      refine ih ?_ hRest
      rcases eq_of_happen hEvent with
        ⟨key, rfl, rfl⟩ | ⟨key, rfl, rfl⟩ | ⟨code, rfl, rfl⟩ | ⟨rfl, rfl⟩
      · exact isLatest_append_press past key
      · exact h.append fun _ hPress => KeyEvent.noConfusion hPress
      · exact h.append fun _ hPress => KeyEvent.noConfusion hPress
      · exact h.append fun _ hPress => KeyEvent.noConfusion hPress

/-- A surface stays open as long as nobody closes it. -/
theorem isOpen_of_happenAll (hAll : s.happenAll events = (t, seen, none)) :
    t.isOpen = true ↔ s.isOpen = true ∧ .close ∉ events := by
  induction events generalizing s seen with
  | nil =>
      cases hAll
      simp
  | cons e events ih =>
      obtain ⟨next, others, hEvent, hRest⟩ := of_happenAll_cons hAll
      rw [ih hRest]
      rcases eq_of_happen hEvent with
        ⟨key, rfl, rfl⟩ | ⟨key, rfl, rfl⟩ | ⟨code, rfl, rfl⟩ | ⟨rfl, rfl⟩
      · simp
      · simp
      · simp
      · simp [close]

/-! ## Waits -/

/-- A wait that sleeps until a batch that is not quiet is decided by it. -/
theorem Idle.awaitKey_of_not_isQuiet (h : s.Idle) (later : List (List KeyEvent))
    (hLoud : isQuiet batch = false) (hExists : ∀ e ∈ batch, e.Exists) :
    (s.awaitKey none (batch :: later)).script = later ∧
      (s.awaitKey none (batch :: later)).DecidedBy batch := by
  obtain ⟨t, hBatch⟩ := exists_happenAll hExists s
  have hOpen := isOpen_of_happenAll hBatch
  rw [awaitKey_sleep h.isOpen h.look hBatch]
  by_cases hClose : .close ∈ batch
  · have hClosed : t.wait.2.isOpen = false := Bool.eq_false_iff.2 fun hStill =>
      (hOpen.1 hStill).2 hClose
    rw [awaitKey_closed hClosed]
    exact ⟨rfl, .inl ⟨hClose, rfl⟩⟩
  · obtain ⟨code, hPress⟩ := (exists_press_or_close hLoud).resolve_right hClose
    have hNone : IsLatest [] s.keypad.latch := h.latch_eq ▸ fun _ => List.not_mem_nil
    have hLatest := isLatest_of_happenAll hNone hBatch
    rw [List.nil_append] at hLatest
    cases hLatch : t.keypad.latch with
    | none =>
        rw [hLatch] at hLatest
        exact absurd hPress (hLatest code)
    | some key =>
        rw [hLatch] at hLatest
        have hAwake : t.wait.2.isOpen = true := hOpen.2 ⟨h.isOpen, hClose⟩
        rw [awaitKey_found hAwake (look_of_latch hLatch)]
        exact ⟨rfl, .inr ⟨hClose, rfl, key, hLatest, rfl⟩⟩

/-- A wait that begins with a sleep is decided by the first batch that is not quiet. -/
theorem Idle.awaitKey (h : s.Idle) (hExists : ∀ e ∈ (endingBatch script).1, e.Exists) :
    (s.awaitKey none script).script = (endingBatch script).2 ∧
      (s.awaitKey none script).DecidedBy (endingBatch script).1 := by
  induction script generalizing s with
  | nil =>
      rw [awaitKey_script_end h.isOpen h.look]
      exact ⟨rfl, .inl ⟨List.mem_singleton_self _, rfl⟩⟩
  | cons batch later ih =>
      cases hQuiet : isQuiet batch with
      | true =>
          rw [endingBatch_of_isQuiet hQuiet] at hExists ⊢
          rw [awaitKey_sleep h.isOpen h.look (h.happenAll_of_isQuiet hQuiet)]
          exact ih h.wait hExists
      | false =>
          rw [endingBatch_of_not_isQuiet hQuiet] at hExists ⊢
          exact h.awaitKey_of_not_isQuiet later hQuiet hExists

end Surface

namespace Machine

variable {m : Machine}

/-! ## The instruction -/

theorem ofReg_ofSlot (k : Fin registerCount) : Part.ofReg (Reg.ofSlot k) = {.register k} := by
  ext p
  constructor
  · rintro ⟨j, rfl, hSame⟩
    have hVal : (k.val : Int) = j.val := congrArg Reg.index hSame
    rw [Fin.ext (Int.ofNat_inj.1 hVal)]
    rfl
  · rintro rfl
    exact ⟨k, rfl, rfl⟩

/-- The machine after a wait, apart from the register. -/
def waited (m : Machine) (wait : KeyWait) : Machine :=
  { m with surface := wait.surface, script := wait.script }

/-- What the instruction does is what comes of the wait. -/
theorem exists_execute_awaitKey (k : Fin registerCount) {wait : KeyWait}
    (hWait : m.surface.clearPress.awaitKey m.stray m.script = wait)
    (hEnd : wait.ending = .closed ∨ ∃ key : Key, wait.ending = .key key.val) :
    ∃ next, m.execute (.single .awaitKey (Reg.ofSlot k)) = .ok next ∧ next.pc = m.pc + 2 ∧
      AgreesOff {.keys, .register k, .counter} m next ∧
      next.script = wait.script ∧ next.surface = wait.surface ∧
      (wait.ending = .closed → next.v.get k = m.v.get k) ∧
      ∀ key : Key, wait.ending = .key key.val → (next.v.get k).toNat = key.val := by
  have hOff := execute_agreesOff (m := m) (i := .single .awaitKey (Reg.ofSlot k))
    (Reg.exists_ofSlot k)
  rw [Instr.footprint, ofReg_ofSlot, Set.union_assoc] at hOff
  rcases hEnd with hClosed | ⟨key, hKey⟩
  · have hExecute : m.execute (.single .awaitKey (Reg.ofSlot k)) = .ok (m.waited wait).advance := by
      rw [execute_of_not_isJump rfl]
      simp only [perform, doSingle, doAwaitKey, hWait, hClosed, ok_bind]
      rfl
    rw [hExecute] at hOff
    refine ⟨_, hExecute, rfl, hOff, rfl, rfl, fun _ => rfl, fun key hKey => ?_⟩
    cases hClosed.symm.trans hKey
  · have hExecute : m.execute (.single .awaitKey (Reg.ofSlot k)) =
        .ok ((m.waited wait).put k (Bits.lowByte key.val)).advance := by
      rw [execute_of_not_isJump rfl]
      simp only [perform, doSingle, doAwaitKey, hWait, hKey, Surface.key?_val, Option.isSome_some,
        if_true, set_ofSlot, ok_bind]
      rfl
    rw [hExecute] at hOff
    refine ⟨_, hExecute, rfl, hOff, rfl, rfl, fun hClosed => ?_, fun other hOther => ?_⟩
    · cases hClosed.symm.trans hKey
    · have hSame : (key.val : Int) = other.val := WaitEnd.key.inj (hKey.symm.trans hOther)
      have hByte := Bits.toNat_lowByte other.val
      have hBelow := other.isLt
      show ((m.v.set k.val (Bits.lowByte key.val) k.isLt)[k.val]).toNat = other.val
      rw [Vector.getElem_set_self, hSame]
      unfold keyCount at hBelow
      omega

/-- A wait without a stray number always succeeds.  It leaves everything but what has to do with
keys, the register and the program counter alone, and goes on to the next instruction.  At a closed
surface it ends at once without a key.  Where a key is held it ends at once with the one that is
held longest, whatever was pressed before.  Otherwise it consumes its script up to the first batch
in which a key is pressed or the surface is closed, and it ends with the latest press in that batch,
released since or not, unless the surface is closed in it.  However it ends, no press is left over,
unless that batch closes the surface. -/
theorem execute_awaitKey (k : Fin registerCount) (hStray : m.stray = none)
    (hExists : ∀ e ∈ (endingBatch m.script).1, e.Exists) :
    ∃ next, m.execute (.single .awaitKey (Reg.ofSlot k)) = .ok next ∧ next.pc = m.pc + 2 ∧
      AgreesOff {.keys, .register k, .counter} m next ∧
      (m.surface.isOpen = false →
        next.v.get k = m.v.get k ∧ next.script = m.script ∧ next.surface.keypad.latch = none) ∧
      (m.surface.isOpen = true → ∀ key others, m.surface.keypad.held = key :: others →
        (next.v.get k).toNat = key.val ∧ next.script = m.script ∧
          next.surface.keypad.latch = none) ∧
      (m.surface.isOpen = true → m.surface.keypad.held = [] →
        next.script = (endingBatch m.script).2 ∧
        (.close ∈ (endingBatch m.script).1 → next.v.get k = m.v.get k) ∧
        (.close ∉ (endingBatch m.script).1 →
          next.surface.keypad.latch = none ∧
            ∃ key : Key, IsLatest (endingBatch m.script).1 (some key) ∧
              (next.v.get k).toNat = key.val)) := by
  have hLatch : m.surface.clearPress.keypad.latch = none := rfl
  by_cases hOpen : m.surface.isOpen = true
  · cases hHeld : m.surface.keypad.held with
    | cons key others =>
        have hLook : m.surface.clearPress.look m.stray =
            (some (key.val : Int), m.surface.clearPress) :=
          hStray ▸ Surface.look_of_held hLatch hHeld
        obtain ⟨next, hNext, hPc, hOff, hScript, hSurface, -, hKey⟩ :=
          exists_execute_awaitKey k (Surface.awaitKey_found hOpen hLook) (.inr ⟨key, rfl⟩)
        refine ⟨next, hNext, hPc, hOff, fun hClosed => ?_, fun _ first rest hFirst => ?_,
          fun _ hNone => ?_⟩
        · cases hOpen.symm.trans hClosed
        · cases hFirst
          exact ⟨hKey key rfl, hScript, hSurface ▸ hLatch⟩
        · cases hNone
    | nil =>
        have hIdle : m.surface.clearPress.Idle := ⟨hOpen, hLatch, hHeld⟩
        obtain ⟨hLeft, hDecided⟩ := hIdle.awaitKey hExists
        have hEnd : (m.surface.clearPress.awaitKey none m.script).ending = .closed ∨
            ∃ key : Key, (m.surface.clearPress.awaitKey none m.script).ending = .key key.val :=
          hDecided.imp (fun h => h.2) fun ⟨_, _, key, _, h⟩ => ⟨key, h⟩
        obtain ⟨next, hNext, hPc, hOff, hScript, hSurface, hSame, hKey⟩ :=
          exists_execute_awaitKey k (by rw [hStray]) hEnd
        refine ⟨next, hNext, hPc, hOff, fun hClosed => ?_, fun _ first rest hFirst => ?_,
          fun _ _ => ⟨hScript.trans hLeft, fun hClose => ?_, fun hNoClose => ?_⟩⟩
        · cases hOpen.symm.trans hClosed
        · cases hFirst
        · rcases hDecided with ⟨-, hClosed⟩ | ⟨hNoClose, -⟩
          · exact hSame hClosed
          · exact absurd hClose hNoClose
        · rcases hDecided with ⟨hClose, -⟩ | ⟨-, hTaken, key, hLatest, hFound⟩
          · exact absurd hClose hNoClose
          · exact ⟨hSurface ▸ hTaken, key, hLatest, hKey key hFound⟩
  · have hClosed : m.surface.isOpen = false := Bool.eq_false_iff.2 hOpen
    obtain ⟨next, hNext, hPc, hOff, hScript, hSurface, hSame, -⟩ :=
      exists_execute_awaitKey k (Surface.awaitKey_closed hClosed) (.inl rfl)
    refine ⟨next, hNext, hPc, hOff, fun _ => ⟨hSame rfl, hScript, hSurface ▸ hLatch⟩,
      fun hStill => absurd hStill hOpen, fun hStill => absurd hStill hOpen⟩

/-- A press from before the wait is forgotten.  The first batch has nothing but a release; in the
second the second key is pressed last and released at once; the third is left. -/
theorem execute_awaitKey_of_short_press :
    let script : List (List KeyEvent) := [[.release 3], [.press 5, .press 7, .release 7], [.close]]
    let m : Machine :=
      { memory := ⟨#[]⟩, surface := { keypad := { latch := some 9 } }, script }
    m.stray = none ∧ (∀ e ∈ (endingBatch m.script).1, e.Exists) ∧
      ∃ next, m.execute (.single .awaitKey (Reg.ofSlot 2)) = .ok next ∧ next.pc = m.pc + 2 ∧
        (next.v.get 2).toNat = 7 ∧ next.script = [[.close]] ∧ next.surface.keypad.latch = none := by
  intro script m
  have hBatch : endingBatch m.script = ([.press 5, .press 7, .release 7], [[.close]]) := rfl
  have hExists : ∀ e ∈ (endingBatch m.script).1, e.Exists := by
    rw [hBatch]
    simp [KeyEvent.Exists]
  obtain ⟨next, hNext, hPc, -, -, -, hIdle⟩ :=
    execute_awaitKey 2 (show m.stray = none from rfl) hExists
  obtain ⟨hScript, -, hFound⟩ := hIdle rfl rfl
  rw [hBatch] at hFound hScript
  obtain ⟨hLatch, key, hLatest, hValue⟩ := hFound (by simp)
  have hSeven : IsLatest [.press 5, .press 7, .release 7] (some 7) :=
    ⟨[.press 5], [.release 7], rfl, by simp⟩
  rw [hLatest.unique hSeven] at hValue
  exact ⟨rfl, hExists, next, hNext, hPc, hValue, hScript, hLatch⟩

end Machine

end Chip8
