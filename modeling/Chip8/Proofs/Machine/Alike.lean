import Mathlib.Data.Set.Basic
import Chip8.Proofs.Machine.History

/-!
# Machines that differ in what comes from outside

What reaches a machine from outside comes by one of five ways, a `Channel` each: the two timers, the
keys, the random bytes and the slot of the published picture.  `Machine.Alike hidden` relates machines
that are the same in everything but what has come by the channels in `hidden`.  What comes by a hidden
channel to one of them leaves them alike, and so does what comes by any channel to both.

`Instr.channels` lists the channels that an instruction looks at.  No instruction looks at the sound timer
or at the slot.
-/

namespace Chip8

/-! ## Channels -/

/-- A way by which something reaches the machine from outside. -/
inductive Channel where
  | delay
  | sound
  /-- Which keys are held or were pressed, whether the surface is open, and what will happen to
  both during key waits. -/
  | keys
  | random
  /-- Whether the published picture was taken. -/
  | slot
deriving DecidableEq

/-- The channels that the instruction looks at. -/
def Instr.channels : Instr → Set Channel
  | .single .getDelay _ => {.delay}
  | .single .skipHeld _ => {.keys}
  | .single .skipFree _ => {.keys}
  | .single .awaitKey _ => {.keys}
  | .random _ _ => {.random}
  | _ => ∅

/-- No instruction looks at the sound timer or at the slot. -/
theorem Instr.notMem_of_mem_channels {hidden : Set Channel} (hDelay : .delay ∉ hidden)
    (hKeys : .keys ∉ hidden) (hRandom : .random ∉ hidden) {i : Instr} {c : Channel}
    (h : c ∈ i.channels) : c ∉ hidden := by
  unfold channels at h
  split at h
  · cases h
    exact hDelay
  · cases h
    exact hKeys
  · cases h
    exact hKeys
  · cases h
    exact hKeys
  · cases h
    exact hRandom
  · cases h

/-- The channel by which the action comes, if it comes from outside. -/
def Machine.Action.channel? : Machine.Action → Option Channel
  | .cycle => none
  | .run _ => none
  | .tickDelay => some .delay
  | .tickSound => some .sound
  | .press _ => some .keys
  | .release _ => some .keys
  | .take => some .slot
  | .close => some .keys

namespace Machine

/-! ## Machines that are alike -/

/-- The machines are the same but for what has come by the hidden channels. -/
structure Alike (hidden : Set Channel) (m n : Machine) : Prop where
  v_eq : n.v = m.v
  i_eq : n.i = m.i
  pc_eq : n.pc = m.pc
  sp_eq : n.sp = m.sp
  stack_eq : n.stack = m.stack
  memory_eq : n.memory = m.memory
  width_eq : n.surface.display.width = m.surface.display.width
  height_eq : n.surface.display.height = m.surface.display.height
  pixels_eq : n.surface.display.pixels = m.surface.display.pixels
  mode_eq : n.mode = m.mode
  cycles_eq : n.cycles = m.cycles
  delay_eq : .delay ∉ hidden → n.delay = m.delay
  sound_eq : .sound ∉ hidden → n.sound = m.sound
  keys_eq : .keys ∉ hidden →
    (n.surface.keypad, n.surface.signal, n.surface.isOpen, n.script, n.stray) =
      (m.surface.keypad, m.surface.signal, m.surface.isOpen, m.script, m.stray)
  random_eq : .random ∉ hidden → (n.random, n.drawn) = (m.random, m.drawn)
  pending_eq : .slot ∉ hidden → n.surface.display.pending = m.surface.display.pending

variable {hidden : Set Channel} {m n o : Machine}

namespace Alike

theorem refl (hidden : Set Channel) (m : Machine) : Alike hidden m m :=
  ⟨rfl, rfl, rfl, rfl, rfl, rfl, rfl, rfl, rfl, rfl, rfl,
    fun _ => rfl, fun _ => rfl, fun _ => rfl, fun _ => rfl, fun _ => rfl⟩

theorem trans (h : Alike hidden m n) (h' : Alike hidden n o) : Alike hidden m o where
  v_eq := h'.v_eq.trans h.v_eq
  i_eq := h'.i_eq.trans h.i_eq
  pc_eq := h'.pc_eq.trans h.pc_eq
  sp_eq := h'.sp_eq.trans h.sp_eq
  stack_eq := h'.stack_eq.trans h.stack_eq
  memory_eq := h'.memory_eq.trans h.memory_eq
  width_eq := h'.width_eq.trans h.width_eq
  height_eq := h'.height_eq.trans h.height_eq
  pixels_eq := h'.pixels_eq.trans h.pixels_eq
  mode_eq := h'.mode_eq.trans h.mode_eq
  cycles_eq := h'.cycles_eq.trans h.cycles_eq
  delay_eq hc := (h'.delay_eq hc).trans (h.delay_eq hc)
  sound_eq hc := (h'.sound_eq hc).trans (h.sound_eq hc)
  keys_eq hc := (h'.keys_eq hc).trans (h.keys_eq hc)
  random_eq hc := (h'.random_eq hc).trans (h.random_eq hc)
  pending_eq hc := (h'.pending_eq hc).trans (h.pending_eq hc)

theorem symm (h : Alike hidden m n) : Alike hidden n m where
  v_eq := h.v_eq.symm
  i_eq := h.i_eq.symm
  pc_eq := h.pc_eq.symm
  sp_eq := h.sp_eq.symm
  stack_eq := h.stack_eq.symm
  memory_eq := h.memory_eq.symm
  width_eq := h.width_eq.symm
  height_eq := h.height_eq.symm
  pixels_eq := h.pixels_eq.symm
  mode_eq := h.mode_eq.symm
  cycles_eq := h.cycles_eq.symm
  delay_eq hc := (h.delay_eq hc).symm
  sound_eq hc := (h.sound_eq hc).symm
  keys_eq hc := (h.keys_eq hc).symm
  random_eq hc := (h.random_eq hc).symm
  pending_eq hc := (h.pending_eq hc).symm

/-! ### What both look up -/

theorem get_eq (h : Alike hidden m n) (x : Reg) : n.get x = m.get x := by
  unfold get
  rw [h.v_eq]

theorem operand_eq (h : Alike hidden m n) (y : Operand) : n.operand y = m.operand y := by
  cases y with
  | reg r => simp only [operand, h.get_eq]
  | imm k => rfl

theorem keyIn_eq (h : Alike hidden m n) (x : Reg) : n.keyIn x = m.keyIn x := by
  unfold keyIn
  rw [h.get_eq]

theorem indexAddr_eq (h : Alike hidden m n) : n.indexAddr = m.indexAddr := by
  unfold indexAddr
  rw [h.i_eq]

/-- The displays are the same but for the slot. -/
theorem display_eq (h : Alike hidden m n) :
    n.surface.display =
      { m.surface.display with pending := n.surface.display.pending } := by
  show (⟨n.surface.display.width, n.surface.display.height, n.surface.display.pixels, _⟩ :
    Display) = _
  rw [h.width_eq, h.height_eq, h.pixels_eq]

/-- If no keys are hidden, the surfaces are the same but for the display. -/
theorem surface_eq (h : Alike hidden m n) (hc : .keys ∉ hidden) :
    n.surface = m.surface.withDisplay n.surface.display ∧
      n.script = m.script ∧ n.stray = m.stray := by
  have hKeys := h.keys_eq hc
  simp only [Prod.mk.injEq] at hKeys
  obtain ⟨hKeypad, hSignal, hOpen, hScript, hStray⟩ := hKeys
  refine ⟨?_, hScript, hStray⟩
  show (⟨_, n.surface.keypad, n.surface.signal, n.surface.isOpen⟩ : Surface) = _
  rw [hKeypad, hSignal, hOpen]
  rfl

/-! ### What both change -/

theorem put (h : Alike hidden m n) (k : Fin registerCount) (value : UInt8) :
    Alike hidden (m.put k value) (n.put k value) :=
  { h with v_eq := congrArg (·.set k value) h.v_eq }

theorem setFlag (h : Alike hidden m n) (flag : Bool) :
    Alike hidden (m.setFlag flag) (n.setFlag flag) :=
  h.put _ _

theorem setIndex (h : Alike hidden m n) (k : Int) :
    Alike hidden (m.setIndex k) (n.setIndex k) :=
  { h with i_eq := rfl }

theorem withPc (h : Alike hidden m n) (pc : Int) :
    Alike hidden { m with pc } { n with pc } :=
  { h with pc_eq := rfl }

theorem advance (h : Alike hidden m n) : Alike hidden m.advance n.advance :=
  { h with pc_eq := congrArg (· + (opcodeSize : Int)) h.pc_eq }

theorem skipIf (h : Alike hidden m n) (condition : Bool) :
    Alike hidden (m.skipIf condition) (n.skipIf condition) := by
  cases condition with
  | false => exact h
  | true => exact h.advance

theorem withCalls (h : Alike hidden m n) (pc : Int) (stack : CallStack) (sp : Nat) :
    Alike hidden { m with pc, stack, sp } { n with pc, stack, sp } :=
  { h with pc_eq := rfl, stack_eq := rfl, sp_eq := rfl }

theorem withMemory (h : Alike hidden m n) (memory : Memory) :
    Alike hidden { m with memory } { n with memory } :=
  { h with memory_eq := rfl }

theorem withDelay (h : Alike hidden m n) (delay : Timer) :
    Alike hidden { m with delay } { n with delay } :=
  { h with delay_eq := fun _ => rfl }

theorem withSound (h : Alike hidden m n) (sound : Timer) :
    Alike hidden { m with sound } { n with sound } :=
  { h with sound_eq := fun _ => rfl }

theorem withDisplay (h : Alike hidden m n) (display : Display) :
    Alike hidden { m with surface := { m.surface with display } }
      { n with surface := { n.surface with display } } :=
  { h with
    width_eq := rfl
    height_eq := rfl
    pixels_eq := rfl
    pending_eq := fun _ => rfl }

end Alike

/-! ## All actions -/

/-- What is done at the keys does the same over any display, and leaves the display alone. -/
theorem exists_act_eq_of_keys {action : Action} (h : action.channel? = some .keys) :
    ∃ f : Surface → Surface, (∀ m : Machine, m.act action = { m with surface := f m.surface }) ∧
      (∀ s, (f s).display = s.display) ∧
      ∀ s d, f (s.withDisplay d) = (f s).withDisplay d := by
  cases action with
  | press code =>
      cases hKey : key? code with
      | some key =>
          refine ⟨fun s => { s with keypad := s.keypad.press key, signal := true }, ?_,
            fun s => rfl, fun s d => rfl⟩
          intro m
          simp only [act, answered, ask, Surface.perform, Surface.press, hKey, ok_bind, pure_eq_ok]
      | none =>
          refine ⟨id, ?_, fun s => rfl, fun s d => rfl⟩
          intro m
          simp only [act, answered, ask, Surface.perform, Surface.press, hKey, error_bind, id]
  | release code =>
      refine ⟨(·.release code), fun m => rfl, ?_, ?_⟩
      · intro s
        unfold Surface.release
        split <;> rfl
      · intro s d
        unfold Surface.release
        cases key? code <;> rfl
  | close => exact ⟨Surface.close, fun m => rfl, fun s => rfl, fun s d => rfl⟩
  | cycle => cases h
  | run limit => cases h
  | tickDelay => cases h
  | tickSound => cases h
  | take => cases h

/-- What comes by a hidden channel leaves a machine alike to what it was. -/
theorem alike_act_of_hidden {action : Action} {c : Channel} (hChannel : action.channel? = some c)
    (hHidden : c ∈ hidden) (m : Machine) : Alike hidden m (m.act action) := by
  by_cases hKeys : action.channel? = some .keys
  · obtain ⟨f, hAct, hDisplay, -⟩ := exists_act_eq_of_keys hKeys
    cases hKeys.symm.trans hChannel
    rw [hAct]
    exact { Alike.refl hidden m with
      width_eq := congrArg Display.width (hDisplay _)
      height_eq := congrArg Display.height (hDisplay _)
      pixels_eq := congrArg Display.pixels (hDisplay _)
      pending_eq := fun _ => congrArg Display.pending (hDisplay _)
      keys_eq := fun hSeen => absurd hHidden hSeen }
  · cases action with
    | tickDelay =>
        cases hChannel
        exact { Alike.refl hidden m with delay_eq := fun hSeen => absurd hHidden hSeen }
    | tickSound =>
        cases hChannel
        exact { Alike.refl hidden m with sound_eq := fun hSeen => absurd hHidden hSeen }
    | take =>
        cases hChannel
        exact { Alike.refl hidden m with pending_eq := fun hSeen => absurd hHidden hSeen }
    | press code => exact absurd rfl hKeys
    | release code => exact absurd rfl hKeys
    | close => exact absurd rfl hKeys
    | cycle => cases hChannel
    | run limit => cases hChannel

namespace Alike

/-- An action by a channel keeps machines alike that were so. -/
theorem act_of_channel (h : Alike hidden m n) {action : Action} {c : Channel}
    (hChannel : action.channel? = some c) : Alike hidden (m.act action) (n.act action) := by
  by_cases hHidden : c ∈ hidden
  · have hLeft := alike_act_of_hidden hChannel hHidden m
    have hRight := alike_act_of_hidden hChannel hHidden n
    exact hLeft.symm.trans (h.trans hRight)
  · by_cases hKeys : action.channel? = some .keys
    · obtain ⟨f, hAct, hDisplay, hOver⟩ := exists_act_eq_of_keys hKeys
      cases hKeys.symm.trans hChannel
      obtain ⟨hSurface, hScript, hStray⟩ := h.surface_eq hHidden
      have hNext : f n.surface = (f m.surface).withDisplay n.surface.display :=
        (congrArg f hSurface).trans (hOver _ _)
      rw [hAct, hAct, hNext]
      exact { h with
        width_eq := h.width_eq.trans (congrArg Display.width (hDisplay _)).symm
        height_eq := h.height_eq.trans (congrArg Display.height (hDisplay _)).symm
        pixels_eq := h.pixels_eq.trans (congrArg Display.pixels (hDisplay _)).symm
        pending_eq := fun hSlot =>
          (h.pending_eq hSlot).trans (congrArg Display.pending (hDisplay _)).symm
        keys_eq := fun _ => by
          rw [hScript, hStray]
          rfl }
    · cases action with
      | tickDelay => exact { h with delay_eq := fun hSeen => congrArg Timer.tick (h.delay_eq hSeen) }
      | tickSound => exact { h with sound_eq := fun hSeen => congrArg Timer.tick (h.sound_eq hSeen) }
      | take => exact { h with pending_eq := fun _ => rfl }
      | press code => exact absurd rfl hKeys
      | release code => exact absurd rfl hKeys
      | close => exact absurd rfl hKeys
      | cycle => cases hChannel
      | run limit => cases hChannel

end Alike

end Machine

end Chip8
