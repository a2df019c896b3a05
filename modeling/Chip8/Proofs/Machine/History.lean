import Chip8.Proofs.Machine.WellFormed

/-!
# The history of a machine

A machine lives through cycles and runs, through the ticks of its timers, and through what is done at
its surface by others.  `Machine.act` gives the machine after one such action, a refused one included,
and `Machine.actAll` the machine after any number of them in any order.  What happens at the surface
while the machine waits for a key is not among the actions: it is the machine's own script.

The main result is `wellFormed_actAll_of_rom`: from a program in memory no history leads out of the
bounds of `Machine.WellFormed`.
-/

namespace Chip8

namespace Machine

/-- Something that is done with a machine or at its surface: a cycle, a run of at most `limit` cycles,
a tick of a timer, a press or release of the key of a number, the taking of the published picture, or
the closing of the surface. -/
inductive Action where
  | cycle
  | run (limit : Nat)
  | tickDelay
  | tickSound
  | press (code : Int)
  | release (code : Int)
  | take
  | close
deriving DecidableEq, Repr

/-- The machine after a request at its surface.  A request that is refused changes nothing. -/
def answered (m : Machine) (request : Surface.Request) : Machine :=
  match m.ask request with
  | .ok (_, next) => next
  | .error _ => m

/-- The machine after an action, whether or not it is refused. -/
def act (m : Machine) : Action → Machine
  | .cycle => after m.cycle
  | .run limit => after (m.run limit)
  | .tickDelay => { m with delay := m.delay.tick }
  | .tickSound => { m with sound := m.sound.tick }
  | .press code => m.answered (.press code)
  | .release code => m.answered (.release code)
  | .take => m.answered .take
  | .close => m.answered .close

/-- The machine after actions in order. -/
def actAll (m : Machine) (actions : List Action) : Machine :=
  actions.foldl act m

/-- A request changes the surface at most. -/
theorem exists_answered_eq (m : Machine) (request : Surface.Request) :
    ∃ surface, m.answered request = { m with surface } := by
  unfold answered
  split
  · next reply next hAsk =>
      unfold ask at hAsk
      split at hAsk
      · cases hAsk
        exact ⟨m.surface, rfl⟩
      · obtain ⟨answer, -, hNext⟩ := bind_eq_ok_iff.1 hAsk
        cases hNext
        exact ⟨answer.2, rfl⟩
  · exact ⟨m.surface, rfl⟩

/-- Apart from cycles and runs an action is the tick of a timer, or it changes the surface at most. -/
theorem act_cases {action : Action} (hCycle : action ≠ .cycle) (hRun : ∀ limit, action ≠ .run limit)
    (m : Machine) :
    action = .tickDelay ∧ m.act action = { m with delay := m.delay.tick } ∨
      action = .tickSound ∧ m.act action = { m with sound := m.sound.tick } ∨
      (action ≠ .tickDelay ∧ action ≠ .tickSound) ∧ ∃ surface, m.act action = { m with surface } := by
  cases action with
  | cycle => exact absurd rfl hCycle
  | run limit => exact absurd rfl (hRun limit)
  | tickDelay => exact .inl ⟨rfl, rfl⟩
  | tickSound => exact .inr (.inl ⟨rfl, rfl⟩)
  | press code => exact .inr (.inr ⟨by simp, exists_answered_eq m (.press code)⟩)
  | release code => exact .inr (.inr ⟨by simp, exists_answered_eq m (.release code)⟩)
  | take => exact .inr (.inr ⟨by simp, exists_answered_eq m .take⟩)
  | close => exact .inr (.inr ⟨by simp, exists_answered_eq m .close⟩)

namespace WellFormed

variable {m : Machine}

/-- Exchanging the surface for one of the same shape keeps the bounds. -/
theorem withSurface (h : m.WellFormed) {surface : Surface}
    (hShape : m.surface.KeepsShape surface) : ({ m with surface } : Machine).WellFormed :=
  h.of_keepsShape ⟨rfl, rfl, rfl, rfl, hShape, rfl⟩

theorem answered_press (h : m.WellFormed) (code : Int) :
    (m.answered (.press code)).WellFormed := by
  cases hPress : m.surface.press code with
  | ok surface =>
      have hAnswer : m.answered (.press code) = { m with surface } := by
        simp only [answered, ask, Surface.perform, hPress, ok_bind, pure_eq_ok]
      rw [hAnswer]
      exact h.withSurface (Surface.keepsShape_press hPress)
  | error f =>
      have hAnswer : m.answered (.press code) = m := by
        simp only [answered, ask, Surface.perform, hPress, error_bind]
      rw [hAnswer]
      exact h

/-- One action keeps the bounds. -/
theorem act (h : m.WellFormed) (action : Action) : (m.act action).WellFormed := by
  cases action with
  | cycle => exact h.cycle
  | run limit => exact h.run limit
  | tickDelay => exact h.of_keepsShape ⟨rfl, rfl, rfl, rfl, .refl _, rfl⟩
  | tickSound => exact h.of_keepsShape ⟨rfl, rfl, rfl, rfl, .refl _, rfl⟩
  | press code => exact h.answered_press code
  | release code => exact h.withSurface (Surface.keepsShape_release m.surface code)
  | take => exact h.withSurface (Surface.keepsShape_take m.surface)
  | close => exact h.withSurface (Surface.keepsShape_close m.surface)

/-- Any number of actions keep the bounds. -/
theorem actAll (h : m.WellFormed) (actions : List Action) : (m.actAll actions).WellFormed := by
  induction actions generalizing m with
  | nil => exact h
  | cons action actions ih => exact ih (h.act action)

/-- A machine that was not run yet keeps the bounds, if its memory has the usual size. -/
theorem of_memory {memory : Memory} (h : memory.size = memorySize) (random : Nat → UInt8)
    (script : List (List KeyEvent)) : ({ memory, random, script } : Machine).WellFormed where
  sp_eq := rfl
  depth_eq := rfl
  sp_le := Nat.zero_le 16
  frame_bounds := fun _ hFrame => absurd hFrame List.not_mem_nil
  pc_bounds := (by decide : (0 : Int) ≤ romBase ∧ (romBase : Int) ≤ 0x10FE)
  memory_size := h
  width_eq := rfl
  height_eq := rfl
  pixels_size := Array.size_replicate
  held_nodup := List.nodup_nil
  stray_eq := rfl

end WellFormed

/-- A program that is not too large is put into memory. -/
theorem exists_ofRom {rom : List UInt8} (hRom : rom.length ≤ maxRomSize) :
    ∃ memory, Memory.ofRom rom = .ok memory ∧ ofRom rom = .ok { memory } := by
  have hMemory := Memory.ofRom_eq_ok hRom
  refine ⟨_, hMemory, ?_⟩
  rw [ofRom, hMemory]
  rfl

/-- A program that is not too large is put into memory, and from then on the machine keeps its bounds,
whatever bytes the random source gives, whatever happens during key waits, and whatever is done with
the machine and at its surface in whatever order, refused actions included. -/
theorem wellFormed_actAll_of_rom {rom : List UInt8} (hRom : rom.length ≤ maxRomSize) :
    ∃ m, ofRom rom = .ok m ∧
      ∀ (random : Nat → UInt8) (script : List (List KeyEvent)) (actions : List Action),
        (({ m with random, script } : Machine).actAll actions).WellFormed := by
  have hMemory := Memory.ofRom_eq_ok hRom
  refine ⟨{ memory := (Memory.ofSize memorySize).replace romBase rom }, ?_, ?_⟩
  · rw [ofRom, hMemory]
    rfl
  · intro random script actions
    exact (WellFormed.of_memory (Memory.size_of_ofRom hMemory) random script).actAll actions

/-- A program that calls itself until the stack is full and beyond, with a key pressed that does not
exist and one that is pressed twice. -/
theorem wellFormed_actAll_of_endless_calls :
    ([0x22, 0x00] : List UInt8).length ≤ maxRomSize ∧
      ∃ m, ofRom [0x22, 0x00] = .ok m ∧
        ∀ (random : Nat → UInt8) (script : List (List KeyEvent)),
          (({ m with random, script } : Machine).actAll
            [.press 16, .run 20, .cycle, .press 3, .press 3, .tickDelay, .close, .run 1]).WellFormed := by
  have hRom : ([0x22, 0x00] : List UInt8).length ≤ maxRomSize := by decide
  obtain ⟨m, hLoad, hAlways⟩ := wellFormed_actAll_of_rom hRom
  exact ⟨hRom, m, hLoad, fun random script => hAlways random script _⟩

end Machine

end Chip8
