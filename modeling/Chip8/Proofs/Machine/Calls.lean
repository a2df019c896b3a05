import Mathlib.Logic.Relation
import Chip8.Proofs.Machine.Run

/-!
# Calls and returns

A call saves its own address, and the return to it goes on with what comes after.  Between the two
anything may happen, as long as no return takes back the saved address: other calls and their
returns, jumps, writes into the program itself, refused cycles, ticks, keys.

`Machine.Step` is one moment of such a history, finer than `Machine.act` in that a run counts as its
beginning, its cycles and its end.  A step saves at most one address and takes back at most one
(`Step.frames`), so that the addresses at the bottom of the stack stay where they are while the stack
is at least as high as they reach (`suffix_of_steps`).  `ret_returns_to_call` follows from that.
-/

namespace Chip8

namespace CallStack

variable {s t : CallStack} {addr : Int}

theorem push_eq_ok_iff :
    s.push addr = .ok t ↔ (s.size : Int) < s.depth ∧ t = { s with frames := addr :: s.frames } := by
  unfold push
  split
  · next hFull => simp [hFull]
  · next hRoom => simp [Int.not_le.1 hRoom, eq_comm]

theorem pop_eq_ok_iff :
    s.pop = .ok (addr, t) ↔ s.frames = addr :: t.frames ∧ t.depth = s.depth := by
  obtain ⟨depth, frames⟩ := s
  obtain ⟨depth', frames'⟩ := t
  cases frames with
  | nil => simp [pop]
  | cons latest older =>
      simp only [pop, Except.ok.injEq, Prod.mk.injEq, CallStack.mk.injEq, List.cons.injEq]
      constructor
      · rintro ⟨hAddr, hDepth, hFrames⟩
        exact ⟨⟨hAddr, hFrames⟩, hDepth.symm⟩
      · rintro ⟨⟨hAddr, hFrames⟩, hDepth⟩
        exact ⟨hAddr, hDepth.symm, hFrames⟩

end CallStack

namespace Machine

/-- One step in the history of a machine. -/
inductive Step (m : Machine) : Machine → Prop where
  /-- A cycle, on its own or in a run, or another action than a run, whether or not it is refused. -/
  | act (action : Action) (hSingle : ∀ limit, action ≠ .run limit) : Step m (m.act action)
  /-- The beginning or the end of a run. -/
  | turn (mode : Mode) : Step m { m with mode }

/-- The machine after a call. -/
def called (m : Machine) (addr : Int) : Machine :=
  { m with
    pc := addr
    stack := { m.stack with frames := m.pc :: m.stack.frames }
    sp := m.stack.frames.length + 1
    cycles := m.cycles + 1 }

variable {m n : Machine} {saved : List Int}

/-! ## Runs step by step -/

theorem step_cycle (m : Machine) : Step m (after m.cycle) :=
  .act .cycle fun _ hRun => Action.noConfusion hRun

/-- The cycles of a run are steps one after the other. -/
theorem steps_of_runCycles (limit : Nat) (m : Machine) :
    Relation.ReflTransGen Step m (after (runCycles limit m)) := by
  induction limit generalizing m with
  | zero => exact .refl
  | succ limit ih =>
      by_cases hGoOn : m.CanGoOn
      · have hFirst := step_cycle m
        rw [runCycles_succ_of_canGoOn hGoOn]
        cases hCycle : m.cycle with
        | ok next =>
            rw [hCycle] at hFirst
            exact .head hFirst (ih next)
        | error failure =>
            rw [hCycle] at hFirst
            exact .single hFirst
      · rw [runCycles_of_not_canGoOn hGoOn]
        exact .refl

theorem steps_of_run (limit : Nat) (m : Machine) :
    Relation.ReflTransGen Step m (after (m.run limit)) := by
  have hCycles := steps_of_runCycles limit { m with mode := .running }
  refine .head (.turn .running) (.trans hCycles (.single ?_))
  unfold run
  cases runCycles limit { m with mode := .running } with
  | ok last => exact .turn .halted
  | error failure => exact .turn .halted

/-- Every history is made of steps. -/
theorem steps_of_actAll (actions : List Action) (m : Machine) :
    Relation.ReflTransGen Step m (m.actAll actions) := by
  induction actions generalizing m with
  | nil => exact .refl
  | cons action actions ih =>
      apply Relation.ReflTransGen.trans _ (ih (m.act action))
      cases action with
      | run limit => exact steps_of_run limit m
      | _ => exact .single (.act _ fun limit hRun => Action.noConfusion hRun)

/-! ## What a step does to the stack -/

/-- A cycle leaves the saved addresses, saves its own or takes one back. -/
theorem frames_of_cycle (h : m.WellFormed) :
    (after m.cycle).stack.frames = m.stack.frames ∨
      (after m.cycle).stack.frames = m.pc :: m.stack.frames ∨
        ∃ addr, m.stack.frames = addr :: (after m.cycle).stack.frames := by
  have hEnds := cycle_ends h.stray_eq
  rcases hCycle : m.cycle with ⟨f, left⟩ | next
  · rw [hCycle] at hEnds
    exact .inl (congrArg CallStack.frames hEnds.keepsShape_of_error.stack_eq)
  · rw [hCycle] at hEnds
    obtain ⟨-, reached, hFollows, hNext⟩ := hEnds
    have hStack : next.stack = reached.stack := by rw [hNext]
    show next.stack.frames = _ ∨ next.stack.frames = _ ∨ ∃ addr, _ = addr :: next.stack.frames
    rw [hStack]
    cases hFollows with
    | next hShape => exact .inl (congrArg CallStack.frames hShape.stack_eq)
    | skip => exact .inl rfl
    | jump hLow hHigh => exact .inl rfl
    | call hLow hHigh hPush =>
        obtain ⟨-, rfl⟩ := CallStack.push_eq_ok_iff.1 hPush
        exact .inr (.inl rfl)
    | @ret addr stack hPop => exact .inr (.inr ⟨addr, (CallStack.pop_eq_ok_iff.1 hPop).1⟩)

/-- Nothing at the surface touches the stack. -/
theorem stack_answered (m : Machine) (request : Surface.Request) :
    (m.answered request).stack = m.stack := by
  obtain ⟨surface, hAnswered⟩ := exists_answered_eq m request
  rw [hAnswered]

theorem Step.frames (h : m.WellFormed) (hStep : m.Step n) :
    n.stack.frames = m.stack.frames ∨ n.stack.frames = m.pc :: m.stack.frames ∨
      ∃ addr, m.stack.frames = addr :: n.stack.frames := by
  cases hStep with
  | turn mode => exact .inl rfl
  | act action hSingle =>
      cases action with
      | cycle => exact frames_of_cycle h
      | run limit => exact absurd rfl (hSingle limit)
      | tickDelay => exact .inl rfl
      | tickSound => exact .inl rfl
      | press code => exact .inl (congrArg CallStack.frames (stack_answered m _))
      | release code => exact .inl (congrArg CallStack.frames (stack_answered m _))
      | take => exact .inl (congrArg CallStack.frames (stack_answered m _))
      | close => exact .inl (congrArg CallStack.frames (stack_answered m _))

theorem Step.wellFormed (h : m.WellFormed) (hStep : m.Step n) : n.WellFormed := by
  cases hStep with
  | turn mode => exact h.withMode mode
  | act action hSingle => exact h.act action

/-- A step that does not go below some saved addresses leaves them in their place. -/
theorem suffix_of_step (h : m.WellFormed) (hStep : m.Step n) (hSuffix : saved <:+ m.stack.frames)
    (hHeight : saved.length ≤ n.stack.frames.length) : saved <:+ n.stack.frames := by
  rcases hStep.frames h with hSame | hPushed | ⟨addr, hPopped⟩
  · rw [hSame]
    exact hSuffix
  · rw [hPushed]
    exact hSuffix.trans (List.suffix_cons _ _)
  · -- The address that is taken back is none of them, or there would be too few left.
    rw [hPopped, List.suffix_cons_iff] at hSuffix
    rcases hSuffix with hAll | hBelow
    · rw [hAll, List.length_cons] at hHeight
      omega
    · exact hBelow

/-- Saved addresses stay in their place as long as no step goes below them. -/
theorem suffix_of_steps (h : m.WellFormed) (hSuffix : saved <:+ m.stack.frames)
    (hSteps : Relation.ReflTransGen
      (fun s t => Step s t ∧ saved.length ≤ t.stack.frames.length) m n) :
    n.WellFormed ∧ saved <:+ n.stack.frames := by
  induction hSteps with
  | refl => exact ⟨h, hSuffix⟩
  | tail _ hLast ih =>
      obtain ⟨hWell, hBefore⟩ := ih
      exact ⟨hLast.1.wellFormed hWell, suffix_of_step hWell hLast.1 hBefore hLast.2⟩

/-! ## Calls and returns -/

/-- A call saves its own address where there is room for one more. -/
theorem cycle_call {addr : Int} (h : m.WellFormed) (hRoom : m.stack.frames.length < 16)
    (hCall : m.memory.instrAt m.pc = .ok (.address .call addr)) :
    m.cycle = .ok (m.called addr) := by
  have hPush : m.stack.push m.pc = .ok { m.stack with frames := m.pc :: m.stack.frames } := by
    refine CallStack.push_eq_ok_iff.2 ⟨?_, rfl⟩
    rw [h.depth_eq]
    show (m.stack.frames.length : Int) < 16
    omega
  refine cycle_eq_ok_iff.2 ⟨_, { m.called addr with cycles := m.cycles }, hCall, ?_, rfl⟩
  rw [execute_of_isJump rfl]
  simp only [perform, doAddress, doCall, hPush, attempt, ok_bind, pure_eq_ok]
  rfl

/-- A return takes back the latest saved address and goes on with what comes after it. -/
theorem cycle_ret {addr : Int} (hRet : m.memory.instrAt m.pc = .ok (.bare .ret))
    (hFrames : m.stack.frames = addr :: saved) :
    m.cycle = .ok { m with
      pc := addr + opcodeSize
      stack := { m.stack with frames := saved }
      sp := saved.length
      cycles := m.cycles + 1 } := by
  have hPop : m.stack.pop = .ok (addr, { m.stack with frames := saved }) :=
    CallStack.pop_eq_ok_iff.2 ⟨hFrames, rfl⟩
  refine cycle_eq_ok_iff.2 ⟨_, { m with
    pc := addr + opcodeSize
    stack := { m.stack with frames := saved }
    sp := saved.length }, hRet, ?_, rfl⟩
  rw [execute_of_not_isJump rfl]
  simp only [perform, doBare, doReturn, hPop, attempt, ok_bind, pure_eq_ok]
  rfl

/-- A call with `d` saved addresses beneath it is answered by the first return that is met with
`d + 1` of them, whatever happens in between, as long as there are never fewer: the program goes on
after the call, and the saved addresses are those from before it. -/
theorem ret_returns_to_call {d : Nat} {addr : Int} (h : m.WellFormed)
    (hDepth : m.stack.frames.length = d) (hRoom : d < 16)
    (hCall : m.memory.instrAt m.pc = .ok (.address .call addr)) :
    m.cycle = .ok (m.called addr) ∧
      ∀ n, Relation.ReflTransGen (fun s t => Step s t ∧ d + 1 ≤ t.stack.frames.length)
          (m.called addr) n →
        n.stack.frames.length = d + 1 → n.memory.instrAt n.pc = .ok (.bare .ret) →
          ∃ last, n.cycle = .ok last ∧ last.pc = m.pc + 2 ∧ last.sp = d ∧
            last.stack.frames = m.stack.frames := by
  have hCycle := cycle_call h (hDepth ▸ hRoom) hCall
  refine ⟨hCycle, fun n hSteps hHeight hRet => ?_⟩
  have hSaved : (m.pc :: m.stack.frames).length = d + 1 := by
    rw [List.length_cons, hDepth]
  have hStart : m.pc :: m.stack.frames <:+ (m.called addr).stack.frames := List.suffix_rfl
  obtain ⟨-, hSuffix⟩ := suffix_of_steps (wellFormed_of_cycle_ok h hCycle) hStart (hSaved ▸ hSteps)
  -- The stack is no higher than the addresses that stayed, so it consists of them.
  have hFrames : m.pc :: m.stack.frames = n.stack.frames :=
    hSuffix.eq_of_length (hSaved.trans hHeight.symm)
  exact ⟨_, cycle_ret hRet hFrames.symm, rfl, hDepth, rfl⟩

/-- A subroutine that returns at once. -/
theorem ret_returns_to_call_at_once :
    ∃ m, ofRom [0x22, 0x02, 0x00, 0xEE] = .ok m ∧ m.WellFormed ∧ m.stack.frames.length = 0 ∧
      m.memory.instrAt m.pc = .ok (.address .call 0x202) ∧
      m.cycle = .ok (m.called 0x202) ∧
        ∃ last, (m.called 0x202).cycle = .ok last ∧ last.pc = m.pc + 2 ∧ last.sp = 0 ∧
          last.stack.frames = m.stack.frames := by
  have hRom : ([0x22, 0x02, 0x00, 0xEE] : List UInt8).length ≤ maxRomSize := by decide
  obtain ⟨memory, hMemory⟩ : ∃ memory, Memory.ofRom [0x22, 0x02, 0x00, 0xEE] = .ok memory :=
    ⟨_, Memory.ofRom_eq_ok hRom⟩
  have hSize := Memory.size_of_ofRom hMemory
  have hWell : ({ memory } : Machine).WellFormed := .of_memory hSize (fun _ => 0) []
  have hCall : memory.instrAt romBase = .ok (.address .call 0x202) := by
    have hWord := Memory.wordAt_of_ofRom hMemory (show 0 + 1 < 4 by decide)
    refine Memory.instrAt_eq_ok_iff.2 ⟨⟨by decide, by rw [hSize]; decide⟩, ?_⟩
    rw [show (romBase : Int).toNat = romBase + 0 from rfl, hWord]
    rfl
  have hRet : memory.instrAt 0x202 = .ok (.bare .ret) := by
    have hWord := Memory.wordAt_of_ofRom hMemory (show 2 + 1 < 4 by decide)
    refine Memory.instrAt_eq_ok_iff.2 ⟨⟨by decide, by rw [hSize]; decide⟩, ?_⟩
    rw [show (0x202 : Int).toNat = romBase + 2 from rfl, hWord]
    rfl
  obtain ⟨hCycle, hReturns⟩ := ret_returns_to_call hWell rfl (show 0 < 16 by decide) hCall
  refine ⟨{ memory }, ?_, hWell, rfl, hCall, hCycle, hReturns _ .refl rfl hRet⟩
  rw [ofRom, hMemory]
  rfl

end Machine

end Chip8
