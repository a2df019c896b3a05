import Mathlib.Order.Bounds.Basic
import Chip8.Proofs.Machine.Footprint
import Chip8.Proofs.Machine.History
import Chip8.Proofs.Machine.Refusal

/-!
# Runs as cycles in a row

A run is no more than cycles in a row.  `Machine.iterCycles` goes through a given number of them, and
`Machine.StopsAt` says of a number of cycles that a run with a limit goes no further.  The run goes
through the least such number (`run_is_iterCycles`), and whether it is refused depends on what stops
it there.

The tests of a run come before its limit is counted down, so that a run of `p + q` cycles and a run
of `p` cycles with one of `q` after it meet the same tests in the same machines (`runCycles_add`).
-/

namespace Chip8

namespace Machine

/-- The machine after a number of cycles in a row, none of which is refused. -/
def iterCycles : Nat → Machine → Result
  | 0, m => .ok m
  | k + 1, m => m.cycle >>= iterCycles k

/-- After `k` cycles a run rests: its limit is reached, the surface is closed, or the opcode at the
program counter is not all in memory. -/
def RestsAt (limit k : Nat) (m : Machine) : Prop :=
  k = limit ∨ m.surface.isOpen = false ∨ 4095 < m.pc + 2 ∨ m.pc < 0

/-- A run goes no further than `k` cycles: it rests there, or the next cycle is refused. -/
def StopsAt (limit k : Nat) (m : Machine) : Prop :=
  ∃ last, m.iterCycles k = .ok last ∧
    (last.RestsAt limit k ∨ ∃ failure, last.cycle = .error failure)

/-- A run with a limit goes through `k` cycles, which lead to `last`. -/
structure RunsTo (m : Machine) (limit k : Nat) (last : Machine) : Prop where
  /-- There is no smaller number of cycles where the run stops. -/
  least : IsLeast {j | ({ m with mode := .running } : Machine).StopsAt limit j} k
  reached : ({ m with mode := .running } : Machine).iterCycles k = .ok last
  /-- A run that comes to rest succeeds. -/
  rests : last.RestsAt limit k → m.run limit = .ok { last with mode := .halted }
  /-- Otherwise one more cycle is tried, and with it the run is refused. -/
  refused : ¬last.RestsAt limit k → ∃ f left, last.cycle = .error (f, left) ∧
    m.run limit = .error (f, { left with mode := .halted })
  /-- Only the cycles that lead to `last` are counted. -/
  cycles_eq : (after (m.run limit)).cycles = m.cycles + k
  mode_eq : (after (m.run limit)).mode = .halted
  /-- An address beyond memory is one that an instruction asks for, not that of an opcode. -/
  instr_of_badAddress : ∀ addr length, RefusedWith (m.run limit) (.badAddress addr length) →
    ∃ i, last.memory.instrAt last.pc = .ok i ∧ i.RefusedBy last (.badAddress addr length)

variable {m next last : Machine} {limit k : Nat}

/-! ## Where a run stops -/

theorem iterCycles_succ_of_ok (hCycle : m.cycle = .ok next) :
    m.iterCycles (k + 1) = next.iterCycles k := by
  rw [iterCycles, hCycle, ok_bind]

theorem WellFormed.equipped (h : m.WellFormed) : m.Equipped where
  memory_size := h.memory_size
  depth_eq := h.depth_eq
  frames_le := by
    have hSize := h.sp_le
    rw [h.sp_eq] at hSize
    exact hSize
  width_eq := h.width_eq
  height_eq := h.height_eq
  stray_eq := h.stray_eq

/-- Short of its limit a run rests exactly where it would not go on to another cycle. -/
theorem restsAt_iff (h : m.WellFormed) : m.RestsAt limit k ↔ k = limit ∨ ¬m.CanGoOn := by
  have hSize : m.memory.size = 4095 := h.memory_size
  unfold RestsAt CanGoOn CanFetch Memory.Covers opcodeSize
  cases m.surface.isOpen with
  | true =>
      simp only [Bool.true_eq_false, true_and, false_or]
      omega
  | false => simp

theorem restsAt_succ : last.RestsAt (limit + 1) (k + 1) ↔ last.RestsAt limit k := by
  unfold RestsAt
  rw [Nat.succ_inj]

theorem stopsAt_succ (hCycle : m.cycle = .ok next) :
    m.StopsAt (limit + 1) (k + 1) ↔ next.StopsAt limit k := by
  unfold StopsAt
  simp only [iterCycles_succ_of_ok hCycle, restsAt_succ]

theorem not_stopsAt_zero (h : m.WellFormed) (hGoOn : m.CanGoOn) (hCycle : m.cycle = .ok next) :
    ¬m.StopsAt (limit + 1) 0 := by
  rintro ⟨last, hReached, hStop⟩
  cases hReached
  rcases hStop with hRests | ⟨failure, hRefused⟩
  · rcases (restsAt_iff h).1 hRests with hZero | hNot
    · omega
    · exact hNot hGoOn
  · rw [hCycle] at hRefused
    cases hRefused

/-- The least number of cycles where a run stops is counted from one cycle earlier on. -/
theorem isLeast_stopsAt_succ (h : m.WellFormed) (hGoOn : m.CanGoOn) (hCycle : m.cycle = .ok next)
    (hLeast : IsLeast {j | next.StopsAt limit j} k) :
    IsLeast {j | m.StopsAt (limit + 1) j} (k + 1) := by
  refine ⟨(stopsAt_succ hCycle).2 hLeast.1, fun j hj => ?_⟩
  cases j with
  | zero => exact absurd hj (not_stopsAt_zero h hGoOn hCycle)
  | succ j => exact Nat.succ_le_succ (hLeast.2 ((stopsAt_succ hCycle).1 hj))

theorem isLeast_stopsAt_zero (h : m.RestsAt limit 0 ∨ ∃ failure, m.cycle = .error failure) :
    IsLeast {j | m.StopsAt limit j} 0 :=
  ⟨⟨m, rfl, h⟩, fun _ _ => Nat.zero_le _⟩

/-! ## The cycles of a run -/

theorem wellFormed_of_cycle_ok (h : m.WellFormed) (hCycle : m.cycle = .ok next) :
    next.WellFormed := by
  have hAfter := h.cycle
  rw [hCycle] at hAfter
  exact hAfter

/-- Cycles in a row keep the bounds and the mode, and they are counted. -/
theorem of_iterCycles (h : m.WellFormed) (hReached : m.iterCycles k = .ok last) :
    last.WellFormed ∧ last.mode = m.mode ∧ last.cycles = m.cycles + k := by
  induction k generalizing m with
  | zero =>
      cases hReached
      exact ⟨h, rfl, rfl⟩
  | succ k ih =>
      obtain ⟨next, hCycle, hRest⟩ := bind_eq_ok_iff.1 hReached
      obtain ⟨hMode, hCount⟩ := mode_cycles_of_cycle_ok hCycle
      obtain ⟨hLast, hModeLast, hCountLast⟩ := ih (wellFormed_of_cycle_ok h hCycle) hRest
      exact ⟨hLast, hModeLast.trans hMode, by omega⟩

theorem runCycles_of_not_canGoOn (hRests : ¬m.CanGoOn) : runCycles limit m = .ok m := by
  cases limit with
  | zero => rfl
  | succ limit =>
      unfold runCycles
      rw [if_neg hRests]

theorem runCycles_succ_of_canGoOn (hGoOn : m.CanGoOn) :
    runCycles (limit + 1) m = m.cycle >>= runCycles limit := by
  conv =>
    lhs
    unfold runCycles
  rw [if_pos hGoOn]
  cases m.cycle with
  | ok next => rfl
  | error failure => rfl

/-- The course of the cycles of a run: they are as many as there can be, and then the run rests or is
refused. -/
theorem exists_runCycles (limit : Nat) (h : m.WellFormed) :
    ∃ k last, IsLeast {j | m.StopsAt limit j} k ∧ m.iterCycles k = .ok last ∧
      (last.RestsAt limit k ∧ runCycles limit m = .ok last ∨
        last.CanGoOn ∧ k ≠ limit ∧
          ∃ failure, last.cycle = .error failure ∧ runCycles limit m = .error failure) := by
  induction limit generalizing m with
  | zero => exact ⟨0, m, isLeast_stopsAt_zero (.inl (.inl rfl)), rfl, .inl ⟨.inl rfl, rfl⟩⟩
  | succ limit ih =>
      by_cases hGoOn : m.CanGoOn
      · cases hCycle : m.cycle with
        | error failure =>
            refine ⟨0, m, isLeast_stopsAt_zero (.inr ⟨failure, hCycle⟩), rfl, .inr ?_⟩
            refine ⟨hGoOn, (Nat.succ_ne_zero limit).symm, failure, hCycle, ?_⟩
            rw [runCycles_succ_of_canGoOn hGoOn, hCycle, error_bind]
        | ok next =>
            -- The rest of the run is one from the next machine on, with one cycle less to go.
            obtain ⟨k, last, hLeast, hReached, hEnd⟩ := ih (wellFormed_of_cycle_ok h hCycle)
            have hRun : runCycles (limit + 1) m = runCycles limit next := by
              rw [runCycles_succ_of_canGoOn hGoOn, hCycle, ok_bind]
            refine ⟨k + 1, last, isLeast_stopsAt_succ h hGoOn hCycle hLeast, ?_, ?_⟩
            · rw [iterCycles_succ_of_ok hCycle]
              exact hReached
            · rw [hRun, restsAt_succ, Ne, Nat.succ_inj]
              exact hEnd
      · have hRests : m.RestsAt (limit + 1) 0 := (restsAt_iff h).2 (.inr hGoOn)
        exact ⟨0, m, isLeast_stopsAt_zero (.inl hRests), rfl,
          .inl ⟨hRests, runCycles_of_not_canGoOn hGoOn⟩⟩

/-- Where an opcode can be fetched, an address beyond memory is one that the instruction asks for. -/
theorem instr_of_cycle_badAddress (h : m.WellFormed) (hFetch : m.CanFetch) {addr length : Int}
    (hRefused : RefusedWith m.cycle (.badAddress addr length)) :
    ∃ i, m.memory.instrAt m.pc = .ok i ∧ i.RefusedBy m (.badAddress addr length) := by
  have hSize : m.memory.size = 4095 := h.memory_size
  cases (cycle_refusedWith_of_fault h.equipped (.inl rfl)).1 hRefused with
  | fetch hBeyond =>
      unfold CanFetch Memory.Covers opcodeSize at hFetch
      omega
  | @instr i f hLow hHigh hDecode hList =>
      exact ⟨i, Memory.instrAt_eq_ok_iff.2 ⟨hFetch, hDecode⟩, hList⟩

/-! ## Runs -/

/-- The cycles of a run of `p + q` cycles are those of a run of `p` and then those of one of `q`. -/
theorem runCycles_add (p q : Nat) (m : Machine) :
    runCycles (p + q) m = runCycles p m >>= runCycles q := by
  induction p generalizing m with
  | zero => rw [Nat.zero_add, runCycles, ok_bind]
  | succ p ih =>
      rw [Nat.succ_add]
      by_cases hGoOn : m.CanGoOn
      · rw [runCycles_succ_of_canGoOn hGoOn, runCycles_succ_of_canGoOn hGoOn]
        cases m.cycle with
        | ok next => exact ih next
        | error failure => rfl
      · rw [runCycles_of_not_canGoOn hGoOn, runCycles_of_not_canGoOn hGoOn, ok_bind,
          runCycles_of_not_canGoOn hGoOn]

theorem run_of_runCycles_ok (h : runCycles limit { m with mode := .running } = .ok last) :
    m.run limit = .ok { last with mode := .halted } := by
  unfold run
  rw [h]

theorem run_of_runCycles_error {f : Fault} {left : Machine}
    (h : runCycles limit { m with mode := .running } = .error (f, left)) :
    m.run limit = .error (f, { left with mode := .halted }) := by
  unfold run
  rw [h]

/-- A run that succeeds leaves a halted machine, and nothing else tells it from the machine after the
cycles. -/
theorem exists_of_run_ok (h : m.run limit = .ok next) :
    ∃ last, runCycles limit { m with mode := .running } = .ok last ∧
      next = { last with mode := .halted } := by
  cases hCycles : runCycles limit { m with mode := .running } with
  | ok last =>
      rw [run_of_runCycles_ok hCycles] at h
      exact ⟨last, rfl, (Except.ok.inj h).symm⟩
  | error failure =>
      rw [run_of_runCycles_error hCycles] at h
      cases h

theorem mode_of_runCycles_ok (h : runCycles limit m = .ok last) : last.mode = m.mode := by
  induction limit generalizing m with
  | zero =>
      cases h
      rfl
  | succ limit ih =>
      by_cases hGoOn : m.CanGoOn
      · rw [runCycles_succ_of_canGoOn hGoOn] at h
        obtain ⟨next, hCycle, hRest⟩ := bind_eq_ok_iff.1 h
        exact (ih hRest).trans (mode_cycles_of_cycle_ok hCycle).1
      · rw [runCycles_of_not_canGoOn hGoOn] at h
        cases h
        rfl

/-- After a run that succeeds, another run goes on as the one run would have. -/
theorem run_add {p q : Nat} (h : m.run p = .ok next) : next.run q = m.run (p + q) := by
  obtain ⟨last, hCycles, rfl⟩ := exists_of_run_ok h
  have hRunning : last.mode = .running := mode_of_runCycles_ok hCycles
  have hSame : ({ last with mode := .running } : Machine) = last := by
    rw [← hRunning]
  unfold run
  rw [runCycles_add, hCycles, ok_bind, hSame]

theorem exists_runsTo (h : m.WellFormed) (limit : Nat) : ∃ k last, m.RunsTo limit k last := by
  have hStart := h.withMode .running
  obtain ⟨k, last, hLeast, hReached, hEnd⟩ := exists_runCycles limit hStart
  obtain ⟨hLast, -, hCount⟩ := of_iterCycles hStart hReached
  refine ⟨k, last, ?_⟩
  rcases hEnd with ⟨hRests, hCycles⟩ | ⟨hGoOn, hShort, ⟨f, left⟩, hRefused, hCycles⟩
  · have hRun := run_of_runCycles_ok hCycles
    exact {
      least := hLeast
      reached := hReached
      rests := fun _ => hRun
      refused := fun hNot => absurd hRests hNot
      cycles_eq := by rw [hRun]; exact hCount
      mode_eq := by rw [hRun]; rfl
      instr_of_badAddress := fun addr length hBad => by
        rw [hRun] at hBad
        exact absurd hBad not_refusedWith_ok }
  · have hRun := run_of_runCycles_error hCycles
    have hNot : ¬last.RestsAt limit k := by
      rw [restsAt_iff hLast]
      rintro (hAll | hStays)
      · exact hShort hAll
      · exact hStays hGoOn
    exact {
      least := hLeast
      reached := hReached
      rests := fun hRests => absurd hRests hNot
      refused := fun _ => ⟨f, left, hRefused, hRun⟩
      cycles_eq := by
        rw [hRun]
        exact (mode_cycles_of_cycle_error hRefused).2.trans hCount
      mode_eq := by rw [hRun]; rfl
      instr_of_badAddress := fun addr length hBad => by
        rw [hRun, refusedWith_error] at hBad
        exact instr_of_cycle_badAddress hLast hGoOn.2 ⟨left, hBad ▸ hRefused⟩ }

/-- A run goes through the least number of cycles where it has to stop, it counts these cycles and
no more, and it leaves a halted machine however it ends; and runs one after the other are one run. -/
theorem run_is_iterCycles (h : m.WellFormed) :
    (∀ limit, ∃ k last, m.RunsTo limit k last) ∧
      ∀ p q next, m.run p = .ok next → next.run q = m.run (p + q) :=
  ⟨exists_runsTo h, fun _ _ _ hRun => run_add hRun⟩

/-- The decimal digits of a register are stored where memory ends, after a cycle that succeeds. -/
theorem run_is_iterCycles_to_memory_end :
    ∃ m, ofRom [0xAF, 0xFF, 0xF0, 0x33] = .ok m ∧ m.WellFormed ∧
      (∀ limit, ∃ k last, m.RunsTo limit k last) ∧
        ∀ p q next, m.run p = .ok next → next.run q = m.run (p + q) := by
  have hRom : ([0xAF, 0xFF, 0xF0, 0x33] : List UInt8).length ≤ maxRomSize := by decide
  have hMemory := Memory.ofRom_eq_ok hRom
  have hWell := WellFormed.of_memory (Memory.size_of_ofRom hMemory) (fun _ => 0) []
  refine ⟨_, ?_, hWell, run_is_iterCycles hWell⟩
  rw [ofRom, hMemory]
  rfl

end Machine

end Chip8
