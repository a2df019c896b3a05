import Chip8.Proofs.Machine.Stores

/-!
# Timers under way

A program stores a byte in a timer, and from then on the timer counts down by its ticks, which come
between any two cycles.  So at every point of a history a timer is the byte that was stored last less
the ticks that came since, or zero if there were more of these (`timers_count_down`).  Nothing else
has a part in it: not the other timer, not a cycle that is refused, and not what happens at the
surface.

What holds of the one timer holds of the other.  A `Clock` says which of the two is meant.
-/

namespace Chip8

namespace Machine

/-- One of the two timers of a machine. -/
inductive Clock where
  | delay
  | sound
deriving DecidableEq, Repr

namespace Clock

/-- The timer of a machine. -/
def timer : Clock → Machine → Timer
  | delay, m => m.delay
  | sound, m => m.sound

/-- The machine with the timer exchanged for another. -/
def withTimer : Clock → Machine → Timer → Machine
  | delay, m, t => { m with delay := t }
  | sound, m, t => { m with sound := t }

/-- The tick of the timer. -/
def tick : Clock → Action
  | delay => .tickDelay
  | sound => .tickSound

/-- The instruction that stores a register in the timer. -/
def storeOp : Clock → SingleOp
  | delay => .setDelay
  | sound => .setSound

/-- The part of a machine that the timer is. -/
def part : Clock → Part
  | delay => .delay
  | sound => .sound

/-- The number of ticks among the moments. -/
def ticks (c : Clock) (moments : List Moment) : Nat :=
  (moments.map (·.action)).count c.tick

end Clock

/-- The moment is a cycle that stores the byte in the timer, from whatever register. -/
def Moment.SetsTimer (e : Moment) (c : Clock) (byte : UInt8) : Prop :=
  ∃ x, e.CarriesOut (.single c.storeOp x) ∧ e.machine.get x = .ok byte

namespace Clock

/-- Nothing was stored in the timer. -/
def Untouched (c : Clock) (moments : List Moment) : Prop :=
  ∀ e ∈ moments, ∀ byte, ¬e.SetsTimer c byte

/-- Of the bytes stored in the timer this one is the last, and the moments `since` came after it. -/
def LastStored (c : Clock) (moments : List Moment) (byte : UInt8) (since : List Moment) : Prop :=
  ∃ before e, moments = before ++ e :: since ∧ e.SetsTimer c byte ∧ c.Untouched since

/-- What the timer is after the moments: the byte stored last less the ticks since, where the
difference of natural numbers stops at zero.  As long as nothing was stored it begins at `start`. -/
def Shows (c : Clock) (start : Nat) (moments : List Moment) (n : Nat) : Prop :=
  (∃ byte since, c.LastStored moments byte since ∧ n = byte.toNat - c.ticks since) ∨
    c.Untouched moments ∧ n = start - c.ticks moments

variable {c : Clock} {m n : Machine} {moments others before mid since : List Moment}
  {byte : UInt8} {start k l : Nat} {action : Action} {i : Instr}

theorem tick_inj {other : Clock} : c.tick = other.tick ↔ c = other := by
  cases c <;> cases other <;> simp [tick]

theorem storeOp_inj {other : Clock} : c.storeOp = other.storeOp ↔ c = other := by
  cases c <;> cases other <;> simp [storeOp]

theorem tick_ne_cycle (c : Clock) : c.tick ≠ .cycle := by
  cases c <;> simp [tick]

theorem tick_ne_run (c : Clock) (limit : Nat) : c.tick ≠ .run limit := by
  cases c <;> simp [tick]

/-! ## Moments in a row -/

theorem ticks_append (c : Clock) (moments others : List Moment) :
    c.ticks (moments ++ others) = c.ticks moments + c.ticks others := by
  rw [ticks, List.map_append, List.count_append]
  rfl

theorem untouched_append :
    c.Untouched (moments ++ others) ↔ c.Untouched moments ∧ c.Untouched others :=
  List.forall_mem_append

theorem LastStored.append (h : c.LastStored moments byte since) (hNone : c.Untouched others) :
    c.LastStored (moments ++ others) byte (since ++ others) := by
  obtain ⟨before, e, rfl, hSets, hSince⟩ := h
  exact ⟨before, e, by simp, hSets, untouched_append.2 ⟨hSince, hNone⟩⟩

theorem LastStored.prepend (h : c.LastStored others byte since) (moments : List Moment) :
    c.LastStored (moments ++ others) byte since := by
  obtain ⟨before, e, rfl, hSets, hSince⟩ := h
  exact ⟨moments ++ before, e, by simp, hSets, hSince⟩

theorem LastStored.not_untouched (h : c.LastStored moments byte since) :
    ¬c.Untouched moments := by
  obtain ⟨before, e, rfl, hSets, -⟩ := h
  exact fun hNone => hNone e (by simp) byte hSets

/-- Only one byte is the last. -/
theorem LastStored.unique {byte' : UInt8} {since' : List Moment}
    (h : c.LastStored moments byte since) (h' : c.LastStored moments byte' since') :
    byte = byte' ∧ since = since' := by
  obtain ⟨before, e, rfl, ⟨x, hStore, hByte⟩, hSince⟩ := h
  obtain ⟨before', e', hSame, ⟨x', hStore', hByte'⟩, hSince'⟩ := h'
  -- If the two moments are not the same, one of them comes after the other.
  rcases List.append_eq_append_iff.1 hSame with
    ⟨_ | ⟨d, rest⟩, -, hTail⟩ | ⟨_ | ⟨d, rest⟩, -, hTail⟩
  · obtain ⟨rfl, rfl⟩ := List.cons.inj hTail
    cases hStore.2.1.symm.trans hStore'.2.1
    exact ⟨Except.ok.inj (hByte.symm.trans hByte'), rfl⟩
  · obtain ⟨-, rfl⟩ := List.cons.inj hTail
    exact absurd ⟨x', hStore', hByte'⟩ (hSince e' (by simp) byte')
  · obtain ⟨rfl, rfl⟩ := List.cons.inj hTail
    cases hStore.2.1.symm.trans hStore'.2.1
    exact ⟨Except.ok.inj (hByte.symm.trans hByte'), rfl⟩
  · obtain ⟨-, rfl⟩ := List.cons.inj hTail
    exact absurd ⟨x, hStore, hByte⟩ (hSince' e (by simp) byte)

theorem Shows.nil (c : Clock) (start : Nat) : c.Shows start [] start :=
  .inr ⟨List.forall_mem_nil _, rfl⟩

/-- What the timer is after some moments is where it begins for those that follow. -/
theorem Shows.append (h : c.Shows start moments k) (h' : c.Shows k others l) :
    c.Shows start (moments ++ others) l := by
  rcases h' with ⟨byte, since, hLast, hLevel⟩ | ⟨hNone, hLevel⟩
  · exact .inl ⟨byte, since, hLast.prepend moments, hLevel⟩
  · rcases h with ⟨byte, since, hLast, hBefore⟩ | ⟨hNever, hBefore⟩
    · refine .inl ⟨byte, since ++ others, hLast.append hNone, ?_⟩
      rw [ticks_append]
      omega
    · refine .inr ⟨untouched_append.2 ⟨hNever, hNone⟩, ?_⟩
      rw [ticks_append]
      omega

/-- As long as nothing is stored in it a timer does not increase. -/
theorem Shows.le_of_untouched (h : c.Shows start before k) (h' : c.Shows start (before ++ mid) l)
    (hNone : c.Untouched mid) : l ≤ k := by
  rcases h with ⟨byte, since, hLast, hLevel⟩ | ⟨hNever, hLevel⟩
  · have hLater := hLast.append hNone
    rcases h' with ⟨byte', since', hLast', hLevel'⟩ | ⟨hNever, -⟩
    · obtain ⟨rfl, rfl⟩ := hLater.unique hLast'
      rw [ticks_append] at hLevel'
      omega
    · exact absurd hNever hLater.not_untouched
  · have hStill := untouched_append.2 ⟨hNever, hNone⟩
    rcases h' with ⟨byte', since', hLast', -⟩ | ⟨-, hLevel'⟩
    · exact absurd hStill hLast'.not_untouched
    · rw [ticks_append] at hLevel'
      omega

/-! ## One moment -/

/-- Only the one instruction may write the timer. -/
theorem part_mem_footprint_iff : c.part ∈ i.footprint m ↔ ∃ x, i = .single c.storeOp x := by
  cases c <;> cases i with
  | bare op => cases op <;> simp [Instr.footprint, part]
  | address op addr => cases op <;> simp [Instr.footprint, part]
  | binary op x y => cases op <;> simp [Instr.footprint, part, Part.ofReg, Part.flag]
  | pair op x y => cases op <;> simp [Instr.footprint, part, Part.ofReg, Part.flag]
  | single op x =>
      cases op <;>
        simp [Instr.footprint, part, storeOp, Part.ofReg, Part.upTo, Part.flag, Part.stretch]
  | random x mask => simp [Instr.footprint, part, Part.ofReg]
  | draw x y rows => simp [Instr.footprint, part, Part.flag]

theorem timer_eq_of_same (h : c.part.Same m n) : c.timer n = c.timer m := by
  cases c <;> exact h

/-- The instruction looks up the register and then stores its byte. -/
theorem perform_storeOp (c : Clock) (m : Machine) (x : Reg) :
    m.perform (.single c.storeOp x) =
      m.attempt (m.get x) >>= fun byte => .ok (c.withTimer m ((c.timer m).set byte.toNat)) := by
  cases c <;> rfl

/-- A cycle that stores a byte in the timer leaves it there. -/
theorem timer_of_setsTimer (h : (⟨m, .cycle⟩ : Moment).SetsTimer c byte) :
    (c.timer (after m.cycle)).value = byte := by
  obtain ⟨x, ⟨-, hInstr, next, hCycle⟩, hByte⟩ := h
  obtain ⟨j, reached, hFound, hExecute, rfl⟩ := cycle_eq_ok_iff.1 hCycle
  cases hInstr.symm.trans hFound
  have hByte : m.get x = .ok byte := hByte
  rw [execute_of_not_isJump (by cases c <;> rfl), perform_storeOp, hByte, attempt_ok, ok_bind,
    ok_bind] at hExecute
  cases hExecute
  rw [hCycle]
  cases c <;> exact Bits.lowByte_toNat byte

/-- Every other cycle leaves the timer as it is, refused or not. -/
theorem timer_of_not_setsTimer (h : ∀ byte, ¬(⟨m, .cycle⟩ : Moment).SetsTimer c byte) :
    c.timer (after m.cycle) = c.timer m := by
  cases hCycle : m.cycle with
  | ok next =>
      obtain ⟨i, reached, hInstr, hExecute, rfl⟩ := cycle_eq_ok_iff.1 hCycle
      have hOutside : c.part ∉ i.footprint m ∪ {.counter} := by
        rintro (hWritten | hCounter)
        · obtain ⟨x, rfl⟩ := part_mem_footprint_iff.1 hWritten
          obtain ⟨k, rfl⟩ := (fits_of_instrAt hInstr).eq_ofSlot
          exact h _ ⟨_, ⟨rfl, hInstr, _, hCycle⟩, get_ofSlot m k⟩
        · cases c <;> cases hCounter
      have hSame := execute_agreesOff (fits_of_instrAt hInstr) _ hOutside
      rw [hExecute] at hSame
      cases c <;> exact hSame
  | error failure =>
      rcases cycle_eq_error_iff.1 hCycle with ⟨-, hLeft⟩ | ⟨i, hInstr, hExecute⟩
      · exact congrArg c.timer hLeft
      · have hPerform := execute_eq_error_iff.1 hExecute
        by_cases hWritten : c.part ∈ i.footprint m
        · obtain ⟨x, rfl⟩ := part_mem_footprint_iff.1 hWritten
          -- Only the look-up can be refused, before the byte is stored.
          rw [perform_storeOp] at hPerform
          rcases eq_or_of_attempt_error hPerform with hLeft | ⟨byte, -, hNever⟩
          · exact congrArg c.timer hLeft
          · cases hNever
        · have hSame := perform_agreesOff (m := m) (fits_of_instrAt hInstr) _ hWritten
          rw [hPerform] at hSame
          exact timer_eq_of_same hSame

/-- Apart from cycles only its ticks count for a timer. -/
theorem timer_act (hCycle : action ≠ .cycle) (hRun : ∀ limit, action ≠ .run limit) (m : Machine) :
    c.timer (m.act action) = if action = c.tick then (c.timer m).tick else c.timer m := by
  rcases act_cases hCycle hRun m with ⟨rfl, hAct⟩ | ⟨rfl, hAct⟩ | ⟨⟨hDelay, hSound⟩, surface, hAct⟩
  · rw [hAct]
    cases c <;> rfl
  · rw [hAct]
    cases c <;> rfl
  · have hOther : action ≠ c.tick := by
      cases c with
      | delay => exact hDelay
      | sound => exact hSound
    rw [hAct, if_neg hOther]
    cases c <;> rfl

theorem shows_moment (hRun : ∀ limit, action ≠ .run limit) :
    c.Shows (c.timer m).value.toNat [⟨m, action⟩] (c.timer (m.act action)).value.toNat := by
  by_cases hStored : ∃ byte, (⟨m, action⟩ : Moment).SetsTimer c byte
  · obtain ⟨byte, hSets⟩ := hStored
    obtain ⟨x, ⟨hCycle, -⟩, -⟩ := id hSets
    cases hCycle
    refine .inl ⟨byte, [], ⟨[], _, rfl, hSets, List.forall_mem_nil _⟩, ?_⟩
    exact congrArg UInt8.toNat (timer_of_setsTimer hSets)
  · have hNone : c.Untouched [⟨m, action⟩] :=
      List.forall_mem_singleton.2 fun byte hSets => hStored ⟨byte, hSets⟩
    refine .inr ⟨hNone, ?_⟩
    by_cases hCycle : action = .cycle
    · subst hCycle
      have hTicks : c.ticks [⟨m, .cycle⟩] = 0 := by simp [ticks, c.tick_ne_cycle.symm]
      rw [hTicks]
      exact congrArg (·.value.toNat) (timer_of_not_setsTimer fun byte hSets => hStored ⟨byte, hSets⟩)
    · rw [timer_act hCycle hRun]
      split
      · next hTick =>
          rw [Timer.toNat_tick]
          simp [ticks, hTick]
      · next hOther => simp [ticks, hOther]

/-! ## Histories -/

/-- At every point of a history a timer shows what was stored last less the ticks since. -/
theorem shows_course {actions : List Action} (c : Clock)
    (h : IsPoint (m.course actions) (m.actAll actions) before n) :
    c.Shows (c.timer m).value.toNat before (c.timer n).value.toNat := by
  refine course_induction_at (R := fun m moments n =>
    c.Shows (c.timer m).value.toNat moments (c.timer n).value.toNat) ?refl ?trans ?turn ?single h
  case refl =>
    intro m
    exact .nil c _
  case trans =>
    intro m n o moments others hFirst hSecond
    exact hFirst.append hSecond
  case turn =>
    intro m mode
    cases c <;> exact .nil _ _
  case single =>
    intro m action hRun
    exact shows_moment hRun

/-- A tick of the one timer and a byte stored in it leave the other as it is. -/
theorem timer_of_other {other : Clock} (h : c ≠ other) {e : Moment}
    (hMoment : e.action = c.tick ∨ ∃ byte, e.SetsTimer c byte) :
    other.timer (e.machine.act e.action) = other.timer e.machine := by
  obtain ⟨m, action⟩ := e
  rcases hMoment with hTick | ⟨byte, x, ⟨hCycle, hInstr, -⟩, -⟩
  · have hAct := timer_act (c := other) c.tick_ne_cycle c.tick_ne_run m
    rw [if_neg (mt tick_inj.1 h)] at hAct
    exact hTick ▸ hAct
  · cases hCycle
    refine timer_of_not_setsTimer ?_
    rintro byte ⟨y, ⟨-, hOther, -⟩, -⟩
    have hSame := Instr.single.inj (Except.ok.inj (hInstr.symm.trans hOther))
    exact h (storeOp_inj.1 hSame.1)

end Clock

/-- What is read from the delay timer is what it is. -/
theorem get_of_getDelay {m : Machine} {k : Fin registerCount}
    (h : (⟨m, .cycle⟩ : Moment).CarriesOut (.single .getDelay (Reg.ofSlot k))) :
    (after m.cycle).v.get k = m.delay.value := by
  obtain ⟨-, hInstr, next, hCycle⟩ := h
  obtain ⟨j, reached, hFound, hExecute, rfl⟩ := cycle_eq_ok_iff.1 hCycle
  cases hInstr.symm.trans hFound
  rw [execute_of_not_isJump rfl, perform, doSingle, set_ofSlot, ok_bind, Bits.lowByte_toNat] at hExecute
  cases hExecute
  rw [hCycle]
  exact get_put_self m k _

/-- Whatever program is in memory and whatever comes between its cycles, at every point of a history
of the machine each of the two timers is a byte, namely the one that was stored in it last, or zero, less
its own ticks since then; this is what a program reads from the delay timer; as long as nothing is stored
in it a timer does not increase; and neither the ticks of the other timer nor what is stored there have a
part in it. -/
theorem timers_count_down (memory : Memory) (random : Nat → UInt8) (script : List (List KeyEvent))
    (actions : List Action) :
    let start : Machine := { memory, random, script }
    (∀ before n, IsPoint (start.course actions) (start.actAll actions) before n → ∀ c : Clock,
      c.Shows 0 before (c.timer n).value.toNat ∧ (c.timer n).value.toNat ≤ 0xFF) ∧
    (∀ before e later k, start.course actions = before ++ e :: later →
      e.CarriesOut (.single .getDelay (Reg.ofSlot k)) →
        Clock.delay.Shows 0 before ((e.machine.act e.action).v.get k).toNat) ∧
    (∀ before mid n o, IsPoint (start.course actions) (start.actAll actions) before n →
      IsPoint (start.course actions) (start.actAll actions) (before ++ mid) o →
        ∀ c : Clock, c.Untouched mid → (c.timer o).value ≤ (c.timer n).value) ∧
    (∀ e ∈ start.course actions, ∀ c other : Clock, c ≠ other →
      (e.action = c.tick ∨ ∃ byte, e.SetsTimer c byte) →
        other.timer (e.machine.act e.action) = other.timer e.machine) := by
  intro start
  have hShows : ∀ before n, IsPoint (start.course actions) (start.actAll actions) before n →
      ∀ c : Clock, c.Shows 0 before (c.timer n).value.toNat := by
    intro before n hPoint c
    have hStart : (c.timer start).value.toNat = 0 := by cases c <;> rfl
    exact hStart ▸ c.shows_course hPoint
  refine ⟨?_, ?_, ?_, ?_⟩
  · intro before n hPoint c
    exact ⟨hShows before n hPoint c, Nat.le_of_lt_succ (UInt8.toNat_lt _)⟩
  · rintro before ⟨m, action⟩ later k hSplit hReads
    obtain ⟨hCycle, -⟩ := id hReads
    cases hCycle
    have hPoint := hShows before m (.inr ⟨_, later, hSplit, rfl⟩) .delay
    exact (congrArg UInt8.toNat (get_of_getDelay hReads)) ▸ hPoint
  · intro before mid n o hPoint hLater c hNone
    exact UInt8.le_iff_toNat_le.2 ((hShows _ _ hPoint c).le_of_untouched (hShows _ _ hLater c) hNone)
  · intro e _ c other hOther hMoment
    exact Clock.timer_of_other hOther hMoment

end Machine

end Chip8
