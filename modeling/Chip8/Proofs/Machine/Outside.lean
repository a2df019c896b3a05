import Chip8.Proofs.Machine.Pictures

/-!
# What comes from outside

Two histories of one machine that have the same cycles, but between them different ticks, key events
and takings, and that draw different random bytes, go the same way as long as no cycle of the first
executes an instruction that looks at any of this: `SameCycle` holds of each cycle of the one and the
cycle of the other that comes after as many.  The sound timer is never looked at, so that histories that
differ in its ticks go the same way whatever is executed.

Both are cases of `alike_actAll`, in which the actions that are not `seen` are those by which the two
histories differ.
-/

namespace Chip8

namespace Machine

variable {hidden : Set Channel} {m n : Machine} {action : Action}

/-- The pictures that are published in a history, first to last. -/
def publishedBy (m : Machine) (actions : List Action) : List Frame :=
  PictureEvent.publications (pictureEvents (m.course actions))

/-- The next cycles of the two machines find the same, are refused by the same faults, and leave machines
behind that are the same but for what has come by the hidden channels. -/
structure SameCycle (hidden : Set Channel) (m n : Machine) : Prop where
  instrAt_eq : n.memory.instrAt n.pc = m.memory.instrAt m.pc
  refusedWith_iff : ∀ f, RefusedWith n.cycle f ↔ RefusedWith m.cycle f
  alike : Alike hidden (after m.cycle) (after n.cycle)

theorem Alike.sameCycle (h : Alike hidden m n)
    (hLooks : ∀ i, m.memory.instrAt m.pc = .ok i → ∀ c ∈ i.channels, c ∉ hidden) :
    SameCycle hidden m n where
  instrAt_eq := h.instrAt_eq
  refusedWith_iff := (cycle_inStep h hLooks).refusedWith_iff
  alike := (cycle_inStep h hLooks).after_alike

/-! ## One action -/

theorem publishedBy_append (m : Machine) (actions more : List Action) :
    m.publishedBy (actions ++ more) =
      m.publishedBy actions ++ (m.actAll actions).publishedBy more := by
  rw [publishedBy, pictureEvents_course_append, PictureEvent.publications, List.filterMap_append]
  rfl

theorem publishedBy_cons (m : Machine) (action : Action) (actions : List Action) :
    m.publishedBy (action :: actions) =
      m.publishedBy [action] ++ (m.act action).publishedBy actions :=
  publishedBy_append m [action] actions

/-- Nothing is published from outside. -/
theorem publishedBy_of_channel {c : Channel} (h : action.channel? = some c) (m : Machine) :
    m.publishedBy [action] = [] := by
  cases action with
  | cycle => cases h
  | run limit => cases h
  | _ => rfl

theorem publishedBy_cycle (m : Machine) : m.publishedBy [.cycle] = m.published?.toList := by
  cases hPublished : m.published? with
  | none => simp [publishedBy, course, momentsOf, pictureEvents, Moment.pictureEvent?, hPublished,
      PictureEvent.publications]
  | some frame => simp [publishedBy, course, momentsOf, pictureEvents, Moment.pictureEvent?,
      hPublished, PictureEvent.publications]

/-- Machines that are alike in what the instruction looks at publish the same picture, if any. -/
theorem published?_eq_of_alike (h : Alike hidden m n)
    (hLooks : ∀ i, m.memory.instrAt m.pc = .ok i → ∀ c ∈ i.channels, c ∉ hidden) :
    n.published? = m.published? := by
  have hMakes := makesPicture_iff_of_alike h hLooks
  by_cases hPicture : (⟨m, .cycle⟩ : Moment).MakesPicture
  · have hPixels := (cycle_inStep h hLooks).after_alike.pixels_eq
    rw [published?_eq_of_makesPicture hPicture, published?_eq_of_makesPicture (hMakes.2 hPicture),
      hPixels]
  · rw [published?_eq_none hPicture, published?_eq_none (mt hMakes.1 hPicture)]

/-- One action on machines that are alike, if it does not look at what is hidden. -/
theorem alike_act (h : Alike hidden m n) (hRun : ∀ limit, action ≠ .run limit)
    (hLooks : ∀ i, (⟨m, action⟩ : Moment).Executes i → ∀ c ∈ i.channels, c ∉ hidden) :
    Alike hidden (m.act action) (n.act action) ∧ n.publishedBy [action] = m.publishedBy [action] := by
  cases hChannel : action.channel? with
  | some c =>
      refine ⟨h.act_of_channel hChannel, ?_⟩
      rw [publishedBy_of_channel hChannel, publishedBy_of_channel hChannel]
  | none =>
      cases action with
      | cycle =>
          have hFound : ∀ i, m.memory.instrAt m.pc = .ok i → ∀ c ∈ i.channels, c ∉ hidden :=
            fun i hInstr => hLooks i ⟨rfl, hInstr⟩
          refine ⟨(cycle_inStep h hFound).after_alike, ?_⟩
          rw [publishedBy_cycle, publishedBy_cycle, published?_eq_of_alike h hFound]
      | run limit => exact absurd rfl (hRun limit)
      | _ => cases hChannel

/-! ## Histories -/

/-- Actions by hidden channels make no difference. -/
theorem alike_actAll_of_hidden {actions : List Action}
    (h : ∀ a ∈ actions, ∃ c ∈ hidden, a.channel? = some c) (m : Machine) :
    Alike hidden m (m.actAll actions) ∧ m.publishedBy actions = [] := by
  induction actions generalizing m with
  | nil => exact ⟨.refl hidden m, rfl⟩
  | cons action actions ih =>
      obtain ⟨⟨c, hHidden, hChannel⟩, hLater⟩ := List.forall_mem_cons.1 h
      obtain ⟨hAlike, hPublished⟩ := ih hLater (m.act action)
      refine ⟨(alike_act_of_hidden hChannel hHidden m).trans hAlike, ?_⟩
      rw [publishedBy_cons, publishedBy_of_channel hChannel, hPublished, List.nil_append]

section

variable {actions actions' : List Action} {seen : Action → Bool}

/-- What is not seen is neither a cycle nor a run, so it comes by a hidden channel. -/
theorem exists_channel_of_unseen (hCycle : seen .cycle = true)
    (hHidden : ∀ a c, a.channel? = some c → seen a = false → c ∈ hidden)
    (hUnseen : seen action = false) (hRun : ∀ limit, action ≠ .run limit) :
    ∃ c ∈ hidden, action.channel? = some c := by
  cases hFrom : action.channel? with
  | some c => exact ⟨c, hHidden action c hFrom hUnseen, rfl⟩
  | none =>
      cases action with
      | cycle => exact absurd hUnseen (by simp [hCycle])
      | run limit => exact absurd rfl (hRun limit)
      | _ => cases hFrom

/-- Actions that are not seen make no difference. -/
theorem alike_actAll_of_unseen (hCycle : seen .cycle = true)
    (hHidden : ∀ a c, a.channel? = some c → seen a = false → c ∈ hidden)
    (hRun : ∀ limit, .run limit ∉ actions) (hUnseen : ∀ a ∈ actions, ¬seen a = true)
    (m : Machine) : Alike hidden m (m.actAll actions) ∧ m.publishedBy actions = [] := by
  refine alike_actAll_of_hidden (fun a ha => ?_) m
  exact exists_channel_of_unseen hCycle hHidden (Bool.eq_false_iff.2 (hUnseen a ha))
    fun limit hIs => hRun limit (hIs ▸ ha)

/-- Two histories whose actions are the same but for some by hidden channels go the same way, if what is
executed in the first does not look at these channels. -/
theorem alike_actAll (seen : Action → Bool) (hCycle : seen .cycle = true)
    (hHidden : ∀ a c, a.channel? = some c → seen a = false → c ∈ hidden)
    (hRun : ∀ limit, .run limit ∉ actions) (hRun' : ∀ limit, .run limit ∉ actions')
    (hSame : actions'.filter seen = actions.filter seen) (h : Alike hidden m n)
    (hLooks : ∀ e ∈ m.course actions, ∀ i, e.Executes i → ∀ c ∈ i.channels, c ∉ hidden) :
    Alike hidden (m.actAll actions) (n.actAll actions') ∧
      n.publishedBy actions' = m.publishedBy actions := by
  induction actions generalizing m n actions' with
  | nil =>
      have hUnseen := List.filter_eq_nil_iff.1 hSame
      obtain ⟨hAlike, hPublished⟩ := alike_actAll_of_unseen hCycle hHidden hRun' hUnseen n
      exact ⟨h.trans hAlike, hPublished⟩
  | cons action actions ih =>
      have hFirst : ∀ limit, action ≠ .run limit := fun limit hIs =>
        hRun limit (hIs ▸ List.mem_cons_self)
      have hRest : ∀ limit, .run limit ∉ actions := fun limit hIn =>
        hRun limit (List.mem_cons_of_mem action hIn)
      have hCourse : m.course (action :: actions) =
          ⟨m, action⟩ :: (m.act action).course actions := by
        rw [course, momentsOf_of_ne_run hFirst]
        rfl
      rw [hCourse] at hLooks
      obtain ⟨hHere, hLater⟩ := List.forall_mem_cons.1 hLooks
      by_cases hSeen : seen action = true
      · -- The second history does the same once what differs before it is over.
        rw [List.filter_cons_of_pos hSeen] at hSame
        obtain ⟨front, back, rfl, hFront, -, hBack⟩ := List.filter_eq_cons_iff.1 hSame
        have hRunFront : ∀ limit, .run limit ∉ front := fun limit hIn =>
          hRun' limit (List.mem_append_left _ hIn)
        have hRunBack : ∀ limit, .run limit ∉ back := fun limit hIn =>
          hRun' limit (List.mem_append_right _ (List.mem_cons_of_mem _ hIn))
        obtain ⟨hBefore, hNothing⟩ := alike_actAll_of_unseen hCycle hHidden hRunFront hFront n
        obtain ⟨hNow, hPublished⟩ := alike_act (h.trans hBefore) hFirst hHere
        obtain ⟨hEnd, hOthers⟩ := ih hRest hRunBack hBack hNow hLater
        rw [actAll_append, publishedBy_append, publishedBy_cons _ action,
          publishedBy_cons m, hNothing, hPublished, hOthers]
        exact ⟨hEnd, List.nil_append _⟩
      · rw [List.filter_cons_of_neg hSeen] at hSame
        obtain ⟨c, hIn, hFrom⟩ :=
          exists_channel_of_unseen hCycle hHidden (Bool.eq_false_iff.2 hSeen) hFirst
        have hNow := (alike_act_of_hidden hFrom hIn m).symm.trans h
        obtain ⟨hEnd, hOthers⟩ := ih hRest hRun' hSame hNow hLater
        rw [publishedBy_cons m, publishedBy_of_channel hFrom, hOthers]
        exact ⟨hEnd, (List.nil_append _).symm⟩

end

/-- If only the sound timer is hidden, machines that are alike are the same but for that timer. -/
theorem Alike.eq_of_sound (h : Alike {.sound} m n) :
    ({ n with sound := m.sound } : Machine) = m := by
  have hDisplay : n.surface.display = m.surface.display := by
    rw [h.display_eq, h.pending_eq (by simp)]
  obtain ⟨hSurface, hScript, hStray⟩ := h.surface_eq (by simp)
  have hSame : n.surface = m.surface := by
    rw [hSurface, hDisplay]
    rfl
  have hRandom := h.random_eq (by simp)
  simp only [Prod.mk.injEq] at hRandom
  show (⟨n.memory, n.v, n.i, n.pc, n.sp, n.stack, n.delay, m.sound, n.surface, n.mode, n.cycles,
    n.random, n.drawn, n.script, n.stray⟩ : Machine) = m
  rw [h.memory_eq, h.v_eq, h.i_eq, h.pc_eq, h.sp_eq, h.stack_eq, h.delay_eq (by simp), hSame,
    h.mode_eq, h.cycles_eq, hRandom.1, hRandom.2, hScript, hStray]

/-- Histories with as many cycles go the same way if nothing from outside is looked at. -/
theorem alike_actAll_of_count {actions actions' : List Action} (h : Alike Set.univ m n)
    (hRun : ∀ limit, .run limit ∉ actions) (hRun' : ∀ limit, .run limit ∉ actions')
    (hCount : actions'.count .cycle = actions.count .cycle)
    (hUnseen : ∀ e ∈ m.course actions, ∀ i, e.Executes i → i.channels = ∅) :
    Alike Set.univ (m.actAll actions) (n.actAll actions') ∧
      n.publishedBy actions' = m.publishedBy actions := by
  refine alike_actAll (· == .cycle) rfl (fun _ c _ _ => Set.mem_univ c) hRun hRun' ?_ h ?_
  · rw [List.filter_beq, List.filter_beq, hCount]
  · intro e he i hExecutes c hc
    rw [hUnseen e he i hExecutes] at hc
    exact absurd hc (Set.notMem_empty c)

/-- Histories that are the same but for ticks of the sound timer go the same way. -/
theorem alike_actAll_of_sound {actions actions' : List Action}
    (hRun : ∀ limit, .run limit ∉ actions) (hRun' : ∀ limit, .run limit ∉ actions')
    (hSame : actions'.filter (· != .tickSound) = actions.filter (· != .tickSound)) (m : Machine) :
    Alike {.sound} (m.actAll actions) (m.actAll actions') := by
  refine (alike_actAll (· != .tickSound) rfl ?hidden hRun hRun' hSame (.refl {.sound} m) ?looks).1
  case hidden =>
    intro a c hChannel hTick
    cases bne_eq_false_iff_eq.1 hTick
    cases hChannel
    exact Set.mem_singleton _
  case looks =>
    intro e _ i _ c hc
    exact Instr.notMem_of_mem_channels (by simp) (by simp) (by simp) hc

/-- What comes from outside makes a difference only through the instructions that look at it.  Take two
histories of one machine with cycles and any actions from outside between them, with different random
bytes and different events during key waits.  If no cycle of the first executes an instruction that
looks at a channel, then each of its cycles goes the same way as the cycle of the second that comes after
as many, and the picture that was published last is the same after both.  And two histories that differ
in ticks of the sound timer alone go the same way whatever is executed: all but that timer is the same. -/
theorem sameCycle_of_outside :
    (∀ (m : Machine) (random random' : Nat → UInt8) (script script' : List (List KeyEvent))
      (actions actions' : List Action),
      (∀ limit, .run limit ∉ actions) → (∀ limit, .run limit ∉ actions') →
      (∀ e ∈ ({ m with random, script } : Machine).course actions, ∀ i, e.Executes i →
        i.channels = ∅) →
      ∀ before later before' later',
        actions = before ++ .cycle :: later → actions' = before' ++ .cycle :: later' →
        before'.count .cycle = before.count .cycle →
        let first : Machine := { m with random, script }
        let second : Machine := { m with random := random', script := script' }
        SameCycle Set.univ (first.actAll before) (second.actAll before') ∧
          ∀ past,
            PictureEvent.lastPublished
                (past ++ pictureEvents (second.course (before' ++ [.cycle]))) =
              PictureEvent.lastPublished
                (past ++ pictureEvents (first.course (before ++ [.cycle])))) ∧
    ∀ (m : Machine) (actions actions' : List Action),
      (∀ limit, .run limit ∉ actions) → (∀ limit, .run limit ∉ actions') →
      actions'.filter (· != .tickSound) = actions.filter (· != .tickSound) →
      ({ m.actAll actions' with sound := (m.actAll actions).sound } : Machine) = m.actAll actions ∧
        SameCycle {.sound} (m.actAll actions) (m.actAll actions') := by
  constructor
  · intro m random random' script script' actions actions' hRun hRun' hUnseen before later before'
      later' hActions hActions' hCount first second
    have hStart : Alike Set.univ first second :=
      { Alike.refl Set.univ first with
        keys_eq := fun hSeen => absurd (Set.mem_univ _) hSeen
        random_eq := fun hSeen => absurd (Set.mem_univ _) hSeen }
    -- Up to the cycle and through it, the histories are such histories themselves.
    have hFront : actions = (before ++ [.cycle]) ++ later := by simp [hActions]
    have hFront' : actions' = (before' ++ [.cycle]) ++ later' := by simp [hActions']
    rw [hFront] at hRun hUnseen
    rw [hFront'] at hRun'
    have hRunFront : ∀ limit, .run limit ∉ before ++ [.cycle] := fun limit hIn =>
      hRun limit (List.mem_append_left _ hIn)
    have hRunFront' : ∀ limit, .run limit ∉ before' ++ [.cycle] := fun limit hIn =>
      hRun' limit (List.mem_append_left _ hIn)
    rw [course_append] at hUnseen
    have hUnseenFront := (List.forall_mem_append.1 hUnseen).1
    have hCountFront : (before' ++ [Action.cycle]).count .cycle =
        (before ++ [Action.cycle]).count .cycle := by
      rw [List.count_append, List.count_append, hCount]
    have hThrough := alike_actAll_of_count hStart hRunFront hRunFront' hCountFront hUnseenFront
    rw [course_append] at hUnseenFront
    obtain ⟨hUnseenBefore, hUnseenCycle⟩ := List.forall_mem_append.1 hUnseenFront
    have hBefore := (alike_actAll_of_count hStart
      (fun limit hIn => hRunFront limit (List.mem_append_left _ hIn))
      (fun limit hIn => hRunFront' limit (List.mem_append_left _ hIn)) hCount hUnseenBefore).1
    refine ⟨hBefore.sameCycle ?_,
      PictureEvent.lastPublished_append_of_publications_eq hThrough.2⟩
    intro i hInstr c hc
    rw [hUnseenCycle _ List.mem_cons_self i ⟨rfl, hInstr⟩] at hc
    exact absurd hc (Set.notMem_empty c)
  · intro m actions actions' hRun hRun' hSame
    have hAlike := alike_actAll_of_sound hRun hRun' hSame m
    refine ⟨hAlike.eq_of_sound, hAlike.sameCycle ?_⟩
    intro i _ c hc
    exact Instr.notMem_of_mem_channels (by simp) (by simp) (by simp) hc

/-- A register is set while a timer ticks and a key is pressed, or while nothing of that happens. -/
theorem sameCycle_of_outside_beside_key :
    ∃ m, ofRom [0x60, 0x05] = .ok m ∧
      (∀ e ∈ m.course [.tickDelay, .press 3, .cycle], ∀ i, e.Executes i → i.channels = ∅) ∧
      SameCycle Set.univ (m.actAll [.tickDelay, .press 3]) { m with random := fun _ => 7 } ∧
      SameCycle {.sound} (m.actAll [.tickSound, .cycle]) (m.actAll [.cycle]) := by
  obtain ⟨memory, hMemory, hLoad⟩ :=
    exists_ofRom (show ([0x60, 0x05] : List UInt8).length ≤ maxRomSize by decide)
  have hInstr := Memory.instrAt_of_ofRom hMemory (show 0 + 1 < 2 by decide)
    (show Instr.decode? 0x6005 = some (.binary .load ⟨0⟩ (.imm 5)) from rfl)
  have hUnseen : ∀ e ∈ ({ memory } : Machine).course [.tickDelay, .press 3, .cycle], ∀ i,
      e.Executes i → i.channels = ∅ := by
    intro e he i hExecutes
    obtain ⟨hCycle, hFound⟩ := hExecutes
    rcases List.mem_cons.1 he with rfl | he
    · cases hCycle
    rcases List.mem_cons.1 he with rfl | he
    · cases hCycle
    cases List.mem_singleton.1 he
    cases hInstr.symm.trans hFound
    rfl
  obtain ⟨hOutside, hSound⟩ := sameCycle_of_outside
  refine ⟨{ memory }, hLoad, hUnseen, ?_, ?_⟩
  · exact (hOutside { memory } (fun _ => 0) (fun _ => 7) [] [] [.tickDelay, .press 3, .cycle] [.cycle]
      (by simp) (by simp) hUnseen [.tickDelay, .press 3] [] [] [] rfl rfl rfl).1
  · exact (hSound { memory } [.tickSound, .cycle] [.cycle] (by simp) (by simp) rfl).2

end Machine

end Chip8
