import Chip8.Proofs.Machine.History
import Chip8.Proofs.Machine.Run

/-!
# The course of a history

A history is given by its actions, and a run counts as one of them.  `Machine.course` takes it apart
into moments: each cycle, also those of a run, and each other action, with the machine before it.  What
a history did on its way, such as which instructions were carried out, is read off this list.

`course_induction` is the one induction over histories.  What it asks for is a relation between the
machine before, the moments and the machine after that holds of no moments, of a single one, and of
moments after moments.  With `course_induction_at` the relation holds up to each point of a history.
-/

namespace Chip8

namespace Machine

/-- An action in a history, and the machine before it. -/
structure Moment where
  machine : Machine
  action : Action

/-- The cycles of a run, the refused one at its end included. -/
def cyclesOf : Nat → Machine → List Moment
  | 0, _ => []
  | limit + 1, m =>
    if m.CanGoOn then
      ⟨m, .cycle⟩ :: match m.cycle with
        | .ok next => cyclesOf limit next
        | .error _ => []
    else []

/-- The moments of an action: the cycles of a run, or else the action itself. -/
def momentsOf (m : Machine) : Action → List Moment
  | .run limit => cyclesOf limit { m with mode := .running }
  | action => [⟨m, action⟩]

/-- The moments of actions in order. -/
def course (m : Machine) : List Action → List Moment
  | [] => []
  | action :: later => m.momentsOf action ++ (m.act action).course later

/-- After the moments `before` of a course that ends with the machine `last` there is the machine
`n`. -/
def IsPoint (moments : List Moment) (last : Machine) (before : List Moment) (n : Machine) : Prop :=
  before = moments ∧ n = last ∨
    ∃ e later, moments = before ++ e :: later ∧ n = e.machine

/-- The moment is a cycle that finds the instruction at the program counter, and executes it. -/
def Moment.Executes (e : Moment) (i : Instr) : Prop :=
  e.action = .cycle ∧ e.machine.memory.instrAt e.machine.pc = .ok i

/-- The moment is a cycle that carries out the instruction. -/
def Moment.CarriesOut (e : Moment) (i : Instr) : Prop :=
  e.action = .cycle ∧ e.machine.memory.instrAt e.machine.pc = .ok i ∧
    ∃ next, e.machine.cycle = .ok next

variable {m n : Machine} {action : Action}

theorem actAll_append (m : Machine) (actions more : List Action) :
    m.actAll (actions ++ more) = (m.actAll actions).actAll more :=
  List.foldl_append

theorem course_append (actions more : List Action) (m : Machine) :
    m.course (actions ++ more) = m.course actions ++ (m.actAll actions).course more := by
  induction actions generalizing m with
  | nil => rfl
  | cons action actions ih =>
      rw [List.cons_append, course, ih (m.act action), course, List.append_assoc]
      rfl

theorem momentsOf_of_ne_run (h : ∀ limit, action ≠ .run limit) :
    m.momentsOf action = [⟨m, action⟩] := by
  cases action with
  | run limit => exact absurd rfl (h limit)
  | _ => rfl

section

variable {R : Machine → List Moment → Machine → Prop}

/-- What holds of each cycle holds of the cycles of a run. -/
theorem cyclesOf_induction (refl : ∀ m, R m [] m)
    (trans : ∀ {m n o c d}, R m c n → R n d o → R m (c ++ d) o)
    (cycle : ∀ m, R m [⟨m, .cycle⟩] (after m.cycle)) (limit : Nat) (m : Machine) :
    R m (cyclesOf limit m) (after (runCycles limit m)) := by
  induction limit generalizing m with
  | zero => exact refl m
  | succ limit ih =>
      by_cases hGoOn : m.CanGoOn
      · have hFirst := cycle m
        rw [cyclesOf, if_pos hGoOn, runCycles_succ_of_canGoOn hGoOn]
        cases hCycle : m.cycle with
        | ok next =>
            rw [hCycle] at hFirst
            exact trans hFirst (ih next)
        | error failure =>
            rw [hCycle] at hFirst
            exact hFirst
      · rw [cyclesOf, if_neg hGoOn, runCycles_of_not_canGoOn hGoOn]
        exact refl m

/-- What holds of each moment holds of a history, if moments after moments keep it.  The beginning and
the end of a run are no moments, but they change the mode. -/
theorem course_induction (refl : ∀ m, R m [] m)
    (trans : ∀ {m n o c d}, R m c n → R n d o → R m (c ++ d) o)
    (turn : ∀ m mode, R m [] { m with mode })
    (single : ∀ m action, (∀ limit, action ≠ .run limit) → R m [⟨m, action⟩] (m.act action))
    (actions : List Action) (m : Machine) : R m (m.course actions) (m.actAll actions) := by
  have hCycle : ∀ m, R m [⟨m, .cycle⟩] (after m.cycle) := fun m =>
    single m .cycle fun _ hRun => Action.noConfusion hRun
  have hRun : ∀ limit m, R m (m.momentsOf (.run limit)) (m.act (.run limit)) := by
    intro limit m
    have hCycles := cyclesOf_induction refl trans hCycle limit { m with mode := .running }
    have hBegun := trans (turn m .running) hCycles
    -- However the cycles end, what is left is the end of the run.
    have hEnded := trans hBegun (turn _ .halted)
    rw [List.append_nil] at hEnded
    show R m _ (after (m.run limit))
    unfold run
    cases hResult : runCycles limit { m with mode := .running } with
    | ok last =>
        rw [hResult] at hEnded
        exact hEnded
    | error failure =>
        rw [hResult] at hEnded
        exact hEnded
  induction actions generalizing m with
  | nil => exact refl m
  | cons action actions ih =>
      refine trans ?_ (ih (m.act action))
      by_cases hOther : ∀ limit, action ≠ .run limit
      · rw [momentsOf_of_ne_run hOther]
        exact single m action hOther
      · obtain ⟨limit, hLimit⟩ := not_forall.1 hOther
        rw [not_not.1 hLimit]
        exact hRun limit m

/-- What holds of a history holds up to each point of it. -/
theorem course_induction_at (refl : ∀ m, R m [] m)
    (trans : ∀ {m n o c d}, R m c n → R n d o → R m (c ++ d) o)
    (turn : ∀ m mode, R m [] { m with mode })
    (single : ∀ m action, (∀ limit, action ≠ .run limit) → R m [⟨m, action⟩] (m.act action))
    {actions : List Action} {before : List Moment}
    (h : IsPoint (m.course actions) (m.actAll actions) before n) : R m before n := by
  refine course_induction (R := fun m c last => ∀ before n, IsPoint c last before n → R m before n)
    ?refl ?trans ?turn ?single actions m before n h
  case refl =>
    rintro m before n (⟨rfl, rfl⟩ | ⟨e, later, hSplit, -⟩)
    · exact refl _
    · simp at hSplit
  case trans =>
    rintro m middle last c d hFirst hSecond before n (⟨rfl, rfl⟩ | ⟨e, later, hSplit, rfl⟩)
    · exact trans (hFirst c middle (.inl ⟨rfl, rfl⟩)) (hSecond d _ (.inl ⟨rfl, rfl⟩))
    · -- The moment lies in the first part, or else all of the first part comes before it.
      rcases List.append_eq_append_iff.1 hSplit with ⟨front, rfl, hRest⟩ | ⟨back, rfl, hRest⟩
      · have hBefore := hSecond front e.machine (.inr ⟨e, later, hRest, rfl⟩)
        exact trans (hFirst c middle (.inl ⟨rfl, rfl⟩)) hBefore
      · rcases List.cons_eq_append_iff.1 hRest with ⟨rfl, hHead⟩ | ⟨others, rfl, -⟩
        · have hBefore := hSecond [] e.machine (.inr ⟨e, later, hHead, rfl⟩)
          rw [List.append_nil] at hFirst
          have hBoth := trans (hFirst before middle (.inl ⟨rfl, rfl⟩)) hBefore
          rwa [List.append_nil] at hBoth
        · exact hFirst before e.machine (.inr ⟨e, others, rfl, rfl⟩)
  case turn =>
    rintro m mode before n (⟨rfl, rfl⟩ | ⟨e, later, hSplit, -⟩)
    · exact turn m mode
    · simp at hSplit
  case single =>
    rintro m action hRun before n (⟨rfl, rfl⟩ | ⟨e, later, hSplit, rfl⟩)
    · exact single m action hRun
    · rcases List.cons_eq_append_iff.1 hSplit with ⟨rfl, hHead⟩ | ⟨others, -, hNever⟩
      · cases hHead
        exact refl m
      · simp at hNever

end

theorem action_of_mem_cyclesOf {limit : Nat} {e : Moment} (h : e ∈ cyclesOf limit m) :
    e.action = .cycle := by
  revert h
  refine cyclesOf_induction (R := fun _ c _ => e ∈ c → e.action = .cycle) ?refl ?trans ?cycle limit m
  case refl =>
    intro m h
    exact absurd h List.not_mem_nil
  case trans =>
    intro m n o c d hFirst hSecond h
    exact (List.mem_append.1 h).elim hFirst hSecond
  case cycle =>
    intro m h
    rw [List.mem_singleton.1 h]

/-- The moments of a history are cycles and the actions that it was given. -/
theorem action_of_mem_course {actions : List Action} {e : Moment} (h : e ∈ m.course actions) :
    e.action = .cycle ∨ e.action ∈ actions := by
  induction actions generalizing m with
  | nil => exact absurd h List.not_mem_nil
  | cons action actions ih =>
      rcases List.mem_append.1 h with hHere | hLater
      · by_cases hOther : ∀ limit, action ≠ .run limit
        · rw [momentsOf_of_ne_run hOther] at hHere
          rw [List.mem_singleton.1 hHere]
          exact .inr List.mem_cons_self
        · obtain ⟨limit, hLimit⟩ := not_forall.1 hOther
          rw [not_not.1 hLimit] at hHere
          exact .inl (action_of_mem_cyclesOf hHere)
      · exact (ih hLater).imp_right (List.mem_cons_of_mem action)

end Machine

end Chip8
