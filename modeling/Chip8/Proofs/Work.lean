/-!
# Work on a state

What is done to a state one step after the other may break off between two steps.  The steps before
are not taken back then, so work that breaks off leaves a state behind as well.  Where an operation
is written as `Work`, that it changes nothing if it is refused is a matter of the order of its steps.
-/

namespace Chip8

/-- Work on a state, which may break off. -/
abbrev Work (ε σ α : Type) := ExceptT ε (StateM σ) α

namespace Work

variable {ε σ α β : Type}

/-- What comes of the work, and the state that it leaves. -/
def on (w : Work ε σ α) (s : σ) : Except ε α × σ :=
  StateT.run (ExceptT.run w) s

/-- The state that the work leaves, whatever comes of it. -/
def left (w : Work ε σ α) (s : σ) : σ := (w.on s).2

theorem left_eq {w : Work ε σ α} {s next : σ} {r : Except ε α} (h : w.on s = (r, next)) :
    w.left s = next := by
  rw [left, h]

@[simp] theorem on_pure (a : α) (s : σ) : (pure a : Work ε σ α).on s = (.ok a, s) := rfl

@[simp] theorem on_get (s : σ) : (get : Work ε σ σ).on s = (.ok s, s) := rfl

@[simp] theorem on_modify (f : σ → σ) (s : σ) :
    (modify f : Work ε σ Unit).on s = (.ok (), f s) := rfl

@[simp] theorem on_throw (e : ε) (s : σ) : (throw e : Work ε σ α).on s = (.error e, s) := rfl

/-- A result that is at hand takes no step. -/
@[simp] theorem on_ofExcept (r : Except ε α) (s : σ) :
    (ofExcept r : Work ε σ α).on s = (r, s) := by
  cases r with
  | ok a => rfl
  | error e => rfl

/-- Later steps find the state that earlier ones leave, unless these break off. -/
theorem on_bind (w : Work ε σ α) (next : α → Work ε σ β) (s : σ) :
    (w >>= next).on s =
      match w.on s with
      | (.ok a, mid) => (next a).on mid
      | (.error e, left) => (.error e, left) := by
  unfold on
  rw [ExceptT.run_bind, StateT.run_bind]
  generalize StateT.run (ExceptT.run w) s = result
  obtain ⟨r, mid⟩ := result
  cases r with
  | ok a => rfl
  | error e => rfl

end Work

end Chip8
