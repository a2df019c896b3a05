import Mathlib.Data.List.Forall2

/-!
# Actions in sequence

An action that may be refused is followed by the next only if it succeeds.  The lemmas take such a
sequence apart into its steps, whatever the actions and the refusals are.  An action on each element
of a list succeeds if it does on all of them.
-/

namespace Chip8

variable {ε α β : Type} {r : Except ε α} {next : α → Except ε β} {e : ε} {a : α} {b : β}

@[simp] theorem ok_bind (a : α) (next : α → Except ε β) : (Except.ok a >>= next) = next a := rfl

@[simp] theorem error_bind (e : ε) (next : α → Except ε β) :
    (Except.error e >>= next) = Except.error e := rfl

@[simp] theorem pure_eq_ok (a : α) : (pure a : Except ε α) = .ok a := rfl

@[simp] theorem throw_eq_error (e : ε) : (throw e : Except ε α) = .error e := rfl

/-- A sequence succeeds if all of its steps do. -/
theorem bind_eq_ok_iff : (r >>= next) = .ok b ↔ ∃ a, r = .ok a ∧ next a = .ok b := by
  cases r with
  | ok a => simp
  | error e => simp

/-- A sequence is refused at the first of its steps that is. -/
theorem bind_eq_error_iff :
    (r >>= next) = .error e ↔ r = .error e ∨ ∃ a, r = .ok a ∧ next a = .error e := by
  cases r with
  | ok a => simp
  | error e' => simp

theorem toOption_eq_some_iff : r.toOption = some a ↔ r = .ok a := by
  cases r with
  | ok b => simp [Except.toOption]
  | error e => simp [Except.toOption]

/-! ## Lists -/

theorem mapM_eq_ok_iff {f : α → Except ε β} {xs : List α} {ys : List β} :
    xs.mapM f = .ok ys ↔ List.Forall₂ (fun x y => f x = .ok y) xs ys := by
  induction xs generalizing ys with
  | nil =>
      rw [List.mapM_nil, List.forall₂_nil_left_iff]
      exact ⟨fun h => (Except.ok.inj h).symm, fun h => congrArg Except.ok h.symm⟩
  | cons x xs ih =>
      rw [List.mapM_cons, bind_eq_ok_iff, List.forall₂_cons_left_iff]
      constructor
      · rintro ⟨y, hFirst, hRest⟩
        obtain ⟨others, hOthers, hList⟩ := bind_eq_ok_iff.1 hRest
        exact ⟨y, others, hFirst, ih.1 hOthers, (Except.ok.inj hList).symm⟩
      · rintro ⟨y, others, hFirst, hOthers, rfl⟩
        exact ⟨y, hFirst, bind_eq_ok_iff.2 ⟨others, ih.2 hOthers, rfl⟩⟩

theorem mapM_eq_some_iff {f : α → Option β} {xs : List α} {ys : List β} :
    xs.mapM f = some ys ↔ List.Forall₂ (fun x y => f x = some y) xs ys := by
  induction xs generalizing ys with
  | nil =>
      rw [List.mapM_nil, List.forall₂_nil_left_iff]
      exact ⟨fun h => (Option.some.inj h).symm, fun h => congrArg some h.symm⟩
  | cons x xs ih =>
      rw [List.mapM_cons, List.forall₂_cons_left_iff]
      constructor
      · intro h
        obtain ⟨y, hFirst, hRest⟩ := Option.bind_eq_some_iff.1 h
        obtain ⟨others, hOthers, hList⟩ := Option.bind_eq_some_iff.1 hRest
        exact ⟨y, others, hFirst, ih.1 hOthers, (Option.some.inj hList).symm⟩
      · rintro ⟨y, others, hFirst, hOthers, rfl⟩
        exact Option.bind_eq_some_iff.2
          ⟨y, hFirst, Option.bind_eq_some_iff.2 ⟨others, ih.2 hOthers, rfl⟩⟩

/-- Something is missing in the list if it is for one of the elements. -/
theorem mapM_eq_none_iff {f : α → Option β} {xs : List α} :
    xs.mapM f = none ↔ ∃ x ∈ xs, f x = none := by
  induction xs with
  | nil => simp
  | cons x xs ih =>
      rw [List.mapM_cons, List.exists_mem_cons_iff, ← ih]
      cases f x with
      | none => simp
      | some y => cases xs.mapM f <;> simp

theorem exists_forall₂ {R : α → β → Prop} {xs : List α} (h : ∀ x ∈ xs, ∃ y, R x y) :
    ∃ ys, List.Forall₂ R xs ys := by
  induction xs with
  | nil => exact ⟨[], .nil⟩
  | cons x xs ih =>
      obtain ⟨⟨y, hy⟩, hRest⟩ := List.forall_mem_cons.1 h
      obtain ⟨ys, hys⟩ := ih hRest
      exact ⟨y :: ys, .cons hy hys⟩

end Chip8
