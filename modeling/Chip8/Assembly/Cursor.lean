import Chip8.Text.Blank
import Chip8.Assembly.Error

/-!
# Reading a source

A `Cursor` is a place in a source: the text that is still to be read, and the character before it,
which decides whether a keyword can begin there.  An attempt to read something misses, hits, or
ends the reading of the whole source.
-/

namespace Chip8.Assembly

open Text

/-- A place in a source. -/
structure Cursor where
  /-- The character before the place, if it is not the start. -/
  before : Option Char
  /-- The text from the place on. -/
  rest : List Char
deriving DecidableEq, Repr

namespace Cursor

/-- The start of a text. -/
def start (text : List Char) : Cursor := ⟨none, text⟩

/-- The place `n` characters further on, or the end. -/
def advance : Nat → Cursor → Cursor
  | 0, c => c
  | _ + 1, ⟨before, []⟩ => ⟨before, []⟩
  | n + 1, ⟨_, a :: rest⟩ => advance n ⟨some a, rest⟩

@[simp] theorem rest_advance (n : Nat) (c : Cursor) : (c.advance n).rest = c.rest.drop n := by
  obtain ⟨before, rest⟩ := c
  induction n generalizing before rest with
  | zero => simp [advance]
  | succ n ih =>
    cases rest with
    | nil => simp [advance]
    | cons a rest => simp [advance, ih]

/-- The place after the blanks and comments from here on.  A comment runs from a semicolon to the
end of its line, where `inComment` says whether the text begins inside one. -/
def skipFrom (inComment : Bool) (before : Option Char) : List Char → Cursor
  | [] => ⟨before, []⟩
  | a :: rest =>
    if inComment then skipFrom (a ≠ '\n') (some a) rest
    else if isBlank a then skipFrom false (some a) rest
    else if a = ';' then skipFrom true (some a) rest
    else ⟨before, a :: rest⟩

/-- The place after the blanks and comments from here on. -/
def skip (c : Cursor) : Cursor := skipFrom false c.before c.rest

theorem length_skipFrom_le (inComment : Bool) (before : Option Char) (text : List Char) :
    (skipFrom inComment before text).rest.length ≤ text.length := by
  induction text generalizing inComment before with
  | nil => simp [skipFrom]
  | cons a rest ih =>
    unfold skipFrom
    split
    · exact Nat.le_succ_of_le (ih _ _)
    · split
      · exact Nat.le_succ_of_le (ih _ _)
      · split
        · exact Nat.le_succ_of_le (ih _ _)
        · simp

theorem length_skip_le (c : Cursor) : c.skip.rest.length ≤ c.rest.length :=
  length_skipFrom_le _ _ _

end Cursor

/-- What comes of an attempt to read something. -/
inductive Attempt (α : Type) where
  /-- It is not there. -/
  | miss
  /-- The source cannot be read at all. -/
  | abort (e : Error)
  /-- It was read, and reading goes on at the cursor. -/
  | hit (value : α) (next : Cursor)
deriving DecidableEq, Repr

namespace Attempt

variable {α β : Type}

/-- Goes on with `f` after a hit. -/
def andThen (a : Attempt α) (f : α → Cursor → Attempt β) : Attempt β :=
  match a with
  | .miss => .miss
  | .abort e => .abort e
  | .hit value next => f value next

/-- Tries `b` after a miss. -/
def orElse (a : Attempt α) (b : Unit → Attempt α) : Attempt α :=
  match a with
  | .miss => b ()
  | .abort e => .abort e
  | .hit value next => .hit value next

/-- Changes the value of a hit. -/
def map (f : α → β) (a : Attempt α) : Attempt β :=
  a.andThen fun value next => .hit (f value) next

theorem andThen_eq_hit_iff {a : Attempt α} {f : α → Cursor → Attempt β} {v : β} {next : Cursor} :
    a.andThen f = .hit v next ↔ ∃ u mid, a = .hit u mid ∧ f u mid = .hit v next := by
  cases a with
  | miss => simp [andThen]
  | abort e => simp [andThen]
  | hit value mid =>
    constructor
    · intro h
      exact ⟨value, mid, rfl, h⟩
    · rintro ⟨u, place, h, hf⟩
      cases h
      exact hf

theorem map_eq_hit_iff {a : Attempt α} {f : α → β} {v : β} {next : Cursor} :
    a.map f = .hit v next ↔ ∃ u, a = .hit u next ∧ f u = v := by
  rw [map, andThen_eq_hit_iff]
  constructor
  · rintro ⟨u, mid, h, hf⟩
    cases hf
    exact ⟨u, h, rfl⟩
  · rintro ⟨u, h, rfl⟩
    exact ⟨u, next, h, rfl⟩

theorem orElse_eq_hit_iff {a : Attempt α} {b : Unit → Attempt α} {v : α} {next : Cursor} :
    a.orElse b = .hit v next ↔ a = .hit v next ∨ (a = .miss ∧ b () = .hit v next) := by
  cases a <;> simp [orElse]

end Attempt

end Chip8.Assembly
