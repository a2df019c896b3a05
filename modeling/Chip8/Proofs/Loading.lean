import Chip8.Proofs.LatestWrite

/-!
# Loading programs

A program takes the place of as many bytes from `romBase` on.  It is refused for its own length
alone: that memory has as many bytes there is looked at before a write, but not before a program is
loaded.  Where it has not, the program lies from `romBase` or from the end of memory on, whichever
comes first, and memory is extended by what does not fit (`Loads`).

So a program that is not refused lies in its place in a memory that is as large as before exactly if
it fits there or is empty (`loadsInPlace_iff`).  Writes and loads leave a memory between its size and
the usual one (`size_afterChanges`), so that in one of the usual size or more every program fits.
-/

namespace Chip8

namespace Memory

/-! ## Changes -/

/-- Something that is done to memory: a buffer is written, or a program is loaded. -/
inductive Change where
  | write (addr : Int) (buffer : Buffer)
  | load (rom : List UInt8)
deriving DecidableEq, Repr

/-- The change, step by step. -/
def Change.work : Change → Work Fault Memory Unit
  | .write addr buffer => do let _ ← (Access.write addr buffer).work
  | .load rom =>
    if maxRomSize < rom.length then throw (.oversized rom.length)
    else modify fun m => m.replace romBase rom

/-- The memory after changes in order, of which each finds what the one before has left. -/
def afterChanges (m : Memory) (changes : List Change) : Memory :=
  changes.foldl (fun m c => c.work.left m) m

/-- The program lies where programs begin, and otherwise memory is what it was. -/
structure InPlace (m : Memory) (rom : List UInt8) (next : Memory) : Prop where
  size_eq : next.size = m.size
  byteAt_program (k : Nat) (hk : k < rom.length) : next.byteAt (romBase + k) = rom[k]
  byteAt_other (a : Nat) : a < romBase ∨ romBase + rom.length ≤ a → next.byteAt a = m.byteAt a

/-- The program is put in its place, or else it is refused and memory is what it was. -/
def LoadsInPlace (m : Memory) (rom : List UInt8) : Prop :=
  (∃ f, (Change.load rom).work.on m = (.error f, m)) ∨
    ∃ next, (Change.load rom).work.on m = (.ok (), next) ∧ m.InPlace rom next

/-- The address from which on a program lies that is loaded. -/
def loadBase (m : Memory) : Nat := min romBase m.size

/-- What comes of loading a program. -/
structure Loads (m : Memory) (rom : List UInt8) : Prop where
  load_eq : (Change.load rom).work.on m =
    match m.load rom with
    | .ok next => (.ok (), next)
    | .error f => (.error f, m)
  refused_iff (f : Fault) (next : Memory) :
    (Change.load rom).work.on m = (.error f, next) ↔
      next = m ∧ maxRomSize < rom.length ∧ f = .oversized rom.length
  succeeds_iff :
    (∃ next, (Change.load rom).work.on m = (.ok (), next)) ↔ rom.length ≤ maxRomSize
  /-- Memory is extended by what does not fit. -/
  size_eq {next : Memory} :
    (Change.load rom).work.on m = (.ok (), next) →
      next.size = max m.size (m.loadBase + rom.length)
  byteAt_program {next : Memory} :
    (Change.load rom).work.on m = (.ok (), next) →
      ∀ k (hk : k < rom.length), next.byteAt (m.loadBase + k) = rom[k]
  byteAt_other {next : Memory} :
    (Change.load rom).work.on m = (.ok (), next) →
      ∀ a, a < m.loadBase ∨ m.loadBase + rom.length ≤ a → next.byteAt a = m.byteAt a
  inPlace_iff :
    m.LoadsInPlace rom ↔ maxRomSize < rom.length ∨ rom = [] ∨ romBase + rom.length ≤ m.size
  inPlace_of_usual : memorySize ≤ m.size → m.LoadsInPlace rom

variable {m next : Memory} {rom : List UInt8} {f : Fault}

/-! ## One change -/

/-- The steps of loading a program are what `Memory.load` does, and none is taken back. -/
theorem on_load (m : Memory) (rom : List UInt8) :
    (Change.load rom).work.on m =
      match m.load rom with
      | .ok next => (.ok (), next)
      | .error f => (.error f, m) := by
  rw [Change.work, load]
  split <;> rfl

theorem on_load_eq_error_iff :
    (Change.load rom).work.on m = (.error f, next) ↔
      next = m ∧ maxRomSize < rom.length ∧ f = .oversized rom.length := by
  rw [on_load, load]
  by_cases hLong : maxRomSize < rom.length
  · simp [hLong, eq_comm, and_comm]
  · simp [hLong]

theorem on_load_eq_ok_iff :
    (Change.load rom).work.on m = (.ok (), next) ↔
      rom.length ≤ maxRomSize ∧ next = m.replace romBase rom := by
  rw [on_load, load, ← Nat.not_lt]
  by_cases hLong : maxRomSize < rom.length
  · simp [hLong]
  · simp [hLong, eq_comm]

/-- A write leaves what the access leaves. -/
theorem left_write (m : Memory) (addr : Int) (b : Buffer) :
    (Change.write addr b).work.left m = (Access.write addr b).work.left m := by
  unfold Work.left
  rw [Change.work, Work.on_bind]
  split <;> simp_all

/-- No change takes bytes away from memory, and none makes it larger than the usual one. -/
theorem size_left_work (m : Memory) (c : Change) :
    m.size ≤ (c.work.left m).size ∧ (c.work.left m).size ≤ max m.size memorySize := by
  cases c with
  | write addr b =>
      rw [left_write, (left_work m _).1]
      omega
  | load rom =>
      by_cases hLong : maxRomSize < rom.length
      · rw [Work.left_eq (on_load_eq_error_iff.2 ⟨rfl, hLong, rfl⟩)]
        omega
      · have hRoom : romBase + maxRomSize = memorySize := by decide
        rw [Work.left_eq (on_load_eq_ok_iff.2 ⟨Nat.le_of_not_lt hLong, rfl⟩), size_replace_eq]
        omega

/-! ## A course of changes -/

theorem size_afterChanges (m : Memory) (changes : List Change) :
    m.size ≤ (m.afterChanges changes).size ∧
      (m.afterChanges changes).size ≤ max m.size memorySize := by
  induction changes generalizing m with
  | nil => exact ⟨Nat.le_refl _, Nat.le_max_left _ _⟩
  | cons c changes ih =>
      obtain ⟨hLow, hHigh⟩ := size_left_work m c
      obtain ⟨hLow', hHigh'⟩ := ih (c.work.left m)
      exact ⟨Nat.le_trans hLow hLow', Nat.le_trans hHigh' (by omega)⟩

/-! ## Programs in their place -/

/-- Bytes lie in their place exactly if they fit there, or if there are none. -/
theorem inPlace_replace_iff :
    m.InPlace rom (m.replace romBase rom) ↔ rom = [] ∨ romBase + rom.length ≤ m.size := by
  constructor
  · intro hInPlace
    have hSize := hInPlace.size_eq
    rw [size_replace_eq] at hSize
    rcases Nat.eq_zero_or_pos rom.length with hNone | hSome
    · exact .inl (List.eq_nil_of_length_eq_zero hNone)
    · exact .inr (by omega)
  · rintro (rfl | hFits)
    · refine ⟨?_, fun k hk => absurd hk (Nat.not_lt_zero k), fun a _ => ?_⟩
      · rw [size_replace_eq, List.length_nil]
        omega
      · rw [byteAt_replace_eq, List.length_nil, if_neg (by omega)]
    · refine ⟨size_replace hFits, (holds_replace hFits).2, fun a hOutside => ?_⟩
      rw [byteAt_replace hFits, if_neg (by omega)]

/-- A program is put in its place, if it is not refused, exactly if it fits there or is empty. -/
theorem loadsInPlace_iff :
    m.LoadsInPlace rom ↔ maxRomSize < rom.length ∨ rom = [] ∨ romBase + rom.length ≤ m.size := by
  constructor
  · rintro (⟨f, hRefused⟩ | ⟨next, hLoaded, hInPlace⟩)
    · exact .inl (on_load_eq_error_iff.1 hRefused).2.1
    · obtain ⟨-, rfl⟩ := on_load_eq_ok_iff.1 hLoaded
      exact .inr (inPlace_replace_iff.1 hInPlace)
  · intro h
    by_cases hLong : maxRomSize < rom.length
    · exact .inl ⟨_, on_load_eq_error_iff.2 ⟨rfl, hLong, rfl⟩⟩
    · have hFits := h.resolve_left hLong
      exact .inr ⟨_, on_load_eq_ok_iff.2 ⟨Nat.le_of_not_lt hLong, rfl⟩,
        inPlace_replace_iff.2 hFits⟩

/-- In a memory of the usual size or more there is room for every program that is not refused. -/
theorem loadsInPlace_of_memorySize_le (h : memorySize ≤ m.size) (rom : List UInt8) :
    m.LoadsInPlace rom := by
  have hRoom : romBase + maxRomSize = memorySize := by decide
  refine loadsInPlace_iff.2 ?_
  omega

theorem loads (m : Memory) (rom : List UInt8) : m.Loads rom where
  load_eq := on_load m rom
  refused_iff _ _ := on_load_eq_error_iff
  succeeds_iff := by simp [on_load_eq_ok_iff]
  size_eq hLoaded := by
    obtain ⟨-, rfl⟩ := on_load_eq_ok_iff.1 hLoaded
    exact size_replace_eq m romBase rom
  byteAt_program hLoaded k hk := by
    obtain ⟨-, rfl⟩ := on_load_eq_ok_iff.1 hLoaded
    rw [byteAt_replace_eq, loadBase, if_pos (by omega), Nat.add_sub_cancel_left,
      List.getD_eq_getElem?_getD, List.getElem?_eq_getElem hk, Option.getD_some]
  byteAt_other hLoaded a hOutside := by
    obtain ⟨-, rfl⟩ := on_load_eq_ok_iff.1 hLoaded
    rw [byteAt_replace_eq, if_neg]
    unfold loadBase at hOutside
    omega
  inPlace_iff := loadsInPlace_iff
  inPlace_of_usual hUsual := loadsInPlace_of_memorySize_le hUsual rom

/-- A memory of any size, whatever was written to it and loaded, refuses a program that is too long
and stays what it was.  Any other program is loaded: it takes the place of as many bytes from
`romBase` on, and memory stays as large as it was exactly if they are there or the program is empty.
They always are in a memory that was made with the usual size or more, whose size never changes. -/
theorem loads_afterChanges (size : Nat) (changes : List Change) (rom : List UInt8) :
    ofSize? size = .ok (ofSize size) ∧
      max size glyphs.size ≤ ((ofSize size).afterChanges changes).size ∧
      ((ofSize size).afterChanges changes).size ≤ max size memorySize ∧
      ((ofSize size).afterChanges changes).Loads rom := by
  have hGlyphs : glyphs.size ≤ memorySize := by decide
  obtain ⟨hLow, hHigh⟩ := size_afterChanges (ofSize size) changes
  rw [size_ofSize_eq] at hLow hHigh
  refine ⟨?_, hLow, by omega, loads _ rom⟩
  rw [ofSize?, if_neg (by omega), Int.toNat_natCast]

/-- A memory of a hundred bytes neither refuses a program of two bytes nor puts it in its place. -/
theorem not_loadsInPlace_of_short :
    ¬∀ (size : Nat) (changes : List Change) (rom : List UInt8),
      ((ofSize size).afterChanges changes).LoadsInPlace rom := by
  intro hAll
  have hShort := loadsInPlace_iff.1 (hAll 100 [] [0xAA, 0xBB])
  revert hShort
  decide

end Memory

end Chip8
