import Chip8.Fetch
import Chip8.Machine.Execute
import Chip8.Proofs.Sequencing

/-!
# Reading and writing memory

Each operation of memory succeeds exactly on the stretches that memory covers.  The lemmas
`read_eq_ok_iff`, `write_eq_ok_iff` and `fetch_eq_ok_iff` say when an operation succeeds and what it
gives; `size_of_write` and `length_of_read` are what follows about sizes.  `Holds` says which data stand
in a stretch, namely those put there last.
-/

namespace Chip8

namespace Memory

variable {m next : Memory} {addr length : Int} {data : List UInt8}

theorem check_eq_ok_iff {u : Unit} : m.check addr length = .ok u ↔ m.Covers addr length := by
  unfold check
  split
  · next h => exact ⟨fun _ => h, fun _ => rfl⟩
  · next h =>
      constructor
      · intro hOk
        cases hOk
      · intro hCovers
        exact absurd hCovers h

theorem check_eq_error_iff {f : Fault} :
    m.check addr length = .error f ↔ ¬m.Covers addr length ∧ f = .badAddress addr length := by
  unfold check
  split
  · next h =>
      constructor
      · intro hError
        cases hError
      · intro hBoth
        exact absurd h hBoth.1
  · next h =>
      constructor
      · intro hError
        cases hError
        exact ⟨h, rfl⟩
      · rintro ⟨-, rfl⟩
        rfl

/-! ## Writing -/

theorem write_eq_ok_iff :
    m.write addr data = .ok next ↔
      m.Covers addr data.length ∧ next = m.replace addr.toNat data := by
  unfold write
  rw [bind_eq_ok_iff]
  constructor
  · rintro ⟨u, hCheck, hNext⟩
    cases hNext
    exact ⟨check_eq_ok_iff.1 hCheck, rfl⟩
  · rintro ⟨hCovers, rfl⟩
    exact ⟨(), check_eq_ok_iff.2 hCovers, rfl⟩

/-- Only the check can refuse to write. -/
theorem write_eq_error_iff {f : Fault} :
    m.write addr data = .error f ↔
      ¬m.Covers addr data.length ∧ f = .badAddress addr data.length := by
  unfold write
  rw [bind_eq_error_iff, check_eq_error_iff]
  refine or_iff_left ?_
  rintro ⟨u, -, hNever⟩
  cases hNever

/-- Writing leaves the size of memory. -/
theorem size_of_write (h : m.write addr data = .ok next) : next.size = m.size := by
  obtain ⟨⟨hlow, hhigh⟩, rfl⟩ := write_eq_ok_iff.1 h
  exact size_replace (by omega)

theorem mapM_byte?_map_toNat (data : List UInt8) :
    (data.map fun b => (b.toNat : Int)).mapM Bits.byte? = some data := by
  induction data with
  | nil => rfl
  | cons b data ih =>
      have hByte : Bits.byte? (b.toNat : Int) = some b := Bits.byte?_eq_some_iff.2 rfl
      rw [List.map_cons, List.mapM_cons, hByte, ih]
      rfl

theorem mapM_byte?_eq_some_iff {values : List Int} :
    values.mapM Bits.byte? = some data ↔ values = data.map fun b => (b.toNat : Int) := by
  constructor
  · intro h
    have hAll := mapM_eq_some_iff.1 h
    clear h
    induction hAll with
    | nil => rfl
    | cons hFirst hRest ih => rw [List.map_cons, ← ih, ← Bits.byte?_eq_some_iff.1 hFirst]
  · rintro rfl
    exact mapM_byte?_map_toNat data

/-- Writing numbers that are bytes is writing these bytes. -/
theorem writeNumbers_toNat (m : Memory) (addr : Int) (data : List UInt8) :
    m.writeNumbers addr (data.map fun b => (b.toNat : Int)) = m.write addr data := by
  unfold writeNumbers write
  rw [mapM_byte?_map_toNat, List.length_map]

/-- The decimal digits of a byte are bytes. -/
theorem decimalDigits_toNat (value : UInt8) :
    decimalDigits value.toNat =
      [value / 100, value / 10 % 10, value % 10].map fun b => (b.toNat : Int) := by
  simp only [decimalDigits, List.map_cons, List.map_nil, UInt8.toNat_div, UInt8.toNat_mod,
    UInt8.reduceToNat, Int.natCast_ediv, Int.natCast_emod, Int.cast_ofNat_Int]

/-! ## Reading -/

theorem read_eq_ok_iff :
    m.read addr length = .ok data ↔
      m.Covers addr length ∧
        data = (m.bytes.extract addr.toNat (Bits.place m.size (addr + length))).toList := by
  unfold read
  rw [bind_eq_ok_iff]
  constructor
  · rintro ⟨u, hCheck, hData⟩
    cases hData
    exact ⟨check_eq_ok_iff.1 hCheck, rfl⟩
  · rintro ⟨hCovers, rfl⟩
    exact ⟨(), check_eq_ok_iff.2 hCovers, rfl⟩

/-- Only the check can refuse to read. -/
theorem read_eq_error_iff {f : Fault} :
    m.read addr length = .error f ↔ ¬m.Covers addr length ∧ f = .badAddress addr length := by
  unfold read
  rw [bind_eq_error_iff, check_eq_error_iff]
  refine or_iff_left ?_
  rintro ⟨u, -, hNever⟩
  cases hNever

/-- A stretch that is read has the length that was asked for. -/
theorem length_of_read (hLength : 0 ≤ length) (h : m.read addr length = .ok data) :
    (data.length : Int) = length := by
  obtain ⟨⟨hlow, hhigh⟩, rfl⟩ := read_eq_ok_iff.1 h
  have hPlace : Bits.place m.size (addr + length) = (addr + length).toNat := by
    rw [Bits.place, if_neg (by omega)]
  rw [hPlace, Array.length_toList, Array.size_extract]
  unfold size at hhigh
  omega

/-- The bytes of a stretch that is read are those of memory. -/
theorem getD_of_read (hLength : 0 ≤ length) (h : m.read addr length = .ok data) {k : Nat}
    (hk : k < length) : data.getD k 0 = m.byteAt (addr.toNat + k) := by
  obtain ⟨⟨hLow, hHigh⟩, rfl⟩ := read_eq_ok_iff.1 h
  have hPlace : Bits.place m.size (addr + length) = (addr + length).toNat := by
    rw [Bits.place, if_neg (by omega)]
  have hInside : k < min (addr + length).toNat m.bytes.size - addr.toNat := by
    unfold size at hHigh
    omega
  rw [hPlace, List.getD_eq_getElem?_getD, Array.getElem?_toList, Array.getElem?_extract,
    if_pos hInside, byteAt, Array.getD_eq_getD_getElem?]

/-! ## Stretches -/

/-- The data stand in memory from an address on. -/
def Holds (m : Memory) (a : Nat) (data : List UInt8) : Prop :=
  m.Covers a data.length ∧ ∀ j (h : j < data.length), m.byteAt (a + j) = data[j]

/-- What is put in its place stands there. -/
theorem holds_replace {start : Nat} (h : start + data.length ≤ m.size) :
    (m.replace start data).Holds start data := by
  refine ⟨⟨Int.natCast_nonneg _, ?_⟩, fun j hj => ?_⟩
  · rw [size_replace h]
    omega
  · have hInside : start ≤ start + j ∧ start + j < start + data.length := by omega
    rw [byteAt_replace h, if_pos hInside, Nat.add_sub_cancel_left, List.getD_eq_getElem?_getD,
      List.getElem?_eq_getElem hj, Option.getD_some]

theorem holds_of_holds_append {a : Nat} {front back : List UInt8}
    (h : m.Holds a (front ++ back)) : m.Holds a front ∧ m.Holds (a + front.length) back := by
  have hLength : (front ++ back).length = front.length + back.length := List.length_append
  obtain ⟨⟨hLow, hHigh⟩, hBytes⟩ := h
  refine ⟨⟨⟨hLow, by omega⟩, fun j hj => ?_⟩, ⟨by omega, by omega⟩, fun j hj => ?_⟩
  · rw [hBytes j (by omega), List.getElem_append_left hj]
  · rw [Nat.add_assoc, hBytes (front.length + j) (by omega),
      List.getElem_append_right (Nat.le_add_right _ _)]
    simp only [Nat.add_sub_cancel_left]

/-- A stretch is read as it stands. -/
theorem read_of_holds {a : Nat} (h : m.Holds a data) : m.read a data.length = .ok data := by
  obtain ⟨⟨hLow, hHigh⟩, hBytes⟩ := h
  have hPlace : Bits.place m.size (a + data.length) = a + data.length := by
    rw [Bits.place, if_neg (by omega)]
    omega
  refine read_eq_ok_iff.2 ⟨⟨hLow, hHigh⟩, ?_⟩
  unfold size at hHigh hPlace
  have hLength : (m.bytes.extract a (a + data.length)).toList.length = data.length := by
    rw [Array.length_toList, Array.size_extract]
    omega
  rw [size, hPlace, Int.toNat_natCast]
  refine List.ext_getElem hLength.symm fun j hj hj' => ?_
  have hByte := hBytes j hj
  rw [byteAt, Array.getD, dif_pos (by omega)] at hByte
  rw [← hByte, Array.getElem_toList, Array.getElem_extract]
  rfl

/-! ## Fetching -/

/-- The word at an address, whether or not memory covers it. -/
def wordAt (m : Memory) (a : Nat) : Nat :=
  0x100 * (m.byteAt a).toNat + (m.byteAt (a + 1)).toNat

theorem fetch_eq_ok_iff {word : Nat} :
    m.fetch addr = .ok word ↔ m.Covers addr opcodeSize ∧ word = m.wordAt addr.toNat := by
  unfold fetch
  rw [bind_eq_ok_iff]
  constructor
  · rintro ⟨u, hCheck, hWord⟩
    cases hWord
    exact ⟨check_eq_ok_iff.1 hCheck, rfl⟩
  · rintro ⟨hCovers, rfl⟩
    exact ⟨(), check_eq_ok_iff.2 hCovers, rfl⟩

/-- Only the check can refuse to fetch. -/
theorem fetch_eq_error_iff {f : Fault} :
    m.fetch addr = .error f ↔
      ¬m.Covers addr opcodeSize ∧ f = .badAddress addr opcodeSize := by
  unfold fetch
  rw [bind_eq_error_iff, check_eq_error_iff]
  refine or_iff_left ?_
  rintro ⟨u, -, hNever⟩
  cases hNever

/-- An instruction is found where memory covers an opcode that decodes. -/
theorem instrAt_eq_ok_iff {i : Instr} :
    m.instrAt addr = .ok i ↔
      m.Covers addr opcodeSize ∧ Instr.decode? (m.wordAt addr.toNat) = some i := by
  unfold instrAt
  rw [bind_eq_ok_iff]
  constructor
  · rintro ⟨word, hFetch, hDecode⟩
    obtain ⟨hCovers, rfl⟩ := fetch_eq_ok_iff.1 hFetch
    split at hDecode
    · next j hj =>
        cases hDecode
        exact ⟨hCovers, hj⟩
    · cases hDecode
  · rintro ⟨hCovers, hDecode⟩
    refine ⟨m.wordAt addr.toNat, fetch_eq_ok_iff.2 ⟨hCovers, rfl⟩, ?_⟩
    rw [hDecode]
    rfl

/-- No instruction is found where memory does not cover an opcode, or where the word is none. -/
theorem instrAt_eq_error_iff {f : Fault} :
    m.instrAt addr = .error f ↔
      ¬m.Covers addr opcodeSize ∧ f = .badAddress addr opcodeSize ∨
        m.Covers addr opcodeSize ∧ Instr.decode? (m.wordAt addr.toNat) = none ∧
          f = .undecodable (m.wordAt addr.toNat) := by
  unfold instrAt fetch
  rw [bind_eq_error_iff, bind_eq_error_iff, check_eq_error_iff]
  constructor
  · rintro ((hCheck | ⟨u, -, hNever⟩) | ⟨word, hFetch, hDecode⟩)
    · exact .inl hCheck
    · cases hNever
    · obtain ⟨hCovers, rfl⟩ := fetch_eq_ok_iff.1 hFetch
      split at hDecode
      · cases hDecode
      · next hNone =>
          cases hDecode
          exact .inr ⟨hCovers, hNone, rfl⟩
  · rintro (hCheck | ⟨hCovers, hNone, rfl⟩)
    · exact .inl (.inl hCheck)
    · refine .inr ⟨m.wordAt addr.toNat, fetch_eq_ok_iff.2 ⟨hCovers, rfl⟩, ?_⟩
      rw [hNone]
      rfl

/-! ## Programs in memory -/

/-- A memory has room for the glyphs in any case. -/
theorem size_ofSize_eq (size : Nat) : (ofSize size).size = max size glyphs.size := by
  have hBlank : (⟨Array.replicate size 0⟩ : Memory).size = size := Array.size_replicate
  rw [ofSize, size_replace_eq, hBlank, Nat.zero_min, Nat.zero_add, Array.length_toList]

theorem size_ofSize {size : Nat} (h : glyphs.size ≤ size) : (ofSize size).size = size := by
  rw [size_ofSize_eq]
  exact Nat.max_eq_left h

theorem size_ofSize_memorySize : (ofSize memorySize).size = memorySize :=
  size_ofSize (by decide)

/-- A program that is not too large is put in its place. -/
theorem ofRom_eq_ok {rom : List UInt8} (h : rom.length ≤ maxRomSize) :
    ofRom rom = .ok ((ofSize memorySize).replace romBase rom) := by
  rw [ofRom, load, if_neg (by omega)]

/-- There is room for every program that is not too large. -/
theorem romBase_add_length_le {rom : List UInt8} (h : rom.length ≤ maxRomSize) :
    romBase + rom.length ≤ (ofSize memorySize).size := by
  have hRoom : romBase + maxRomSize = memorySize := by decide
  rw [size_ofSize_memorySize]
  omega

/-- A memory that holds a program is the usual one with the program in its place. -/
theorem eq_of_ofRom {rom : List UInt8} (h : ofRom rom = .ok m) :
    rom.length ≤ maxRomSize ∧ m = (ofSize memorySize).replace romBase rom := by
  by_cases hLength : rom.length ≤ maxRomSize
  · rw [ofRom_eq_ok hLength] at h
    exact ⟨hLength, (Except.ok.inj h).symm⟩
  · rw [ofRom, load, if_pos (by omega)] at h
    cases h

theorem size_of_ofRom {rom : List UInt8} (h : ofRom rom = .ok m) : m.size = memorySize := by
  obtain ⟨hLength, hMemory⟩ := eq_of_ofRom h
  have hSize := size_replace (romBase_add_length_le hLength)
  rw [hMemory]
  exact hSize.trans size_ofSize_memorySize

/-- A memory that holds a program holds it from the start of programs on. -/
theorem holds_of_ofRom {rom : List UInt8} (h : ofRom rom = .ok m) : m.Holds romBase rom := by
  obtain ⟨hLength, rfl⟩ := eq_of_ofRom h
  exact holds_replace (romBase_add_length_le hLength)

theorem byteAt_of_ofRom {rom : List UInt8} (h : ofRom rom = .ok m) {k : Nat}
    (hk : k < rom.length) : m.byteAt (romBase + k) = rom[k] :=
  (holds_of_ofRom h).2 k hk

theorem wordAt_of_ofRom {rom : List UInt8} (h : ofRom rom = .ok m) {k : Nat}
    (hk : k + 1 < rom.length) :
    m.wordAt (romBase + k) = 0x100 * rom[k].toNat + rom[k + 1].toNat := by
  rw [wordAt, Nat.add_assoc, byteAt_of_ofRom h (Nat.lt_of_succ_lt hk), byteAt_of_ofRom h hk]

/-- The instruction that two bytes of a program are. -/
theorem instrAt_of_ofRom {rom : List UInt8} (h : ofRom rom = .ok m) {k : Nat} {i : Instr}
    (hk : k + 1 < rom.length)
    (hDecode : Instr.decode? ((0x100 * rom[k].toNat + rom[k + 1].toNat : Nat) : Int) = some i) :
    m.instrAt (romBase + k : Nat) = .ok i := by
  have hRoom := romBase_add_length_le (eq_of_ofRom h).1
  rw [size_ofSize_memorySize, ← size_of_ofRom h] at hRoom
  refine instrAt_eq_ok_iff.2 ⟨⟨Int.natCast_nonneg _, ?_⟩, ?_⟩
  · unfold opcodeSize
    omega
  · rw [Int.toNat_natCast, wordAt_of_ofRom h hk]
    exact hDecode

end Memory

end Chip8
