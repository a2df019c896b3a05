import Chip8.Assembly.Assemble
import Chip8.Proofs.Instr.Encoding
import Chip8.Proofs.Memory
import Chip8.Proofs.Assembly.Layout

/-!
# Where a program lies

A program is assembled for the address at which it is loaded, so in memory every statement lies
where the first pass put it, and every label has the address of what follows it.  A reference to a
label comes back from memory as the instruction on the address of that label: no address in memory
is cut to twelve bits, and none of them is that of `CLS` or `RET` as operands of `SYS`.
-/

namespace Chip8.Assembly

variable {m : Memory} {a : Nat}

/-! ## Words in memory -/

/-- Two bytes in memory are fetched as the word that they were made from. -/
theorem wordAt_of_holds {w : Nat} (hWord : w < 0x10000) (h : m.Holds a (wordBytes w)) :
    m.Covers a opcodeSize ∧ m.wordAt a = w := by
  obtain ⟨hCovers, hBytes⟩ := h
  have hHigh : m.byteAt a = UInt8.ofNat (w / 0x100) := hBytes 0 Nat.zero_lt_two
  have hLow : m.byteAt (a + 1) = UInt8.ofNat w := hBytes 1 Nat.one_lt_two
  refine ⟨hCovers, ?_⟩
  rw [Memory.wordAt, hHigh, hLow, UInt8.toNat_ofNat', UInt8.toNat_ofNat']
  omega

theorem fetch_of_holds {n : Int} {data : List UInt8} (hData : wordBytes? n = some data)
    (h : m.Holds a data) : ∃ w : Nat, m.fetch a = .ok w ∧ (w : Int) = n := by
  obtain ⟨hLow, hHigh, rfl⟩ := wordBytes?_eq_some_iff.1 hData
  obtain ⟨hCovers, hWord⟩ := wordAt_of_holds (by omega) h
  refine ⟨n.toNat, Memory.fetch_eq_ok_iff.2 ⟨hCovers, ?_⟩, Int.toNat_of_nonneg hLow⟩
  rw [Int.toNat_natCast, hWord]

/-- The words of a list are fetched one after the other. -/
theorem fetch_of_holds_words {values : List Int} {data : List (List UInt8)}
    (hData : List.Forall₂ (fun n word => wordBytes? n = some word) values data)
    (h : m.Holds a data.flatten) {j : Nat} (hj : j < values.length) :
    ∃ w : Nat, m.fetch ((a + opcodeSize * j : Nat) : Int) = .ok w ∧ (w : Int) = values[j] := by
  induction hData generalizing a j with
  | nil => exact absurd hj (Nat.not_lt_zero j)
  | @cons n word values others hWord hOthers ih =>
      obtain ⟨hFirst, hRest⟩ := Memory.holds_of_holds_append h
      cases j with
      | zero => exact fetch_of_holds hWord hFirst
      | succ j =>
          have hLength : word.length = opcodeSize := by
            obtain ⟨-, -, rfl⟩ := wordBytes?_eq_some_iff.1 hWord
            rfl
          rw [hLength] at hRest
          have hPlace : a + opcodeSize * (j + 1) = a + opcodeSize + opcodeSize * j := by
            rw [Nat.mul_succ]
            omega
          rw [hPlace]
          exact ih hRest (Nat.lt_of_succ_lt_succ hj)

/-! ## Statements in memory -/

/-- The address of the statement numbered `k`, or of the end. -/
def addressAt (found : List Statement) (k : Nat) : Nat :=
  romBase + totalSize (found.take k)

/-- The next statement begins where the image of this one ends. -/
theorem addressAt_succ {found : List Statement} {s : Statement} {k : Nat}
    (hAt : found[k]? = some s) : addressAt found (k + 1) = addressAt found k + s.size := by
  obtain ⟨hk, rfl⟩ := List.getElem?_eq_some_iff.1 hAt
  rw [addressAt, List.take_succ_eq_append_getElem hk, totalSize_append, ← Nat.add_assoc]
  rfl

/-- What memory holds where a statement lies.  A label has the address at which it stands.  An
instruction is fetched as its opcode word, and an instruction on a label is decoded with the address
of that label.  Data are read, or fetched word by word, as the values that the source gives. -/
def Statement.LiesAt (m : Memory) (l : Layout) (a : Nat) : Statement → Prop
  | .label name => l.labels.lookup name = some (a : Int)
  | .instr i => ∃ w : Nat, m.fetch a = .ok w ∧ (w : Int) = i.encode
  | .ref op name =>
    ∃ addr, l.labels.lookup name = some addr ∧ m.instrAt a = .ok (.address op addr)
  | .bytes values =>
    ∃ data, m.read a values.length = .ok data ∧ data.map (fun b => (b.toNat : Int)) = values
  | .words values =>
    ∀ j, (h : j < values.length) →
      ∃ w : Nat, m.fetch ((a + opcodeSize * j : Nat) : Int) = .ok w ∧ (w : Int) = values[j]
  | .unknown _ => False

variable {l : Layout} {s : Statement}

/-- The bytes of a reference to a label are fetched and decoded as the instruction on its address,
if the address is one of memory above the glyphs. -/
theorem instrAt_of_holds {op : AddressOp} {addr : Int} (hLow : romBase ≤ addr) (hHigh : addr ≤ 0xFFF)
    (h : m.Holds a (wordBytes (op.word addr))) : m.instrAt a = .ok (.address op addr) := by
  unfold romBase at hLow
  obtain ⟨hCovers, hWord⟩ := wordAt_of_holds (op.word_lt addr) h
  refine Memory.instrAt_eq_ok_iff.2 ⟨hCovers, ?_⟩
  rw [Int.toNat_natCast, hWord]
  exact Instr.decode?_word op (by omega) hHigh fun _ => ⟨by omega, by omega⟩

/-- A statement lies where the bytes of its pieces are. -/
theorem Statement.liesAt_of_holds {ps : List Piece} {blocks : List (List UInt8)}
    (hPieces : s.pieces? = some ps) (hBlocks : ps.mapM l.pieceBytes = .ok blocks)
    (hLabel : ∀ name, s = .label name → l.labels.lookup name = some (a : Int))
    (hTable : ∀ name addr, l.labels.lookup name = some addr → romBase ≤ addr ∧ addr ≤ 0xFFF)
    (h : m.Holds a blocks.flatten) : s.LiesAt m l a := by
  cases s with
  | label name => exact hLabel name rfl
  | instr i =>
      obtain ⟨data, hData, rfl⟩ := Option.map_eq_some_iff.1 hPieces
      have hBytes : data = blocks.flatten :=
        Except.ok.inj (Layout.pieceBytes_of_mapM_singleton hBlocks)
      subst hBytes
      exact fetch_of_holds hData h
  | ref op name =>
      cases hPieces
      obtain ⟨addr, hResolve, hData⟩ :=
        bind_eq_ok_iff.1 (Layout.pieceBytes_of_mapM_singleton hBlocks)
      rw [← Except.ok.inj hData] at h
      have hLookup := Layout.resolve_eq_ok_iff.1 hResolve
      obtain ⟨hLow, hHigh⟩ := hTable name addr hLookup
      exact ⟨addr, hLookup, instrAt_of_holds hLow hHigh h⟩
  | bytes values =>
      obtain ⟨data, hData, rfl⟩ := Option.map_eq_some_iff.1 hPieces
      have hBytes : data = blocks.flatten :=
        Except.ok.inj (Layout.pieceBytes_of_mapM_singleton hBlocks)
      subst hBytes
      have hAll := mapM_eq_some_iff.1 hData
      rw [LiesAt, hAll.length_eq]
      exact ⟨_, Memory.read_of_holds h, (Memory.mapM_byte?_eq_some_iff.1 hData).symm⟩
  | words values =>
      obtain ⟨data, hData, rfl⟩ := Option.map_eq_some_iff.1 hPieces
      rw [← Except.ok.inj (Layout.pieceBytes_of_mapM_singleton hBlocks)] at h
      exact fun j hj => fetch_of_holds_words (mapM_eq_some_iff.1 hData) h hj
  | unknown line => cases hPieces

/-- No statement lies beyond the end of all of them. -/
theorem addressAt_le (found : List Statement) (k : Nat) :
    addressAt found k ≤ romBase + totalSize found :=
  Nat.add_le_add_left (totalSize_take_le found k) romBase

/-! ## Programs in memory -/

/-- The statements lie in memory one after the other from the start of programs on, and the labels
are those that they define, each with the address at which it stands. -/
structure InPlace (found : List Statement) (l : Layout) (m : Memory) : Prop where
  start : addressAt found 0 = romBase
  next : ∀ k (s : Statement), found[k]? = some s → addressAt found (k + 1) = addressAt found k + s.size
  liesAt : ∀ k (s : Statement), found[k]? = some s → s.LiesAt m l (addressAt found k)
  label : ∀ name addr, l.labels.lookup name = some addr ↔
    ∃ k, found[k]? = some (.label name) ∧ addr = addressAt found k

/-- A source that is assembled to a program that is not too large lies in memory statement by
statement, up to the end of the program. -/
theorem assemble_lies_in_memory {source : String} {out : List UInt8}
    (h : assemble source = .ok out) (hRoom : out.length ≤ maxRomSize) :
    ∃ found l m, statements source = .ok found ∧ layOut found = .ok l ∧ Memory.ofRom out = .ok m ∧
      addressAt found found.length = romBase + out.length ∧ InPlace found l m := by
  obtain ⟨found, hFound, h⟩ := bind_eq_ok_iff.1 h
  obtain ⟨l, hLayOut, hLink⟩ := bind_eq_ok_iff.1 h
  have hRom := Memory.ofRom_eq_ok hRoom
  have hMeasured : ({} : Layout).Measured := rfl
  have hLength : out.length = totalSize found := by
    rw [Layout.length_of_link (Layout.measured_of_foldlM_add hLayOut hMeasured) hLink,
      (Layout.size_of_foldlM_add hLayOut).2]
    exact Nat.zero_add _
  have hEnd : addressAt found found.length = romBase + out.length := by
    rw [addressAt, List.take_length, hLength]
  have hLabels : ∀ name addr, l.labels.lookup name = some addr ↔
      ∃ k, found[k]? = some (.label name) ∧ addr = addressAt found k := by
    intro name addr
    rw [Layout.lookup_iff_of_foldlM_add hLayOut]
    simp [Layout.address, addressAt]
  refine ⟨found, l, _, hFound, hLayOut, hRom, hEnd, rfl, fun k s => addressAt_succ, ?_, hLabels⟩
  intro k s hAt
  obtain ⟨ps, blocks, front, back, hPieces, hBlocks, rfl, hFront⟩ :=
    Layout.exists_bytes_of_link hLayOut hMeasured hLink hAt
  refine Statement.liesAt_of_holds hPieces hBlocks ?_ ?_ ?_
  · rintro name rfl
    exact (hLabels name _).2 ⟨k, hAt, rfl⟩
  · -- No label lies beyond the end of a program, so its address has twelve bits.
    intro name addr hName
    obtain ⟨j, -, rfl⟩ := (hLabels name addr).1 hName
    have hLow : romBase ≤ addressAt found j := Nat.le_add_right _ _
    have hHigh := addressAt_le found j
    rw [← hLength] at hHigh
    unfold maxRomSize memorySize romBase at *
    omega
  · have hPlace : addressAt found k = romBase + front.length := by
      rw [addressAt, hFront]
      exact congrArg (romBase + ·) (Nat.zero_add _).symm
    rw [hPlace]
    have hAll := (Memory.holds_of_holds_append (Memory.holds_of_ofRom hRom)).2
    exact (Memory.holds_of_holds_append hAll).1

/-- A call to a label that is defined later, and a jump back to one before data of odd length. -/
theorem assemble_lies_in_memory_both_ways :
    assemble "CALL sub\nhere: DB 7 ; odd\nsub: JP here\nend:" = .ok [0x22, 0x03, 7, 0x12, 0x02] ∧
      [0x22, 0x03, 7, 0x12, 0x02].length ≤ maxRomSize ∧
      ∃ m, Memory.ofRom [0x22, 0x03, 7, 0x12, 0x02] = .ok m ∧
        m.instrAt 0x200 = .ok (.address .call 0x203) ∧
        m.instrAt 0x203 = .ok (.address .jump 0x202) := by
  have hAssemble : assemble "CALL sub\nhere: DB 7 ; odd\nsub: JP here\nend:" =
      .ok [0x22, 0x03, 7, 0x12, 0x02] := toOption_eq_some_iff.1 (by decide +kernel)
  have hRoom : [0x22, 0x03, 7, 0x12, 0x02].length ≤ maxRomSize := by decide
  obtain ⟨found, l, m, hFound, -, hRom, -, hPlaced⟩ := assemble_lies_in_memory hAssemble hRoom
  have hSource : statements "CALL sub\nhere: DB 7 ; odd\nsub: JP here\nend:" =
      .ok [.ref .call "sub", .label "here", .bytes [7], .label "sub", .ref .jump "here",
        .label "end"] := toOption_eq_some_iff.1 (by decide +kernel)
  rw [hSource] at hFound
  cases hFound
  obtain ⟨sub, hSub, hCall⟩ := hPlaced.liesAt 0 _ rfl
  obtain ⟨here, hHere, hJump⟩ := hPlaced.liesAt 4 _ rfl
  have hSubAt := hPlaced.liesAt 3 _ rfl
  have hHereAt := hPlaced.liesAt 1 _ rfl
  cases hSub.symm.trans hSubAt
  cases hHere.symm.trans hHereAt
  exact ⟨hAssemble, hRoom, m, hRom, hCall, hJump⟩

end Chip8.Assembly
