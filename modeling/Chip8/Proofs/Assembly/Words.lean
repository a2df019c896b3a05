import Chip8.Proofs.Assembly.Acceptance
import Chip8.Proofs.Assembly.Outcome
import Chip8.Proofs.Assembly.Placement
import Chip8.Proofs.Instr.Decoding

/-!
# The words of a program

A source that consists of instructions is assembled to their words, one after the other, so decoding
the program word by word gives these instructions again (`decodeWords?_of_assemble`).  What comes back
for `SYS` at two addresses is `CLS` or `RET`, whose words are the same.

The word of an instruction on a label is filled in by the second pass, which cuts the address of the
label to twelve bits, however large the program (`emitsRef_of_assemble`).  No number that is written
out is cut in this way, and no program that is so large fits into memory.
-/

namespace Chip8.Assembly

/-! ## Words in a list of bytes -/

/-- The instructions of bytes that are taken two by two, if each two of them are those of one. -/
def decodeWords? : List UInt8 → Option (List Instr)
  | [] => some []
  | [_] => none
  | high :: low :: rest => do
    let i ← Instr.decode? (0x100 * high.toNat + low.toNat : Nat)
    return i :: (← decodeWords? rest)

/-- The word that begins at an offset. -/
def wordFrom (out : List UInt8) (n : Nat) : Nat :=
  0x100 * (out.getD n 0).toNat + (out.getD (n + 1) 0).toNat

/-- The two bytes of a word make up the word. -/
theorem toNat_wordBytes {w : Nat} (h : w < 0x10000) :
    0x100 * (UInt8.ofNat (w / 0x100)).toNat + (UInt8.ofNat w).toNat = w := by
  rw [UInt8.toNat_ofNat', UInt8.toNat_ofNat']
  omega

theorem wordFrom_append {w : Nat} (h : w < 0x10000) (front back : List UInt8) :
    wordFrom (front ++ (wordBytes w ++ back)) front.length = w := by
  unfold wordFrom wordBytes
  simp only [List.getD_eq_getElem?_getD, List.getElem?_append_right (Nat.le_refl _),
    List.getElem?_append_right (Nat.le_add_right front.length 1), Nat.sub_self,
    Nat.add_sub_cancel_left, List.cons_append, List.getElem?_cons_zero, List.getElem?_cons_succ,
    Option.getD_some]
  exact toNat_wordBytes h

theorem length_add_le_append (w : Nat) (front back : List UInt8) :
    front.length + opcodeSize ≤ (front ++ (wordBytes w ++ back)).length := by
  rw [List.length_append, List.length_append, length_wordBytes]
  omega

/-! ## Programs of instructions -/

theorem decodeWords?_flatMap {is : List Instr} (h : ∀ i ∈ is, i.Fits) :
    decodeWords? (is.flatMap fun i => wordBytes i.encode.toNat) = some (is.map Instr.executed) := by
  induction is with
  | nil => rfl
  | cons i is ih =>
      obtain ⟨hFits, hOthers⟩ := List.forall_mem_cons.1 h
      obtain ⟨hLow, hHigh⟩ := hFits.encode_bounds
      have hWord := toNat_wordBytes (show i.encode.toNat < 0x10000 by omega)
      rw [List.flatMap_cons, wordBytes, List.cons_append, List.cons_append, List.nil_append,
        decodeWords?, hWord, Int.toNat_of_nonneg hLow, Instr.decode?_encode hFits, ih hOthers]
      rfl

theorem WrittenAll.fits {found : List Statement} {ws : List (List Char)} (h : WrittenAll found ws) :
    ∀ s ∈ found, s.Fits := by
  induction h with
  | nil => exact fun s hs => nomatch hs
  | cons hFirst _ ih => exact List.forall_mem_cons.2 ⟨hFirst.1, ih⟩

/-- A source that consists of instructions is written out as these, and its program is decoded word by
word to the instructions that are carried out for them, which are the very same apart from two. -/
theorem decodeWords?_of_assemble {source : String} {is : List Instr} {out : List UInt8}
    (hSource : statements source = .ok (is.map Statement.instr)) (h : assemble source = .ok out) :
    (∃ xs trailing, Covers (Text.expandTabs source.toList) xs trailing ∧ Trailing trailing ∧
      WrittenAll (is.map Statement.instr) (xs.map Lexeme.chars)) ∧
        decodeWords? out = some (is.map Instr.executed) ∧
          ∀ i ∈ is, i.executed = i ↔ i ≠ .address .sys 0x0E0 ∧ i ≠ .address .sys 0x0EE := by
  obtain ⟨found, xs, trailing, hCovers, hTrailing, hWritten, hFound, -, hBytes⟩ :=
    assemble_accounts_for_source h
  obtain rfl : is.map Statement.instr = found := Except.ok.inj (hSource.symm.trans hFound)
  have hFits : ∀ i ∈ is, i.Fits := fun i hi => hWritten.fits _ (List.mem_map_of_mem hi)
  rw [Layout.layOut_link_instr fun i hi => (hFits i hi).encode_bounds] at hBytes
  refine ⟨⟨xs, trailing, hCovers, hTrailing, hWritten⟩, ?_, fun i _ => Instr.executed_eq_self_iff⟩
  rw [← Except.ok.inj hBytes]
  exact decodeWords?_flatMap hFits

/-- A shift with a second register, a call to the host and a sprite. -/
theorem decodeWords?_of_assemble_shift :
    statements "SHR V1, V2\nSYS 0x0E1\nDRW VA, VB, 15" =
        .ok ([.single .shiftRight ⟨1⟩, .address .sys 0x0E1, .draw ⟨10⟩ ⟨11⟩ 15].map .instr) ∧
      assemble "SHR V1, V2\nSYS 0x0E1\nDRW VA, VB, 15" = .ok [0x81, 0x06, 0x00, 0xE1, 0xDA, 0xBF] ∧
      decodeWords? [0x81, 0x06, 0x00, 0xE1, 0xDA, 0xBF] =
        some [.single .shiftRight ⟨1⟩, .address .sys 0x0E1, .draw ⟨10⟩ ⟨11⟩ 15] := by
  have hSource : statements "SHR V1, V2\nSYS 0x0E1\nDRW VA, VB, 15" =
      .ok ([.single .shiftRight ⟨1⟩, .address .sys 0x0E1, .draw ⟨10⟩ ⟨11⟩ 15].map .instr) :=
    toOption_eq_some_iff.1 (by decide +kernel)
  have hAssemble : assemble "SHR V1, V2\nSYS 0x0E1\nDRW VA, VB, 15" =
      .ok [0x81, 0x06, 0x00, 0xE1, 0xDA, 0xBF] := toOption_eq_some_iff.1 (by decide +kernel)
  exact ⟨hSource, hAssemble, (decodeWords?_of_assemble hSource hAssemble).2.1⟩

/-- Not every instruction is decoded as it was written: what is written as a call to the host may
come back as `CLS`. -/
theorem not_decodeWords?_as_written : ¬∀ (source : String) (is : List Instr) (out : List UInt8),
    statements source = .ok (is.map Statement.instr) → assemble source = .ok out →
      decodeWords? out = some is := by
  intro hAll
  have hSource : statements "SYS 0x0E0" = .ok ([.address .sys 0x0E0].map .instr) :=
    toOption_eq_some_iff.1 (by decide +kernel)
  have hAssemble : assemble "SYS 0x0E0" = .ok [0x00, 0xE0] :=
    toOption_eq_some_iff.1 (by decide +kernel)
  have hDecoded : decodeWords? [0x00, 0xE0] = some [.bare .clear] := rfl
  cases hDecoded.symm.trans (hAll _ _ _ hSource hAssemble)

/-! ## Instructions on labels -/

/-- At an offset of a program stands the word of an instruction on the low twelve bits of an address,
which are the address itself if it has no more. -/
structure EmitsRef (out : List UInt8) (n : Nat) (op : AddressOp) (addr : Nat) : Prop where
  inside : n + opcodeSize ≤ out.length
  word_eq : wordFrom out n = op.word addr
  address_eq : Word.address (wordFrom out n) = addr % 0x1000
  address_eq_iff : Word.address (wordFrom out n) = addr ↔ addr ≤ 0xFFF
  decode_eq : Instr.decode? (wordFrom out n) =
    some (Instr.executed (.address op ((addr % 0x1000 : Nat) : Int)))

theorem address_word (op : AddressOp) (addr : Nat) :
    Word.address (op.word addr) = (addr % 0x1000 : Nat) := by
  obtain ⟨family, hCode, -⟩ := op.exists_family
  rw [op.word_eq_add, hCode, Nat.shiftLeft_eq]
  unfold Word.address
  omega

/-- The low twelve bits of an address are all that its word has of it. -/
theorem word_mod (op : AddressOp) (addr : Nat) :
    op.word ((addr % 0x1000 : Nat) : Int) = op.word addr := by
  have hSame : ((addr % 0x1000 : Nat) : Int) % 0x1000 = (addr : Int) % 0x1000 := by omega
  rw [AddressOp.word, AddressOp.word, hSame]

theorem emitsRef_append (op : AddressOp) (addr : Nat) (front back : List UInt8) :
    EmitsRef (front ++ (wordBytes (op.word addr) ++ back)) front.length op addr := by
  have hWord := wordFrom_append (op.word_lt addr) front back
  refine ⟨length_add_le_append _ front back, hWord, ?_, ?_, ?_⟩
  · rw [hWord, address_word]
    rfl
  · rw [hWord, address_word]
    omega
  · rw [hWord, ← word_mod]
    exact Instr.decode?_address op (by omega) (by omega)

variable {found : List Statement} {l : Layout} {out : List UInt8}

/-- The table has the labels that are defined, each with the address at which it stands. -/
theorem lookup_iff_of_layOut (h : layOut found = .ok l) {name : String} {addr : Int} :
    l.labels.lookup name = some addr ↔
      ∃ j : Nat, found[j]? = some (.label name) ∧ addr = addressAt found j := by
  rw [Layout.lookup_iff_of_foldlM_add h]
  simp [Layout.address, addressAt]

/-- The label that a reference names is defined, and the word of the reference has its address. -/
theorem emitsRef_of_link (hLayOut : layOut found = .ok l) (hLink : l.link = .ok out) {k : Nat}
    {op : AddressOp} {name : String} (hRef : found[k]? = some (.ref op name)) :
    (∃ j : Nat, found[j]? = some (.label name)) ∧
      ∀ j : Nat, found[j]? = some (.label name) →
        EmitsRef out (totalSize (found.take k)) op (addressAt found j) := by
  obtain ⟨addr, front, back, hLookup, rfl, hFront⟩ :=
    Layout.exists_wordBytes_of_link hLayOut rfl hLink hRef
  obtain ⟨i, hLabel, -⟩ := (lookup_iff_of_layOut hLayOut).1 hLookup
  refine ⟨⟨i, hLabel⟩, fun j hOther => ?_⟩
  -- The table has one address for the name, so it is that of every definition of the label.
  have hAddr : addr = addressAt found j :=
    Option.some.inj (hLookup.symm.trans ((lookup_iff_of_layOut hLayOut).2 ⟨j, hOther, rfl⟩))
  have hOffset : totalSize (found.take k) = front.length := by
    rw [hFront]
    exact (Nat.zero_add _).symm
  rw [hOffset, hAddr]
  exact emitsRef_append op _ front back

/-- Each instruction on a label is emitted with the address of that label, cut to twelve bits. -/
theorem emitsRef_of_assemble {source : String} (h : assemble source = .ok out) :
    ∃ found, statements source = .ok found ∧ out.length = totalSize found ∧
      ∀ k op name, found[k]? = some (.ref op name) →
        (∃ j : Nat, found[j]? = some (.label name)) ∧
          ∀ j : Nat, found[j]? = some (.label name) →
            EmitsRef out (totalSize (found.take k)) op (addressAt found j) := by
  obtain ⟨found, hFound, h⟩ := bind_eq_ok_iff.1 h
  obtain ⟨l, hLayOut, hLink⟩ := bind_eq_ok_iff.1 h
  have hLength : out.length = totalSize found := by
    rw [Layout.length_of_link (Layout.measured_of_foldlM_add hLayOut rfl) hLink,
      (Layout.size_of_foldlM_add hLayOut).2]
    exact Nat.zero_add _
  exact ⟨found, hFound, hLength, fun k op name => emitsRef_of_link hLayOut hLink⟩

/-- A jump to itself. -/
theorem emitsRef_of_assemble_self :
    assemble "x: JP x" = .ok [0x12, 0x00] ∧ EmitsRef [0x12, 0x00] 0 .jump 0x200 := by
  have hAssemble : assemble "x: JP x" = .ok [0x12, 0x00] :=
    toOption_eq_some_iff.1 (by decide +kernel)
  have hSource : statements "x: JP x" = .ok [.label "x", .ref .jump "x"] :=
    toOption_eq_some_iff.1 (by decide +kernel)
  obtain ⟨found, hFound, -, hRefs⟩ := emitsRef_of_assemble hAssemble
  rw [hSource] at hFound
  cases hFound
  exact ⟨hAssemble, (hRefs 1 .jump "x" rfl).2 0 rfl⟩

/-! ### A label beyond twelve bits -/

/-- `CLS` a number of times, and then a jump to itself. -/
def farJump (n : Nat) : List Lexeme :=
  List.replicate n ⟨[' '], ['C', 'L', 'S']⟩ ++
    [⟨[' '], ['x']⟩, ⟨[], [':']⟩, ⟨[' '], ['J', 'P']⟩, ⟨[' '], ['x']⟩]

/-- The statements of such a source. -/
def farJumpStatements (n : Nat) : List Statement :=
  List.replicate n (.instr (.bare .clear)) ++ [.label "x", .ref .jump "x"]

theorem wellSpaced_farJump (n : Nat) (before : Option Char) : WellSpaced before (farJump n) := by
  have hSpace : Trivia [' '] := .blank (by decide) .nil
  induction n generalizing before with
  | zero =>
      refine ⟨hSpace, .inr ⟨by decide, ?_⟩, .nil, .inl (by decide), hSpace,
        .inr ⟨by decide, by decide⟩, hSpace, .inr ⟨by decide, by decide⟩, trivial⟩
      show Clear (some ' ')
      decide
  | succ n ih =>
      rw [farJump, List.replicate_succ, List.cons_append]
      refine ⟨hSpace, .inr ⟨by decide, ?_⟩, ih _⟩
      show Clear (some ' ')
      decide

theorem writtenAll_farJump (n : Nat) :
    WrittenAll (farJumpStatements n) ((farJump n).map Lexeme.chars) := by
  have hName : (Part.name "x").Written ['x'] :=
    .name (w := ['x']) ⟨'x', [], rfl, by decide, fun _ hc => nomatch hc⟩
  induction n with
  | zero =>
      show WrittenAll [.label "x", .ref .jump "x"] ([['x'], [':']] ++ ([['J', 'P'], ['x']] ++ []))
      refine .cons ⟨trivial, _, .plain _, ?_⟩ (.cons ⟨trivial, _, .plain _, ?_⟩ .nil)
      · exact .cons hName (.cons (.fixed rfl) .nil)
      · exact .cons (.fixed rfl) (.cons hName .nil)
  | succ n ih =>
      show WrittenAll (.instr (.bare .clear) :: farJumpStatements n)
        ([['C', 'L', 'S']] ++ (farJump n).map Lexeme.chars)
      exact .cons ⟨trivial, _, .plain _, .cons (.fixed rfl) .nil⟩ ih

theorem statements_farJump (n : Nat) :
    statements (String.ofList (textOf (farJump n))) = .ok (farJumpStatements n) := by
  refine statements_of_writtenAll ?_ (wellSpaced_farJump n none) (.inl .nil) (writtenAll_farJump n)
  rw [String.toList_ofList, List.append_nil]

theorem totalSize_replicate (n : Nat) (s : Statement) :
    totalSize (List.replicate n s) = n * s.size := by
  induction n with
  | zero => exact (Nat.zero_mul _).symm
  | succ n ih => rw [List.replicate_succ, totalSize, ih, Nat.succ_mul, Nat.add_comm]

/-- Such a source is laid out and linked, however long it is. -/
theorem exists_link_farJump (n : Nat) :
    ∃ l out, layOut (farJumpStatements n) = .ok l ∧ l.link = .ok out := by
  have hClean : Clean (farJumpStatements n) := by
    constructor
    · simp [farJumpStatements]
    · intro name
      have hCount : (farJumpStatements n).count (.label name) = if "x" = name then 1 else 0 := by
        simp [farJumpStatements, List.count_append, List.count_replicate, List.count_cons]
      rw [hCount]
      split <;> omega
  have hResolves : Resolves (farJumpStatements n) (farJumpStatements n) := by
    intro op name hRef
    have hName : op = .jump ∧ name = "x" := by simpa [farJumpStatements] using hRef
    simp [farJumpStatements, hName.2]
  obtain ⟨l, hLayOut⟩ := Layout.exists_layOut_of_clean
    (fun s hs => .inr ((writtenAll_farJump n).fits s hs)) hClean
  obtain ⟨out, hOut⟩ := Layout.exists_link_of_resolves hLayOut hResolves
  exact ⟨l, out, hLayOut, hOut⟩

/-- The label stands after the instructions, and the jump after the label. -/
theorem getElem?_farJumpStatements (n : Nat) :
    (farJumpStatements n)[n]? = some (.label "x") ∧
      (farJumpStatements n)[n + 1]? = some (.ref .jump "x") := by
  simp [farJumpStatements]

theorem addressAt_farJumpStatements (n : Nat) :
    addressAt (farJumpStatements n) n = romBase + opcodeSize * n := by
  have hSize : (Statement.instr (.bare .clear)).size = opcodeSize := rfl
  rw [addressAt, farJumpStatements, List.take_left' List.length_replicate, totalSize_replicate, hSize,
    Nat.mul_comm]

/-- An instruction on a label is not always emitted with the address of the label, nor is it refused
where it cannot be: after 1792 other instructions a jump to itself becomes a jump to address 0. -/
theorem not_emitted_with_label_address :
    ¬∀ (source : String) (found : List Statement) (out : List UInt8) (k j : Nat) (op : AddressOp)
      (name : String), statements source = .ok found → assemble source = .ok out →
        found[k]? = some (.ref op name) → found[j]? = some (.label name) →
          Word.address (wordFrom out (totalSize (found.take k))) = addressAt found j := by
  intro hAll
  have hSource := statements_farJump 1792
  obtain ⟨l, out, hLayOut, hLink⟩ := exists_link_farJump 1792
  have hAssemble : assemble (String.ofList (textOf (farJump 1792))) = .ok out := by
    rw [assemble, hSource, ok_bind, hLayOut, ok_bind, hLink]
  obtain ⟨hLabel, hRef⟩ := getElem?_farJumpStatements 1792
  have hEmits := (emitsRef_of_link hLayOut hLink hRef).2 1792 hLabel
  -- The label has the first address that does not fit.
  have hFits := hEmits.address_eq_iff.1 (hAll _ _ out _ _ .jump "x" hSource hAssemble hRef hLabel)
  rw [addressAt_farJumpStatements] at hFits
  exact absurd hFits (by decide)

end Chip8.Assembly
