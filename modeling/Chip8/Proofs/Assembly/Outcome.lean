import Chip8.Proofs.Assembly.Account
import Chip8.Proofs.Assembly.Numbers

/-!
# What becomes of a source

A source has a program, or it is refused for one cause.  Which cause this is does not go by its place
in the source alone: numbers that do not fit come before text that cannot be read, then come unknown
lines and labels that are defined again, and at last references to labels that are not defined.
`Refused` says so without a word on how statements are laid out and linked, and
`assemble_outcome_iff` that it is what happens.
-/

namespace Chip8.Assembly

/-! ## Causes in order -/

/-- No line among the statements is unknown, and no label is defined twice. -/
structure Clean (found : List Statement) : Prop where
  known : ∀ line, .unknown line ∉ found
  once : ∀ name, found.count (.label name) ≤ 1

/-- Each label that the statements refer to is defined in `found`. -/
def Resolves (found front : List Statement) : Prop :=
  ∀ op name, .ref op name ∈ front → .label name ∈ found

/-- All numbers that are read in the source fit, and its statements are read as far as `rest`. -/
structure ReadsTo (source : String) (found : List Statement) (rest : List Char) : Prop where
  fit : ∀ field m, ReadsNumber source field m → m.value ≤ field.limit
  read : ∃ stop, readStatements (.start (Text.expandTabs source.toList)) = .ok (found, stop) ∧
    stop.rest = rest

/-- Nothing in the source is a cause to refuse it. -/
def Acceptable (source : String) : Prop :=
  ∃ found, ReadsTo source found [] ∧ Clean found ∧ Resolves found found

/-- The cause for which a source is refused. -/
inductive Refused (source : String) : Error → Prop where
  /-- A number that is read is above the limit of its field.  Reading breaks off there, so it is the
  first. -/
  | number {field : Field} {m : Numeral} (hRead : ReadsNumber source field m)
      (hLarge : field.limit < m.value) : Refused source (.outOfRange field m.value)
  /-- The numbers fit, but the end is not reached. -/
  | text {found : List Statement} {rest : List Char} (hRead : ReadsTo source found rest)
      (hRest : rest ≠ []) :
      Refused source (.unreadable ((Text.expandTabs source.toList).length - rest.length))
  /-- The end is reached, and the first statement at fault is an unknown line. -/
  | command {front back : List Statement} {line : String}
      (hRead : ReadsTo source (front ++ .unknown line :: back) []) (hFront : Clean front) :
      Refused source (.unknownCommand line)
  /-- The end is reached, and the first statement at fault defines a label again. -/
  | again {front back : List Statement} {name : String}
      (hRead : ReadsTo source (front ++ .label name :: back) []) (hFront : Clean front)
      (hName : .label name ∈ front) : Refused source (.duplicateLabel name)
  /-- No statement is at fault by itself, and this is the first reference to a label that is nowhere
  defined. -/
  | undefined {found front back : List Statement} {op : AddressOp} {name : String}
      (hRead : ReadsTo source found []) (hClean : Clean found)
      (hFound : found = front ++ .ref op name :: back) (hFront : Resolves found front)
      (hName : .label name ∉ found) : Refused source (.undefinedLabel name)

/-- Clean statements stay clean with one more that is not at fault. -/
theorem Clean.concat {front : List Statement} {s : Statement} (h : Clean front)
    (hKnown : ∀ line, s ≠ .unknown line) (hNew : ∀ name, s = .label name → .label name ∉ front) :
    Clean (front ++ [s]) where
  known line hLine := by
    rcases List.mem_append.1 hLine with hLine | hLine
    · exact h.known line hLine
    · exact hKnown line (List.mem_singleton.1 hLine).symm
  once name := by
    rw [List.count_append]
    by_cases hName : s = .label name
    · rw [List.count_eq_zero_of_not_mem (hNew name hName), hName, List.count_singleton_self]
    · have hNone : .label name ∉ [s] := fun hLast => hName (List.mem_singleton.1 hLast).symm
      rw [List.count_eq_zero_of_not_mem hNone]
      exact h.once name

/-- Statements are clean, or there is a first that is at fault. -/
theorem clean_or_exists_first (found : List Statement) :
    Clean found ∨ ∃ front s back, found = front ++ s :: back ∧ Clean front ∧
      ((∃ line, s = .unknown line) ∨ ∃ name, s = .label name ∧ .label name ∈ front) := by
  induction found using List.reverseRecOn with
  | nil => exact .inl ⟨fun line => List.not_mem_nil, fun name => Nat.zero_le 1⟩
  | append_singleton front s ih =>
      rcases ih with hClean | ⟨first, t, back, rfl, hFirst⟩
      · by_cases hFault : (∃ line, s = .unknown line) ∨ ∃ name, s = .label name ∧ .label name ∈ front
        · exact .inr ⟨front, s, [], rfl, hClean, hFault⟩
        · obtain ⟨hKnown, hNew⟩ := not_or.1 hFault
          exact .inl (hClean.concat (fun line hLine => hKnown ⟨line, hLine⟩)
            fun name hName hFront => hNew ⟨name, hName, hFront⟩)
      · exact .inr ⟨first, t, back ++ [s], by simp, hFirst⟩

/-- All references are to labels that are defined, or there is a first that is not. -/
theorem resolves_or_exists_first (found front : List Statement) :
    Resolves found front ∨ ∃ first op name back, front = first ++ .ref op name :: back ∧
      Resolves found first ∧ .label name ∉ found := by
  induction front using List.reverseRecOn with
  | nil => exact .inl fun op name hRef => nomatch hRef
  | append_singleton front s ih =>
      rcases ih with hFront | ⟨first, op, name, back, rfl, hFirst⟩
      · by_cases hLast : Resolves found [s]
        · refine .inl fun op name hRef => ?_
          rcases List.mem_append.1 hRef with hRef | hRef
          · exact hFront op name hRef
          · exact hLast op name hRef
        · simp only [Resolves, not_forall] at hLast
          obtain ⟨op, name, hRef, hName⟩ := hLast
          obtain rfl := List.mem_singleton.1 hRef
          exact .inr ⟨front, op, name, [], rfl, hFront, hName⟩
      · exact .inr ⟨first, op, name, back ++ [s], by simp, hFirst⟩

/-! ## Reading -/

theorem statementsOfText_eq_unreadable {text : List Char} {found : List Statement} {stop : Cursor}
    (h : readStatements (.start text) = .ok (found, stop)) (hStop : stop.rest ≠ []) :
    statementsOfText text = .error (.unreadable (text.length - stop.rest.length)) := by
  simp [statementsOfText, h, hStop]

section Source

variable {source : String} {found : List Statement}

/-- A source that is read to its end is assembled from its statements. -/
theorem ReadsTo.assemble_eq (h : ReadsTo source found []) :
    assemble source = layOut found >>= Layout.link := by
  have hFound : statements source = .ok found := statementsOfText_eq_ok_iff.2 h.read
  rw [assemble, hFound, ok_bind]

/-- Of the statements that are read each is an unknown line, or its operands fit. -/
theorem ReadsTo.fits {rest : List Char} (h : ReadsTo source found rest) :
    ∀ s ∈ found, (∃ line, s = .unknown line) ∨ s.Fits := by
  obtain ⟨stop, hRead, -⟩ := h.read
  exact fits_of_readStatements hRead

/-- The numbers of a source that does not break off fit. -/
theorem readsTo_of_readStatements {stop : Cursor}
    (hDigits : ∀ field m, ReadsNumber source field m → m.Convertible)
    (h : readStatements (.start (Text.expandTabs source.toList)) = .ok (found, stop)) :
    ReadsTo source found stop.rest where
  fit field m hRead := by
    by_contra hLarge
    have hError := (hDigits field m hRead).inField_eq_error_iff.2 ⟨Nat.not_le.1 hLarge, rfl⟩
    rw [readStatements_eq_error_iff.2 ⟨field, m, hRead, hError⟩] at h
    cases h
  read := ⟨stop, h, rfl⟩

end Source

/-! ## Laying out -/

theorem Statement.eq_ref_of_mem_pieces? {s : Statement} {ps : List Piece} {op : AddressOp}
    {name : String} (h : s.pieces? = some ps) (hRef : .ref op name ∈ ps) : s = .ref op name := by
  cases s with
  | label other =>
      cases h
      cases hRef
  | ref other label =>
      cases h
      cases List.mem_singleton.1 hRef
      rfl
  | unknown line => cases h
  | instr | bytes | words =>
      obtain ⟨data, -, rfl⟩ := Option.map_eq_some_iff.1 h
      cases List.mem_singleton.1 hRef

namespace Layout

variable {l final : Layout} {found : List Statement}

/-- A statement that fits is laid out, unless its label is there already. -/
theorem exists_add_of_fits {s : Statement} (hFits : s.Fits)
    (hFresh : ∀ name, s = .label name → l.labels.lookup name = none) :
    ∃ next, l.add s = .ok next := by
  cases s with
  | label name => exact ⟨_, by rw [add, label, hFresh name rfl]⟩
  | instr i =>
      obtain ⟨hLow, hHigh⟩ := Instr.Fits.encode_bounds hFits
      exact ⟨_, by rw [add, instr, wordBytes?_eq_some_iff.2 ⟨hLow, hHigh, rfl⟩]⟩
  | ref op name => exact ⟨_, rfl⟩
  | bytes values =>
      have hAll : ∀ n ∈ values, ∃ b, Bits.byte? n = some b := fun n hn =>
        ⟨_, if_pos (hFits.2 n hn)⟩
      obtain ⟨data, hData⟩ := exists_forall₂ hAll
      exact ⟨_, by rw [add, bytes, mapM_eq_some_iff.2 hData]⟩
  | words values =>
      have hAll : ∀ n ∈ values, ∃ w, wordBytes? n = some w := fun n hn =>
        ⟨_, if_pos (hFits.2 n hn)⟩
      obtain ⟨data, hData⟩ := exists_forall₂ hAll
      exact ⟨_, by rw [add, words, mapM_eq_some_iff.2 hData]⟩
  | unknown line => exact absurd hFits id

/-- Statements that fit are laid out, if their labels are new and each is defined once. -/
theorem exists_foldlM_add_of_fits (hFits : ∀ s ∈ found, s.Fits)
    (hOnce : ∀ name, found.count (.label name) ≤ 1)
    (hFresh : ∀ name, .label name ∈ found → l.labels.lookup name = none) :
    ∃ final, found.foldlM add l = .ok final := by
  induction found generalizing l with
  | nil => exact ⟨l, rfl⟩
  | cons s found ih =>
      obtain ⟨hFirst, hRest⟩ := List.forall_mem_cons.1 hFits
      obtain ⟨next, hStep⟩ := exists_add_of_fits hFirst fun name hName =>
        hFresh name (hName ▸ List.mem_cons_self)
      have hOthers : ∀ name, found.count (.label name) ≤ 1 := fun name =>
        Nat.le_trans (List.count_le_count_cons) (hOnce name)
      obtain ⟨final, hFinal⟩ := ih hRest hOthers (l := next) fun name hName => by
        refine Option.eq_none_iff_forall_ne_some.2 fun addr hLookup => ?_
        rcases (adds_of_add hStep).lookup_iff.1 hLookup with hOld | ⟨rfl, -⟩
        · rw [hFresh name (List.mem_cons_of_mem s hName)] at hOld
          cases hOld
        · -- The label of this statement would be defined once more.
          have hCount := hOnce name
          have hPos := List.count_pos_iff.2 hName
          rw [List.count_cons_self] at hCount
          omega
      exact ⟨final, by rw [List.foldlM_cons, hStep, ok_bind, hFinal]⟩

/-- Clean statements are laid out. -/
theorem exists_layOut_of_clean (hFits : ∀ s ∈ found, (∃ line, s = .unknown line) ∨ s.Fits)
    (hClean : Clean found) : ∃ final, layOut found = .ok final := by
  refine exists_foldlM_add_of_fits (fun s hs => ?_) hClean.once fun name _ => rfl
  rcases hFits s hs with ⟨line, rfl⟩ | hs
  · exact absurd hs (hClean.known line)
  · exact hs

/-- The labels in the table are those that are defined. -/
theorem exists_lookup_iff_of_layOut (h : layOut found = .ok final) {name : String} :
    (∃ addr, final.labels.lookup name = some addr) ↔ .label name ∈ found := by
  have hLookup : ∀ addr, final.labels.lookup name = some addr ↔ _ := fun addr =>
    lookup_iff_of_foldlM_add h
  constructor
  · rintro ⟨addr, hAddr⟩
    rcases (hLookup addr).1 hAddr with hNone | ⟨k, hAt, -⟩
    · cases hNone
    · exact List.mem_of_getElem? hAt
  · intro hName
    obtain ⟨k, hAt⟩ := List.mem_iff_getElem?.1 hName
    exact ⟨_, (hLookup _).2 (.inr ⟨k, hAt, rfl⟩)⟩

/-- Laying out fails at the first statement that fails. -/
theorem layOut_eq_error {front back : List Statement} {s : Statement} {mid : Layout} {e : Error}
    (hFront : layOut front = .ok mid) (hError : mid.add s = .error e) :
    layOut (front ++ s :: back) = .error e := by
  rw [layOut, List.foldlM_append]
  show (layOut front >>= _) = _
  rw [hFront, ok_bind, List.foldlM_cons, hError, error_bind]

/-! ## Linking -/

/-- The references that are placed are those of the statements. -/
theorem ref_mem_of_foldlM_add {op : AddressOp} {name : String}
    (h : found.foldlM add l = .ok final) (hRef : .ref op name ∈ final.pieces.toList) :
    .ref op name ∈ l.pieces.toList ∨ .ref op name ∈ found := by
  induction found generalizing l with
  | nil =>
      cases h
      exact .inl hRef
  | cons s found ih =>
      rw [List.foldlM_cons] at h
      obtain ⟨next, hStep, hRest⟩ := bind_eq_ok_iff.1 h
      obtain ⟨ps, hPieces, hNext⟩ := (adds_of_add hStep).pieces_eq
      rcases ih hRest with hOld | hLater
      · rw [hNext] at hOld
        rcases List.mem_append.1 hOld with hOld | hOwn
        · exact .inl hOld
        · exact .inr (Statement.eq_ref_of_mem_pieces? hPieces hOwn ▸ List.mem_cons_self)
      · exact .inr (List.mem_cons_of_mem s hLater)

/-- A reference to a known label takes the bytes of its opcode, which is a word wherever the label
lies. -/
theorem exists_pieceBytes_ref (op : AddressOp) {name : String} {addr : Int}
    (h : l.resolve name = .ok addr) :
    ∃ data, wordBytes? (Instr.address op addr).encode = some data ∧
      l.pieceBytes (.ref op name) = .ok data := by
  have hWord := op.word_lt addr
  refine ⟨wordBytes (op.word addr), wordBytes?_eq_some_iff.2 ⟨?_, ?_, rfl⟩, ?_⟩
  · exact Int.natCast_nonneg _
  · simp only [Instr.encode]
    omega
  · rw [pieceBytes, h, ok_bind, pure_eq_ok]

/-- Pieces are linked if the labels that they refer to are known. -/
theorem exists_mapM_pieceBytes {ps : List Piece}
    (h : ∀ op name, .ref op name ∈ ps → ∃ addr, l.labels.lookup name = some addr) :
    ∃ blocks, ps.mapM l.pieceBytes = .ok blocks := by
  have hAll : ∀ p ∈ ps, ∃ data, l.pieceBytes p = .ok data := by
    intro p hp
    cases p with
    | bytes data => exact ⟨data, rfl⟩
    | ref op name =>
        obtain ⟨addr, hAddr⟩ := h op name hp
        obtain ⟨data, -, hData⟩ := exists_pieceBytes_ref op (resolve_eq_ok_iff.2 hAddr)
        exact ⟨data, hData⟩
  obtain ⟨blocks, hBlocks⟩ := exists_forall₂ hAll
  exact ⟨blocks, mapM_eq_ok_iff.2 hBlocks⟩

/-- Statements are linked as far as the labels that they refer to are defined. -/
theorem exists_mapM_pieceBytes_of_resolves {front : List Statement} {mid : Layout}
    (h : layOut found = .ok final) (hMid : layOut front = .ok mid) (hFront : Resolves found front) :
    ∃ blocks, mid.pieces.toList.mapM final.pieceBytes = .ok blocks := by
  refine exists_mapM_pieceBytes fun op name hRef => ?_
  rcases ref_mem_of_foldlM_add hMid hRef with hNone | hRef
  · cases hNone
  · exact (exists_lookup_iff_of_layOut h).2 (hFront op name hRef)

theorem exists_link_of_resolves (h : layOut found = .ok final) (hResolves : Resolves found found) :
    ∃ out, final.link = .ok out := by
  obtain ⟨blocks, hBlocks⟩ := exists_mapM_pieceBytes_of_resolves h h hResolves
  exact ⟨blocks.flatten, by rw [link, hBlocks, ok_bind, pure_eq_ok]⟩

/-- Linking fails at the first reference to a label that is not defined. -/
theorem link_eq_undefined {front back : List Statement} {op : AddressOp} {name : String}
    (h : layOut found = .ok final) (hFound : found = front ++ .ref op name :: back)
    (hFront : Resolves found front) (hName : .label name ∉ found) :
    final.link = .error (.undefinedLabel name) := by
  have hParts := h
  rw [hFound, layOut, List.foldlM_append] at hParts
  obtain ⟨mid, hMid, hParts⟩ := bind_eq_ok_iff.1 hParts
  rw [List.foldlM_cons] at hParts
  obtain ⟨next, hStep, hRest⟩ := bind_eq_ok_iff.1 hParts
  cases hStep
  obtain ⟨others, hFinal⟩ := pieces_of_foldlM_add hRest
  rw [push, Array.toList_push, List.append_assoc] at hFinal
  -- The references before this one are filled in.
  obtain ⟨blocks, hBlocks⟩ := exists_mapM_pieceBytes_of_resolves h hMid hFront
  have hNone : final.labels.lookup name = none := by
    refine Option.eq_none_iff_forall_ne_some.2 fun addr hAddr => ?_
    exact hName ((exists_lookup_iff_of_layOut h).1 ⟨addr, hAddr⟩)
  have hRef : final.pieceBytes (.ref op name) = .error (.undefinedLabel name) := by
    rw [pieceBytes, resolve, hNone, error_bind]
  rw [link, hFinal, List.mapM_append, hBlocks, ok_bind, List.singleton_append, List.mapM_cons, hRef]
  rfl

end Layout

/-! ## Sources -/

section Outcome

variable {source : String} {e : Error}

/-- A source with nothing to refuse it for has a program. -/
theorem Acceptable.exists_assemble (h : Acceptable source) : ∃ out, assemble source = .ok out := by
  obtain ⟨found, hRead, hClean, hResolves⟩ := h
  obtain ⟨final, hFinal⟩ := Layout.exists_layOut_of_clean hRead.fits hClean
  obtain ⟨out, hOut⟩ := Layout.exists_link_of_resolves hFinal hResolves
  exact ⟨out, by rw [hRead.assemble_eq, hFinal, ok_bind, hOut]⟩

/-- The statements before one that is at fault are laid out. -/
theorem ReadsTo.exists_layOut_front {front back : List Statement} {s : Statement}
    (h : ReadsTo source (front ++ s :: back) []) (hFront : Clean front) :
    ∃ mid, layOut front = .ok mid :=
  Layout.exists_layOut_of_clean (fun t ht => h.fits t (List.mem_append_left _ ht)) hFront

/-- A source that is refused for a cause fails with it. -/
theorem Refused.assemble_eq (hDigits : ∀ field m, ReadsNumber source field m → m.Convertible)
    (h : Refused source e) : assemble source = .error e := by
  cases h with
  | @number field m hRead hLarge =>
      have hError := (hDigits field m hRead).inField_eq_error_iff.2 ⟨hLarge, rfl⟩
      have hReading := readStatements_eq_error_iff.2 ⟨field, m, hRead, hError⟩
      rw [assemble, statements, statementsOfText, hReading, error_bind, error_bind]
  | text hRead hRest =>
      obtain ⟨stop, hReading, rfl⟩ := hRead.read
      rw [assemble, statements, statementsOfText_eq_unreadable hReading hRest, error_bind]
  | @command front back line hRead hFront =>
      obtain ⟨mid, hMid⟩ := hRead.exists_layOut_front hFront
      rw [hRead.assemble_eq, Layout.layOut_eq_error hMid rfl, error_bind]
  | @again front back name hRead hFront hName =>
      obtain ⟨mid, hMid⟩ := hRead.exists_layOut_front hFront
      obtain ⟨addr, hAddr⟩ := (Layout.exists_lookup_iff_of_layOut hMid).2 hName
      have hError : mid.add (.label name) = .error (.duplicateLabel name) := by
        rw [Layout.add, Layout.label, hAddr]
      rw [hRead.assemble_eq, Layout.layOut_eq_error hMid hError, error_bind]
  | undefined hRead hClean hFound hFront hName =>
      obtain ⟨final, hFinal⟩ := Layout.exists_layOut_of_clean hRead.fits hClean
      rw [hRead.assemble_eq, hFinal, ok_bind, Layout.link_eq_undefined hFinal hFound hFront hName]

/-- Each source is acceptable, or there is a cause to refuse it. -/
theorem acceptable_or_refused
    (hDigits : ∀ field m, ReadsNumber source field m → m.Convertible) :
    Acceptable source ∨ ∃ e, Refused source e := by
  cases hReading : readStatements (.start (Text.expandTabs source.toList)) with
  | error e =>
      obtain ⟨field, m, hRead, hError⟩ := readStatements_eq_error_iff.1 hReading
      obtain ⟨hLarge, rfl⟩ := (hDigits field m hRead).inField_eq_error_iff.1 hError
      exact .inr ⟨_, .number hRead hLarge⟩
  | ok reading =>
      obtain ⟨found, stop⟩ := reading
      have hRead := readsTo_of_readStatements hDigits hReading
      by_cases hEnd : stop.rest = []
      · rw [hEnd] at hRead
        rcases clean_or_exists_first found with hClean | ⟨front, s, back, rfl, hFront, hFault⟩
        · rcases resolves_or_exists_first found found with
            hResolves | ⟨front, op, name, back, hFound, hFront, hName⟩
          · exact .inl ⟨found, hRead, hClean, hResolves⟩
          · exact .inr ⟨_, .undefined hRead hClean hFound hFront hName⟩
        · rcases hFault with ⟨line, rfl⟩ | ⟨name, rfl, hName⟩
          · exact .inr ⟨_, .command hRead hFront⟩
          · exact .inr ⟨_, .again hRead hFront hName⟩
      · exact .inr ⟨_, .text hRead hEnd⟩

/-- A source whose numerals can be converted has a program exactly if it is acceptable, and fails
with an error exactly if it is refused for this cause.  No value and no opcode is ever too large for
its place, not even that of a reference, wherever its label lies. -/
theorem assemble_outcome_iff
    (hDigits : ∀ field m, ReadsNumber source field m → m.Convertible) :
    ((∃ out, assemble source = .ok out) ↔ Acceptable source) ∧
      (∀ e, assemble source = .error e ↔ Refused source e) ∧
        (∀ e, assemble source = .error e → e ≠ .notByte ∧ e ≠ .notWord) ∧
          ∀ (l : Layout) (op : AddressOp) (name : String) (addr : Int), l.resolve name = .ok addr →
            ∃ data, wordBytes? (Instr.address op addr).encode = some data ∧
              l.pieceBytes (.ref op name) = .ok data := by
  have hRefused : ∀ e, assemble source = .error e ↔ Refused source e := by
    refine fun e => ⟨fun h => ?_, fun h => h.assemble_eq hDigits⟩
    rcases acceptable_or_refused hDigits with hAcceptable | ⟨cause, hCause⟩
    · obtain ⟨out, hOut⟩ := hAcceptable.exists_assemble
      rw [hOut] at h
      cases h
    · rw [hCause.assemble_eq hDigits] at h
      cases h
      exact hCause
  refine ⟨⟨fun ⟨out, hOut⟩ => ?_, Acceptable.exists_assemble⟩, hRefused, fun e h => ?_,
    fun l op name addr => Layout.exists_pieceBytes_ref op⟩
  · rcases acceptable_or_refused hDigits with hAcceptable | ⟨cause, hCause⟩
    · exact hAcceptable
    · rw [hCause.assemble_eq hDigits] at hOut
      cases hOut
  · cases (hRefused e).1 h <;> exact ⟨Error.noConfusion, Error.noConfusion⟩

/-- A number at the end of a source comes before a label that is defined again, an unknown line and a
label that is not defined. -/
theorem assemble_outcome_iff_number_last :
    (∀ field m, ReadsNumber "x: x: JP y\nMOV 1\nDB 300" field m → m.Convertible) ∧
      Refused "x: x: JP y\nMOV 1\nDB 300" (.outOfRange .byte 300) ∧
        ¬ Acceptable "x: x: JP y\nMOV 1\nDB 300" := by
  have hDigits : ∀ field m, ReadsNumber "x: x: JP y\nMOV 1\nDB 300" field m → m.Convertible :=
    fun field m => convertible_of_readsNumber (by decide)
  obtain ⟨hOk, hError, -⟩ := assemble_outcome_iff hDigits
  have hFails : assemble "x: x: JP y\nMOV 1\nDB 300" = .error (.outOfRange .byte 300) := by
    decide +kernel
  refine ⟨hDigits, (hError _).1 hFails, fun hAcceptable => ?_⟩
  obtain ⟨out, hOut⟩ := hOk.2 hAcceptable
  rw [hFails] at hOut
  cases hOut

end Outcome

end Chip8.Assembly
