import Chip8.Assembly.Layout
import Chip8.Proofs.Sequencing

/-!
# What laying out statements does

The first pass places statements without knowing the addresses of all labels, the second turns what
was placed into bytes.  `Layout.Adds` says what one statement adds to a layout.  From it follow, by
induction over the statements, where each of them is placed, that the sizes of the first pass are
the lengths of the second, and that the table of labels only grows.
-/

namespace Chip8.Assembly

/-! ## Words as bytes -/

theorem wordBytes?_eq_some_iff {n : Int} {data : List UInt8} :
    wordBytes? n = some data ↔ 0 ≤ n ∧ n ≤ 0xFFFF ∧ data = wordBytes n.toNat := by
  unfold wordBytes?
  split
  · next h =>
      constructor
      · intro hSome
        cases hSome
        exact ⟨h.1, h.2, rfl⟩
      · rintro ⟨-, -, rfl⟩
        rfl
  · next h =>
      constructor
      · intro hSome
        cases hSome
      · rintro ⟨hLow, hHigh, -⟩
        exact absurd ⟨hLow, hHigh⟩ h

theorem length_wordBytes (w : Nat) : (wordBytes w).length = opcodeSize := rfl

/-! ## Placing a statement -/

/-- The number of bytes of the statement's image. -/
def Statement.size : Statement → Nat
  | .label _ => 0
  | .instr _ => opcodeSize
  | .ref _ _ => opcodeSize
  | .bytes values => values.length
  | .words values => opcodeSize * values.length
  | .unknown _ => 0

/-- The number of bytes of the images of all statements. -/
def totalSize : List Statement → Nat
  | [] => 0
  | s :: found => s.size + totalSize found

theorem totalSize_append (front back : List Statement) :
    totalSize (front ++ back) = totalSize front + totalSize back := by
  induction front with
  | nil => exact (Nat.zero_add _).symm
  | cons s front ih => rw [List.cons_append, totalSize, totalSize, ih, Nat.add_assoc]

theorem totalSize_take_le (found : List Statement) (k : Nat) :
    totalSize (found.take k) ≤ totalSize found := by
  have hParts := totalSize_append (found.take k) (found.drop k)
  rw [List.take_append_drop] at hParts
  omega

/-- The labels that the statement defines at an address. -/
def Statement.definitions : Statement → Int → List (String × Int)
  | .label name, addr => [(name, addr)]
  | _, _ => []

/-- The number of bytes of all pieces. -/
def piecesSize : List Piece → Nat
  | [] => 0
  | p :: ps => p.size + piecesSize ps

theorem piecesSize_append (front back : List Piece) :
    piecesSize (front ++ back) = piecesSize front + piecesSize back := by
  induction front with
  | nil => exact (Nat.zero_add _).symm
  | cons p front ih => rw [List.cons_append, piecesSize, piecesSize, ih, Nat.add_assoc]

/-- What is placed for the statement, unless it cannot be. -/
def Statement.pieces? : Statement → Option (List Piece)
  | .label _ => some []
  | .instr i => (wordBytes? i.encode).map fun data => [.bytes data]
  | .ref op name => some [.ref op name]
  | .bytes values => (values.mapM Bits.byte?).map fun data => [.bytes data]
  | .words values => (values.mapM wordBytes?).map fun data => [.bytes data.flatten]
  | .unknown _ => none

theorem length_flatten_of_wordBytes? {values : List Int} {data : List (List UInt8)}
    (h : List.Forall₂ (fun n word => wordBytes? n = some word) values data) :
    data.flatten.length = opcodeSize * values.length := by
  induction h with
  | nil => rfl
  | cons hFirst hRest ih =>
      obtain ⟨-, -, rfl⟩ := wordBytes?_eq_some_iff.1 hFirst
      rw [List.flatten_cons, List.length_append, ih, length_wordBytes, List.length_cons,
        Nat.mul_succ, Nat.add_comm]

/-- The pieces of a statement take as many bytes as the statement is said to. -/
theorem Statement.size_eq_of_pieces? {s : Statement} {ps : List Piece} (h : s.pieces? = some ps) :
    s.size = piecesSize ps := by
  cases s with
  | label name =>
      cases h
      rfl
  | instr i =>
      obtain ⟨data, hData, rfl⟩ := Option.map_eq_some_iff.1 h
      obtain ⟨-, -, rfl⟩ := wordBytes?_eq_some_iff.1 hData
      rfl
  | ref op name =>
      cases h
      rfl
  | bytes values =>
      obtain ⟨data, hData, rfl⟩ := Option.map_eq_some_iff.1 h
      exact (mapM_eq_some_iff.1 hData).length_eq
  | words values =>
      obtain ⟨data, hData, rfl⟩ := Option.map_eq_some_iff.1 h
      exact (length_flatten_of_wordBytes? (mapM_eq_some_iff.1 hData)).symm
  | unknown line => cases h

namespace Layout

variable {l next final : Layout} {s : Statement} {found : List Statement}

/-- What a statement adds to a layout. -/
structure Adds (l : Layout) (s : Statement) (next : Layout) : Prop where
  base_eq : next.base = l.base
  size_eq : next.size = l.size + s.size
  labels_eq : next.labels = s.definitions l.address ++ l.labels
  pieces_eq : ∃ ps, s.pieces? = some ps ∧ next.pieces.toList = l.pieces.toList ++ ps
  fresh : ∀ name, s = .label name → l.labels.lookup name = none

theorem adds_push {p : Piece} (hPieces : s.pieces? = some [p])
    (hDefinitions : s.definitions = fun _ => []) : l.Adds s (l.push p) where
  base_eq := rfl
  size_eq := by
    rw [Statement.size_eq_of_pieces? hPieces]
    rfl
  labels_eq := by
    rw [hDefinitions]
    rfl
  pieces_eq := ⟨[p], hPieces, Array.toList_push⟩
  fresh name hLabel := by
    rw [hLabel] at hDefinitions
    exact absurd (congrFun hDefinitions 0) (List.cons_ne_nil _ _)

/-- A statement that is laid out adds its pieces or its label, and nothing else. -/
theorem adds_of_add (h : l.add s = .ok next) : l.Adds s next := by
  cases s with
  | label name =>
      simp only [add, label] at h
      split at h
      · cases h
      · next hFresh =>
          cases h
          refine ⟨rfl, rfl, rfl, ⟨[], rfl, (List.append_nil _).symm⟩, ?_⟩
          intro other hOther
          cases hOther
          exact hFresh
  | instr i =>
      simp only [add, instr] at h
      split at h
      · next data hData =>
          cases h
          exact adds_push (congrArg (Option.map _) hData) rfl
      · cases h
  | ref op name =>
      cases h
      exact adds_push rfl rfl
  | bytes values =>
      simp only [add, bytes] at h
      split at h
      · next data hData =>
          cases h
          exact adds_push (congrArg (Option.map _) hData) rfl
      · cases h
  | words values =>
      simp only [add, words] at h
      split at h
      · next data hData =>
          cases h
          exact adds_push (congrArg (Option.map _) hData) rfl
      · cases h
  | unknown line => cases h

/-! ## Placing statements in order -/

/-- The sizes of statements add up to the size of their layout. -/
theorem size_of_foldlM_add (h : found.foldlM add l = .ok final) :
    final.base = l.base ∧ final.size = l.size + totalSize found := by
  induction found generalizing l with
  | nil =>
      cases h
      exact ⟨rfl, rfl⟩
  | cons s found ih =>
      rw [List.foldlM_cons] at h
      obtain ⟨next, hStep, hRest⟩ := bind_eq_ok_iff.1 h
      have hAdds := adds_of_add hStep
      obtain ⟨hBase, hSize⟩ := ih hRest
      rw [hBase, hSize, hAdds.base_eq, hAdds.size_eq, totalSize]
      exact ⟨rfl, Nat.add_assoc _ _ _⟩

/-- What is placed stays in place. -/
theorem pieces_of_foldlM_add (h : found.foldlM add l = .ok final) :
    ∃ ps, final.pieces.toList = l.pieces.toList ++ ps := by
  induction found generalizing l with
  | nil =>
      cases h
      exact ⟨[], (List.append_nil _).symm⟩
  | cons s found ih =>
      rw [List.foldlM_cons] at h
      obtain ⟨next, hStep, hRest⟩ := bind_eq_ok_iff.1 h
      obtain ⟨ps, -, hNext⟩ := (adds_of_add hStep).pieces_eq
      obtain ⟨others, hFinal⟩ := ih hRest
      exact ⟨ps ++ others, by rw [hFinal, hNext, List.append_assoc]⟩

/-- No unknown line is laid out. -/
theorem unknown_notMem_of_foldlM_add (h : found.foldlM add l = .ok final) (line : String) :
    .unknown line ∉ found := by
  induction found generalizing l with
  | nil => exact List.not_mem_nil
  | cons s found ih =>
      rw [List.foldlM_cons] at h
      obtain ⟨next, hStep, hRest⟩ := bind_eq_ok_iff.1 h
      rw [List.mem_cons, not_or]
      refine ⟨?_, ih hRest⟩
      rintro rfl
      cases hStep

/-- Laying out splits at each statement into what is before it, itself, and what is after it. -/
theorem exists_adds_of_foldlM_add (h : found.foldlM add l = .ok final) {k : Nat}
    (hAt : found[k]? = some s) :
    ∃ before after, (found.take k).foldlM add l = .ok before ∧ before.Adds s after ∧
      (found.drop (k + 1)).foldlM add after = .ok final := by
  obtain ⟨hk, rfl⟩ := List.getElem?_eq_some_iff.1 hAt
  rw [← List.take_append_drop k found, List.foldlM_append, List.drop_eq_getElem_cons hk] at h
  obtain ⟨before, hBefore, h⟩ := bind_eq_ok_iff.1 h
  rw [List.foldlM_cons] at h
  obtain ⟨after, hStep, hAfter⟩ := bind_eq_ok_iff.1 h
  exact ⟨before, after, hBefore, adds_of_add hStep, hAfter⟩

/-! ## Labels -/

/-- The labels after a statement are those before it and the one that it defines. -/
theorem Adds.lookup_iff (h : l.Adds s next) {name : String} {addr : Int} :
    next.labels.lookup name = some addr ↔
      l.labels.lookup name = some addr ∨ s = .label name ∧ addr = l.address := by
  rw [h.labels_eq]
  cases s with
  | label other =>
      rw [Statement.definitions, List.cons_append, List.nil_append]
      by_cases hName : name = other
      · subst hName
        rw [List.lookup_cons_self, h.fresh name rfl]
        simp [eq_comm]
      · rw [List.lookup_cons, beq_false_of_ne hName]
        simp [Ne.symm hName]
  | _ => simp [Statement.definitions]

/-- The table of labels holds those of the start, and each label that a statement defines with the
address after all statements before that one. -/
theorem lookup_iff_of_foldlM_add (h : found.foldlM add l = .ok final) {name : String} {addr : Int} :
    final.labels.lookup name = some addr ↔
      l.labels.lookup name = some addr ∨
        ∃ k, found[k]? = some (.label name) ∧ addr = l.address + totalSize (found.take k) := by
  induction found generalizing l with
  | nil =>
      cases h
      simp
  | cons s found ih =>
      rw [List.foldlM_cons] at h
      obtain ⟨next, hStep, hRest⟩ := bind_eq_ok_iff.1 h
      have hAdds := adds_of_add hStep
      -- A label of the rest is one statement further on, and its address by the size of `s`.
      have hAddress : next.address = l.address + s.size := by
        unfold address
        rw [hAdds.base_eq, hAdds.size_eq]
        omega
      rw [ih hRest, hAdds.lookup_iff, hAddress, or_assoc]
      refine or_congr Iff.rfl ⟨?_, ?_⟩
      · rintro (⟨rfl, rfl⟩ | ⟨k, hAt, rfl⟩)
        · exact ⟨0, rfl, (Int.add_zero _).symm⟩
        · refine ⟨k + 1, hAt, ?_⟩
          rw [List.take_succ_cons, totalSize]
          omega
      · rintro ⟨k, hAt, rfl⟩
        cases k with
        | zero => exact .inl ⟨Option.some.inj hAt, Int.add_zero _⟩
        | succ k =>
            refine .inr ⟨k, hAt, ?_⟩
            rw [List.take_succ_cons, totalSize]
            omega

theorem resolve_eq_ok_iff {name : String} {addr : Int} :
    l.resolve name = .ok addr ↔ l.labels.lookup name = some addr := by
  unfold resolve
  split
  · next known hKnown => simp [hKnown]
  · next hUnknown => simp [hUnknown]

/-! ## The second pass -/

theorem length_of_pieceBytes {p : Piece} {data : List UInt8} (h : final.pieceBytes p = .ok data) :
    data.length = p.size := by
  cases p with
  | bytes known =>
      cases h
      rfl
  | ref op name =>
      obtain ⟨addr, -, hData⟩ := bind_eq_ok_iff.1 h
      cases hData
      rfl

theorem pieceBytes_of_mapM_singleton {p : Piece} {blocks : List (List UInt8)}
    (h : [p].mapM final.pieceBytes = .ok blocks) : final.pieceBytes p = .ok blocks.flatten := by
  obtain ⟨data, others, hData, hOthers, rfl⟩ := List.forall₂_cons_left_iff.1 (mapM_eq_ok_iff.1 h)
  cases hOthers
  rw [hData, List.flatten_singleton]

/-- The bytes of pieces are as many as the first pass counts. -/
theorem length_flatten_of_pieceBytes {ps : List Piece} {blocks : List (List UInt8)}
    (h : List.Forall₂ (fun p data => final.pieceBytes p = .ok data) ps blocks) :
    blocks.flatten.length = piecesSize ps := by
  induction h with
  | nil => rfl
  | cons hFirst hRest ih =>
      rw [List.flatten_cons, List.length_append, length_of_pieceBytes hFirst, ih, piecesSize]

/-- A layout counts the bytes of its pieces. -/
def Measured (l : Layout) : Prop := l.size = piecesSize l.pieces.toList

theorem Adds.measured (h : l.Adds s next) (hMeasured : l.Measured) : next.Measured := by
  obtain ⟨ps, hPieces, hNext⟩ := h.pieces_eq
  rw [Measured, h.size_eq, hNext, piecesSize_append, hMeasured, Statement.size_eq_of_pieces? hPieces]

theorem measured_of_foldlM_add (h : found.foldlM add l = .ok final) (hMeasured : l.Measured) :
    final.Measured := by
  induction found generalizing l with
  | nil =>
      cases h
      exact hMeasured
  | cons s found ih =>
      rw [List.foldlM_cons] at h
      obtain ⟨next, hStep, hRest⟩ := bind_eq_ok_iff.1 h
      exact ih hRest ((adds_of_add hStep).measured hMeasured)

/-- The output has as many bytes as the layout counts. -/
theorem length_of_link {out : List UInt8} (hMeasured : final.Measured) (h : final.link = .ok out) :
    out.length = final.size := by
  obtain ⟨blocks, hBlocks, hOut⟩ := bind_eq_ok_iff.1 h
  cases hOut
  rw [length_flatten_of_pieceBytes (mapM_eq_ok_iff.1 hBlocks), hMeasured]

/-- In the output the bytes of the pieces of each statement stand where the first pass put them. -/
theorem exists_bytes_of_link {out : List UInt8} (h : found.foldlM add l = .ok final)
    (hMeasured : l.Measured) (hLink : final.link = .ok out) {k : Nat} (hAt : found[k]? = some s) :
    ∃ ps blocks front back, s.pieces? = some ps ∧ ps.mapM final.pieceBytes = .ok blocks ∧
      out = front ++ (blocks.flatten ++ back) ∧ front.length = l.size + totalSize (found.take k) := by
  obtain ⟨before, after, hBefore, hAdds, hAfter⟩ := exists_adds_of_foldlM_add h hAt
  obtain ⟨ps, hPieces, hPlaced⟩ := hAdds.pieces_eq
  obtain ⟨others, hFinal⟩ := pieces_of_foldlM_add hAfter
  obtain ⟨all, hAll, hOut⟩ := bind_eq_ok_iff.1 hLink
  cases hOut
  -- The pieces are linked in three groups: before the statement, its own, and after it.
  rw [hFinal, hPlaced, List.mapM_append, List.mapM_append] at hAll
  obtain ⟨inner, hInner, hAll⟩ := bind_eq_ok_iff.1 hAll
  obtain ⟨front, hFront, hInner⟩ := bind_eq_ok_iff.1 hInner
  obtain ⟨blocks, hBlocks, hInner⟩ := bind_eq_ok_iff.1 hInner
  obtain ⟨back, -, hAll⟩ := bind_eq_ok_iff.1 hAll
  cases hInner
  cases hAll
  refine ⟨ps, blocks, front.flatten, back.flatten, hPieces, hBlocks, ?_, ?_⟩
  · rw [List.flatten_append, List.flatten_append, List.append_assoc]
  · have hSize := (size_of_foldlM_add hBefore).2
    rw [length_flatten_of_pieceBytes (mapM_eq_ok_iff.1 hFront), ← hSize]
    exact (measured_of_foldlM_add hBefore hMeasured).symm

/-- In the output the word of each reference stands where the first pass left room for it. -/
theorem exists_wordBytes_of_link {out : List UInt8} {op : AddressOp} {name : String}
    (h : found.foldlM add l = .ok final) (hMeasured : l.Measured) (hLink : final.link = .ok out)
    {k : Nat} (hAt : found[k]? = some (.ref op name)) :
    ∃ addr front back, final.labels.lookup name = some addr ∧
      out = front ++ (wordBytes (op.word addr) ++ back) ∧
        front.length = l.size + totalSize (found.take k) := by
  obtain ⟨ps, blocks, front, back, hPieces, hBlocks, hOut, hFront⟩ :=
    exists_bytes_of_link h hMeasured hLink hAt
  cases hPieces
  obtain ⟨addr, hResolve, hData⟩ := bind_eq_ok_iff.1 (pieceBytes_of_mapM_singleton hBlocks)
  rw [← Except.ok.inj hData] at hOut
  exact ⟨addr, front, back, resolve_eq_ok_iff.1 hResolve, hOut, hFront⟩

/-! ## Programs of instructions -/

/-- Instructions whose opcodes are words are laid out as these words. -/
theorem exists_foldlM_add_instr {is : List Instr}
    (h : ∀ i ∈ is, 0 ≤ i.encode ∧ i.encode ≤ 0xFFFF) (l : Layout) :
    ∃ final, (is.map Statement.instr).foldlM add l = .ok final ∧
      final.pieces.toList =
        l.pieces.toList ++ (is.map fun i => wordBytes i.encode.toNat).map Piece.bytes := by
  induction is generalizing l with
  | nil => exact ⟨l, rfl, (List.append_nil _).symm⟩
  | cons i is ih =>
      obtain ⟨hLow, hHigh⟩ := h i List.mem_cons_self
      have hWord := wordBytes?_eq_some_iff.2 ⟨hLow, hHigh, rfl⟩
      have hStep : l.add (.instr i) = .ok (l.push (.bytes (wordBytes i.encode.toNat))) := by
        simp only [add, instr, hWord]
      obtain ⟨final, hRun, hPieces⟩ := ih (fun j hj => h j (List.mem_cons_of_mem i hj))
        (l.push (.bytes (wordBytes i.encode.toNat)))
      refine ⟨final, ?_, ?_⟩
      · rw [List.map_cons, List.foldlM_cons, hStep]
        exact hRun
      · rw [hPieces, push, Array.toList_push, List.append_assoc]
        rfl

theorem mapM_pieceBytes_bytes (l : Layout) (blocks : List (List UInt8)) :
    (blocks.map Piece.bytes).mapM l.pieceBytes = .ok blocks := by
  induction blocks with
  | nil => rfl
  | cons data blocks ih =>
      rw [List.map_cons, List.mapM_cons, ih]
      rfl

/-- A program of instructions consists of their opcodes in order. -/
theorem layOut_link_instr {is : List Instr} (h : ∀ i ∈ is, 0 ≤ i.encode ∧ i.encode ≤ 0xFFFF) :
    (layOut (is.map Statement.instr) >>= link) =
      .ok (is.flatMap fun i => wordBytes i.encode.toNat) := by
  obtain ⟨final, hRun, hPieces⟩ := exists_foldlM_add_instr h {}
  rw [layOut, hRun, ok_bind, link, hPieces]
  show ((is.map fun i => wordBytes i.encode.toNat).map Piece.bytes).mapM final.pieceBytes >>= _ = _
  rw [mapM_pieceBytes_bytes, ok_bind, List.flatMap_def]
  rfl

end Layout

end Chip8.Assembly
