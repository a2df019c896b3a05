import Chip8.Proofs.Assembly.Passes
import Chip8.Proofs.Work

/-!
# Requests

A layout is asked to place something, to say where a label is, and to link.  A request is taken here
step by step: a piece is first recorded and then counted, and linking goes through the pieces with
what it has emitted so far.  `on_place`, `on_resolve` and `on_link` say that these steps are what
`call`, `resolve` and `link` do.

Whatever the requests were, the next one is refused for a cause that can be told from them alone,
and then it leaves the layout as it was.  What a label is bound to stays, and so does what has been
emitted (`steady_of_requests`).
-/

namespace Chip8.Assembly

/-- What a layout is asked for. -/
inductive Request where
  | place (c : Call)
  | resolve (name : String)
  | link
deriving DecidableEq, Repr

/-- What is answered. -/
inductive Reply where
  | done
  | address (addr : Int)
  | program (out : List UInt8)
deriving DecidableEq, Repr

namespace Layout

/-! ## The steps of a request -/

/-- Records a piece, and then counts its bytes. -/
def issue (p : Piece) : Work Error Layout Reply := do
  modify fun l => { l with pieces := l.pieces.push p }
  modify fun l => { l with size := l.size + p.size }
  return .done

/-- Issues bytes, if there are any. -/
def issueBytes (e : Error) : Option (List UInt8) → Work Error Layout Reply
  | some data => issue (.bytes data)
  | none => throw e

/-- Gives a label the address of the next byte. -/
def define (name : String) : Work Error Layout Reply := do
  match (← get).labels.lookup name with
  | some _ => throw (.duplicateLabel name)
  | none =>
    modify fun l => { l with labels := (name, l.address) :: l.labels }
    return .done

/-- Looks up a label. -/
def find (name : String) : Work Error Layout Int := do
  match (← get).labels.lookup name with
  | some addr => return addr
  | none => throw (.undefinedLabel name)

/-- Emits pieces after what has been emitted so far. -/
def emit (out : List UInt8) : List Piece → Work Error Layout (List UInt8)
  | [] => return out
  | .bytes data :: ps => emit (out ++ data) ps
  | .ref op name :: ps => do
    let addr ← find name
    match wordBytes? (Instr.address op addr).encode with
    | some data => emit (out ++ data) ps
    | none => throw .notWord

end Layout

/-- A call, step by step.  All that is to be issued is there before the first step is taken. -/
def Call.work : Call → Work Error Layout Reply
  | .data bytes => Layout.issue (.bytes bytes)
  | .statement (.label name) => Layout.define name
  | .statement (.instr i) => Layout.issueBytes .notWord (wordBytes? i.encode)
  | .statement (.ref op name) => Layout.issue (.ref op name)
  | .statement (.bytes values) => Layout.issueBytes .notByte (values.mapM Bits.byte?)
  | .statement (.words values) =>
    Layout.issueBytes .notWord ((values.mapM wordBytes?).map List.flatten)
  | .statement (.unknown line) => throw (.unknownCommand line)

/-- The label that a piece refers to. -/
def Piece.referred? : Piece → Option String
  | .bytes _ => none
  | .ref _ name => some name

namespace Request

/-- A request, step by step. -/
def work : Request → Work Error Layout Reply
  | .place c => c.work
  | .resolve name => do return .address (← Layout.find name)
  | .link => do return .program (← Layout.emit [] (← get).pieces.toList)

/-- The call that is made, if something is to be placed. -/
def call? : Request → Option Call
  | .place c => some c
  | _ => none

/-- The label that a reference is to be placed to. -/
def referred? : Request → Option String
  | .place (.statement (.ref _ name)) => some name
  | _ => none

/-- The request that defines a label. -/
def define (name : String) : Request := .place (.statement (.label name))

/-- The cause for which a request is refused after earlier ones. -/
inductive RefusedAfter (earlier : List Request) : Request → Error → Prop where
  /-- The label has been defined already. -/
  | again {name : String} (hOld : define name ∈ earlier) :
      RefusedAfter earlier (define name) (.duplicateLabel name)
  | command (line : String) :
      RefusedAfter earlier (.place (.statement (.unknown line))) (.unknownCommand line)
  | instr {i : Instr} (hLarge : ¬(0 ≤ i.encode ∧ i.encode ≤ 0xFFFF)) :
      RefusedAfter earlier (.place (.statement (.instr i))) .notWord
  /-- One of the numbers is no byte, wherever in the list it is. -/
  | bytes {values : List Int} {n : Int} (hMem : n ∈ values) (hLarge : ¬(0 ≤ n ∧ n ≤ 0xFF)) :
      RefusedAfter earlier (.place (.statement (.bytes values))) .notByte
  | words {values : List Int} {n : Int} (hMem : n ∈ values) (hLarge : ¬(0 ≤ n ∧ n ≤ 0xFFFF)) :
      RefusedAfter earlier (.place (.statement (.words values))) .notWord
  | resolve {name : String} (hNone : define name ∉ earlier) :
      RefusedAfter earlier (.resolve name) (.undefinedLabel name)
  /-- Of the labels that are referred to this is the first that has not been defined. -/
  | link {name : String}
      (hFirst : (earlier.filterMap referred?).find? (fun other => define other ∉ earlier) =
        some name) :
      RefusedAfter earlier .link (.undefinedLabel name)

end Request

namespace Layout

/-- The layout at a base address after requests in order, refused ones among them. -/
def reached (base : Int) (requests : List Request) : Layout :=
  requests.foldl (fun l r => r.work.left l) { base }

variable {l more next : Layout} {c : Call} {name : String} {addr : Int} {e : Error}

theorem on_find (name : String) (l : Layout) : (find name).on l = (l.resolve name, l) := by
  simp only [find, Work.on_bind, Work.on_get, resolve]
  cases l.labels.lookup name with
  | none => rfl
  | some addr => rfl

/-- The steps of a call are what it does, and none is taken before it is sure to succeed. -/
theorem on_place (c : Call) (l : Layout) :
    (Request.place c).work.on l =
      match l.call c with
      | .ok next => (.ok .done, next)
      | .error e => (.error e, l) := by
  cases c with
  | data bytes => rfl
  | statement s =>
      cases s with
      | label name =>
          simp only [Request.work, Call.work, define, Work.on_bind, Work.on_get, call, add, label]
          cases l.labels.lookup name with
          | none => rfl
          | some addr => rfl
      | instr i =>
          simp only [Request.work, Call.work, call, add, instr]
          cases wordBytes? i.encode with
          | none => rfl
          | some data => rfl
      | ref op name => rfl
      | bytes values =>
          simp only [Request.work, Call.work, call, add, bytes]
          cases values.mapM Bits.byte? with
          | none => rfl
          | some data => rfl
      | words values =>
          simp only [Request.work, Call.work, call, add, words]
          cases values.mapM wordBytes? with
          | none => rfl
          | some data => rfl
      | unknown line => rfl

theorem on_resolve (name : String) (l : Layout) :
    (Request.resolve name).work.on l = ((l.resolve name).map .address, l) := by
  rw [Request.work, Work.on_bind, on_find]
  cases l.resolve name with
  | error e => rfl
  | ok addr => rfl

theorem on_emit (ps : List Piece) (out : List UInt8) (l : Layout) :
    (emit out ps).on l = ((ps.mapM l.pieceBytes).map fun blocks => out ++ blocks.flatten, l) := by
  induction ps generalizing out with
  | nil => exact Prod.ext (congrArg Except.ok (List.append_nil out).symm) rfl
  | cons p ps ih =>
      have hFirst : ∀ data, l.pieceBytes p = .ok data → (emit (out ++ data) ps).on l =
          (((p :: ps).mapM l.pieceBytes).map fun blocks => out ++ blocks.flatten, l) := by
        intro data hData
        rw [ih, List.mapM_cons, hData]
        cases ps.mapM l.pieceBytes with
        | error e => rfl
        | ok blocks => exact Prod.ext (congrArg Except.ok (List.append_assoc _ _ _)) rfl
      cases p with
      | bytes data => exact hFirst data rfl
      | ref op name =>
          rw [emit, Work.on_bind, on_find]
          cases hAddr : l.resolve name with
          | error e => rw [List.mapM_cons, pieceBytes, hAddr]; rfl
          | ok addr =>
              -- The word of an address always has two bytes.
              obtain ⟨data, hWord, hData⟩ := exists_pieceBytes_ref op hAddr
              simp only [hWord]
              exact hFirst data hData

theorem on_link (l : Layout) : Request.link.work.on l = (l.link.map .program, l) := by
  rw [Request.work, Work.on_bind, Work.on_get]
  show (emit [] l.pieces.toList >>= _).on l = _
  rw [Work.on_bind, on_emit, link]
  cases l.pieces.toList.mapM l.pieceBytes with
  | error e => rfl
  | ok blocks => rfl

/-- A request that is refused leaves the layout as it was. -/
theorem left_of_on_eq_error {r : Request} (h : r.work.on l = (.error e, next)) : next = l := by
  cases r with
  | place c =>
      rw [on_place] at h
      cases hCall : l.call c with
      | ok after => rw [hCall] at h; cases h
      | error e' => rw [hCall] at h; cases h; rfl
  | resolve name =>
      rw [on_resolve] at h
      exact (congrArg Prod.snd h).symm
  | link =>
      rw [on_link] at h
      exact (congrArg Prod.snd h).symm

/-! ## Requests in order -/

theorem left_place (c : Call) (l : Layout) : (Request.place c).work.left l = l.after c := by
  rw [Work.left, on_place, after]
  cases l.call c with
  | ok next => rfl
  | error e => rfl

theorem left_resolve (name : String) (l : Layout) : (Request.resolve name).work.left l = l :=
  Work.left_eq (on_resolve name l)

theorem left_link (l : Layout) : Request.link.work.left l = l :=
  Work.left_eq (on_link l)

/-- Only what is to be placed makes a difference. -/
theorem reached_eq_placed (base : Int) (requests : List Request) :
    reached base requests = placed base (requests.filterMap Request.call?) := by
  rw [reached, placed]
  generalize ({ base } : Layout) = l
  induction requests generalizing l with
  | nil => rfl
  | cons r requests ih =>
      rw [List.foldl_cons, ih, List.filterMap_cons]
      cases r with
      | place c => rw [left_place]; rfl
      | resolve name => rw [left_resolve]; rfl
      | link => rw [left_link]; rfl

theorem reached_append (base : Int) (earlier later : List Request) :
    reached base (earlier ++ later) =
      (reached base earlier).afterAll (later.filterMap Request.call?) := by
  rw [reached_eq_placed, reached_eq_placed, List.filterMap_append, placed, afterAll_append, placed]

/-- What has been placed and what labels are bound to is still there. -/
structure Extends (l more : Layout) : Prop where
  pieces : l.pieces.toList <+: more.pieces.toList
  labels : ∀ name addr, l.labels.lookup name = some addr → more.labels.lookup name = some addr

theorem extends_afterAll (l : Layout) (calls : List Call) : l.Extends (l.afterAll calls) := by
  obtain ⟨found, hFound⟩ := l.exists_foldlM_add_afterAll calls
  refine ⟨?_, fun name addr hAddr => (lookup_iff_of_foldlM_add hFound).2 (.inl hAddr)⟩
  obtain ⟨ps, hPieces⟩ := pieces_of_foldlM_add hFound
  exact ⟨ps, hPieces.symm⟩

/-- What a piece is linked to stays. -/
theorem Extends.pieceBytes (h : l.Extends more) {p : Piece} {data : List UInt8}
    (hData : l.pieceBytes p = .ok data) : more.pieceBytes p = .ok data := by
  cases p with
  | bytes known => exact hData
  | ref op name =>
      obtain ⟨addr, hAddr, hWord⟩ := bind_eq_ok_iff.1 hData
      have hKept := resolve_eq_ok_iff.2 (h.labels name addr (resolve_eq_ok_iff.1 hAddr))
      exact bind_eq_ok_iff.2 ⟨addr, hKept, hWord⟩

/-- What is emitted later begins with what was emitted before. -/
theorem Extends.link_grows (h : l.Extends more) {out longer : List UInt8}
    (hOut : l.link = .ok out) (hLonger : more.link = .ok longer) : out <+: longer := by
  obtain ⟨blocks, hBlocks, hFlat⟩ := bind_eq_ok_iff.1 hOut
  cases hFlat
  have hKept : l.pieces.toList.mapM more.pieceBytes = .ok blocks :=
    mapM_eq_ok_iff.2 ((mapM_eq_ok_iff.1 hBlocks).imp fun p data => h.pieceBytes)
  obtain ⟨ps, hPieces⟩ := h.pieces
  rw [link, ← hPieces, List.mapM_append, hKept, ok_bind] at hLonger
  obtain ⟨all, hAll, hFlat⟩ := bind_eq_ok_iff.1 hLonger
  cases hFlat
  obtain ⟨others, -, hAll⟩ := bind_eq_ok_iff.1 hAll
  cases hAll
  exact ⟨others.flatten, List.flatten_append.symm⟩

/-! ## Labels and references of earlier requests -/

theorem define_mem_iff {requests : List Request} : Request.define name ∈ requests ↔
    .statement (.label name) ∈ requests.filterMap Request.call? := by
  rw [List.mem_filterMap]
  constructor
  · exact fun hOld => ⟨_, hOld, rfl⟩
  · rintro ⟨r, hr, hCall⟩
    cases r with
    | place c => cases hCall; exact hr
    | resolve other => cases hCall
    | link => cases hCall

/-- A label is bound after a statement that defines it, be it this one or one before. -/
theorem exists_lookup_after_label (l : Layout) (name : String) :
    ∃ addr, (l.after (.statement (.label name))).labels.lookup name = some addr := by
  cases hOld : l.labels.lookup name with
  | some addr => exact ⟨addr, lookup_after_iff.2 (.inl hOld)⟩
  | none => exact ⟨_, lookup_after_iff.2 (.inr ⟨rfl, hOld, rfl⟩)⟩

/-- A label is bound if a request was to define it. -/
theorem exists_lookup_reached_iff (base : Int) (earlier : List Request) :
    (∃ addr, (reached base earlier).labels.lookup name = some addr) ↔
      Request.define name ∈ earlier := by
  rw [reached_eq_placed, define_mem_iff]
  constructor
  · rintro ⟨addr, hAddr⟩
    rcases lookup_afterAll_iff.1 hAddr with hNone | ⟨front, back, hSplit, -⟩
    · cases hNone
    · rw [hSplit]
      exact List.mem_append_right _ List.mem_cons_self
  · intro hOld
    obtain ⟨front, back, hSplit⟩ := List.append_of_mem hOld
    obtain ⟨addr, hAddr⟩ := exists_lookup_after_label (({ base } : Layout).afterAll front) name
    rw [hSplit, placed, afterAll_append, afterAll_cons]
    exact ⟨addr, (extends_afterAll _ back).labels name addr hAddr⟩

theorem lookup_reached_eq_none_iff (base : Int) (earlier : List Request) :
    (reached base earlier).labels.lookup name = none ↔ Request.define name ∉ earlier := by
  rw [← exists_lookup_reached_iff base earlier, ← Option.isSome_iff_exists,
    Option.not_isSome_iff_eq_none]

/-- The labels that are referred to, in order. -/
def referred (l : Layout) : List String := l.pieces.toList.filterMap Piece.referred?

/-- Only a reference that is placed is to a label, and it is never refused. -/
theorem referred_left (r : Request) (l : Layout) :
    (r.work.left l).referred = l.referred ++ r.referred?.toList := by
  cases r with
  | resolve name => rw [left_resolve]; exact (List.append_nil _).symm
  | link => rw [left_link]; exact (List.append_nil _).symm
  | place c =>
      rw [left_place]
      have hPush : ∀ p : Piece, (l.push p).referred = l.referred ++ p.referred?.toList := by
        intro p
        rw [referred, push, Array.toList_push, List.filterMap_append]
        cases p with
        | bytes data => rfl
        | ref op name => rfl
      cases hCall : l.call c with
      | error e =>
          rw [after_of_error hCall]
          cases c with
          | data bytes => cases hCall
          | statement s =>
              cases s with
              | ref op name => cases hCall
              | _ => exact (List.append_nil _).symm
      | ok next =>
          rw [after_of_ok hCall]
          cases c with
          | data bytes => cases hCall; exact hPush _
          | statement s =>
              obtain ⟨ps, hPieces, hNext⟩ := (adds_of_add hCall).pieces_eq
              rw [referred, hNext, List.filterMap_append, referred]
              congr 1
              cases s with
              | label name => cases hPieces; rfl
              | ref op name => cases hPieces; rfl
              | unknown line => cases hPieces
              | instr | bytes | words =>
                  obtain ⟨data, -, rfl⟩ := Option.map_eq_some_iff.1 hPieces
                  rfl

theorem referred_reached (base : Int) (requests : List Request) :
    (reached base requests).referred = requests.filterMap Request.referred? := by
  induction requests using List.reverseRecOn with
  | nil => rfl
  | append_singleton front r ih =>
      rw [reached, List.foldl_append, List.filterMap_append, ← ih]
      exact referred_left r _

/-! ## Why a request is refused -/

/-- Pieces cannot be linked if one of them refers to a label that is not bound, and the first of
these names is the cause. -/
theorem mapM_pieceBytes_eq_error_iff {ps : List Piece} :
    ps.mapM l.pieceBytes = .error e ↔ ∃ name, e = .undefinedLabel name ∧
      (ps.filterMap Piece.referred?).find? (fun other => l.labels.lookup other = none) =
        some name := by
  induction ps with
  | nil => simp
  | cons p ps ih =>
      have hKnown : ∀ data, l.pieceBytes p = .ok data →
          ((p :: ps).mapM l.pieceBytes = .error e ↔ ps.mapM l.pieceBytes = .error e) := by
        intro data hData
        rw [List.mapM_cons, hData, ok_bind, bind_eq_error_iff]
        refine or_iff_left ?_
        rintro ⟨blocks, -, hNever⟩
        cases hNever
      cases p with
      | bytes data =>
          rw [hKnown data rfl, ih]
          rfl
      | ref op name =>
          rw [List.filterMap_cons, Piece.referred?]
          cases hAddr : l.labels.lookup name with
          | some addr =>
              obtain ⟨data, -, hData⟩ := exists_pieceBytes_ref op (resolve_eq_ok_iff.2 hAddr)
              rw [hKnown data hData, ih, List.find?_cons_of_neg (by simp [hAddr])]
          | none =>
              rw [List.find?_cons_of_pos (by simp [hAddr]), List.mapM_cons, pieceBytes, resolve,
                hAddr]
              simp [eq_comm]

theorem link_eq_error_iff : l.link = .error e ↔ ∃ name, e = .undefinedLabel name ∧
    l.referred.find? (fun other => l.labels.lookup other = none) = some name := by
  rw [link, bind_eq_error_iff, mapM_pieceBytes_eq_error_iff]
  refine or_iff_left ?_
  rintro ⟨blocks, -, hNever⟩
  cases hNever

theorem resolve_eq_error_iff :
    l.resolve name = .error e ↔ l.labels.lookup name = none ∧ e = .undefinedLabel name := by
  rw [resolve]
  cases l.labels.lookup name with
  | some addr => simp
  | none => simp [eq_comm]

theorem wordBytes?_eq_none_iff {n : Int} : wordBytes? n = none ↔ ¬(0 ≤ n ∧ n ≤ 0xFFFF) := by
  rw [wordBytes?, ite_eq_right_iff]
  simp

theorem byte?_eq_none_iff {n : Int} : Bits.byte? n = none ↔ ¬(0 ≤ n ∧ n ≤ 0xFF) := by
  rw [Bits.byte?, ite_eq_right_iff]
  simp

theorem label_eq_error_iff : l.label name = .error e ↔
    (∃ addr, l.labels.lookup name = some addr) ∧ e = .duplicateLabel name := by
  rw [label]
  cases l.labels.lookup name with
  | none => simp
  | some addr => simp [eq_comm]

theorem instr_eq_error_iff {i : Instr} :
    l.instr i = .error e ↔ ¬(0 ≤ i.encode ∧ i.encode ≤ 0xFFFF) ∧ e = .notWord := by
  rw [instr, ← wordBytes?_eq_none_iff]
  cases wordBytes? i.encode with
  | none => simp [eq_comm]
  | some data => simp

theorem bytes_eq_error_iff {values : List Int} :
    l.bytes values = .error e ↔ (∃ n ∈ values, ¬(0 ≤ n ∧ n ≤ 0xFF)) ∧ e = .notByte := by
  simp only [bytes, ← byte?_eq_none_iff, ← mapM_eq_none_iff]
  cases values.mapM Bits.byte? with
  | none => simp [eq_comm]
  | some data => simp

theorem words_eq_error_iff {values : List Int} :
    l.words values = .error e ↔ (∃ n ∈ values, ¬(0 ≤ n ∧ n ≤ 0xFFFF)) ∧ e = .notWord := by
  simp only [words, ← wordBytes?_eq_none_iff, ← mapM_eq_none_iff]
  cases values.mapM wordBytes? with
  | none => simp [eq_comm]
  | some data => simp

/-- A statement is refused for what it is to place, or for a label that is bound. -/
theorem call_eq_error_iff {base : Int} {earlier : List Request} :
    (reached base earlier).call c = .error e ↔ (Request.place c).RefusedAfter earlier e := by
  constructor
  · intro h
    cases c with
    | data bytes => cases h
    | statement s =>
        cases s with
        | label name =>
            obtain ⟨hBound, rfl⟩ := label_eq_error_iff.1 h
            exact .again ((exists_lookup_reached_iff base earlier).1 hBound)
        | instr i =>
            obtain ⟨hLarge, rfl⟩ := instr_eq_error_iff.1 h
            exact .instr hLarge
        | ref op name => cases h
        | bytes values =>
            obtain ⟨⟨n, hMem, hLarge⟩, rfl⟩ := bytes_eq_error_iff.1 h
            exact .bytes hMem hLarge
        | words values =>
            obtain ⟨⟨n, hMem, hLarge⟩, rfl⟩ := words_eq_error_iff.1 h
            exact .words hMem hLarge
        | unknown line =>
            cases h
            exact .command line
  · intro h
    cases h with
    | again hOld =>
        exact label_eq_error_iff.2 ⟨(exists_lookup_reached_iff base earlier).2 hOld, rfl⟩
    | command line => rfl
    | instr hLarge => exact instr_eq_error_iff.2 ⟨hLarge, rfl⟩
    | bytes hMem hLarge => exact bytes_eq_error_iff.2 ⟨⟨_, hMem, hLarge⟩, rfl⟩
    | words hMem hLarge => exact words_eq_error_iff.2 ⟨⟨_, hMem, hLarge⟩, rfl⟩

/-- A request is refused for its cause, and then leaves the layout as it was. -/
theorem on_eq_error_iff {base : Int} {earlier : List Request} {r : Request} :
    r.work.on (reached base earlier) = (.error e, next) ↔
      r.RefusedAfter earlier e ∧ next = reached base earlier := by
  have hUnchanged : r.work.on (reached base earlier) = (.error e, next) ↔
      (r.work.on (reached base earlier)).1 = .error e ∧ next = reached base earlier := by
    constructor
    · intro h
      exact ⟨congrArg Prod.fst h, left_of_on_eq_error h⟩
    · rintro ⟨h, rfl⟩
      have hLeft := left_of_on_eq_error (Prod.ext h rfl)
      exact Prod.ext h hLeft
  rw [hUnchanged]
  refine and_congr_left fun _ => ?_
  cases r with
  | place c =>
      rw [on_place, ← call_eq_error_iff]
      cases (reached base earlier).call c with
      | ok after => simp
      | error e' => simp
  | resolve name =>
      have hResolve : ((reached base earlier).resolve name).map Reply.address = .error e ↔
          (reached base earlier).resolve name = .error e := by
        cases (reached base earlier).resolve name <;> simp [Except.map]
      rw [on_resolve, hResolve, resolve_eq_error_iff, lookup_reached_eq_none_iff]
      constructor
      · rintro ⟨hNone, rfl⟩
        exact .resolve hNone
      · intro h
        cases h with
        | resolve hNone => exact ⟨hNone, rfl⟩
  | link =>
      have hLink : (reached base earlier).link.map Reply.program = .error e ↔
          (reached base earlier).link = .error e := by
        cases (reached base earlier).link <;> simp [Except.map]
      rw [on_link, hLink, link_eq_error_iff, referred_reached]
      simp only [lookup_reached_eq_none_iff]
      constructor
      · rintro ⟨name, rfl, hFirst⟩
        exact .link hFirst
      · intro h
        cases h with
        | link hFirst => exact ⟨_, rfl, hFirst⟩

/-! ## What stays -/

/-- After the requests, a further one changes nothing unless it is to place something and succeeds,
and nothing that it changes is taken back. -/
structure Steady (base : Int) (earlier : List Request) : Prop where
  place_eq (c : Call) : (Request.place c).work.on (reached base earlier) =
    match (reached base earlier).call c with
    | .ok next => (.ok .done, next)
    | .error e => (.error e, reached base earlier)
  resolve_eq (name : String) : (Request.resolve name).work.on (reached base earlier) =
    (((reached base earlier).resolve name).map .address, reached base earlier)
  link_eq : Request.link.work.on (reached base earlier) =
    ((reached base earlier).link.map .program, reached base earlier)
  refused_iff (r : Request) (e : Error) (next : Layout) :
    r.work.on (reached base earlier) = (.error e, next) ↔
      r.RefusedAfter earlier e ∧ next = reached base earlier
  /-- Linking again and again finds what linking once does. -/
  link_again (n : Nat) :
    reached base (earlier ++ List.replicate n .link) = reached base earlier
  label_kept (later : List Request) (name : String) (addr : Int) :
    (reached base earlier).resolve name = .ok addr →
      (reached base (earlier ++ later)).resolve name = .ok addr
  output_grows (later : List Request) (out longer : List UInt8) :
    (reached base earlier).link = .ok out →
      (reached base (earlier ++ later)).link = .ok longer → out <+: longer

/-- Requests are refused without a trace, labels keep their addresses, and output only grows,
whatever is requested. -/
theorem steady_of_requests (base : Int) (earlier : List Request) : Steady base earlier where
  place_eq c := on_place c _
  resolve_eq name := on_resolve name _
  link_eq := on_link _
  refused_iff r e next := on_eq_error_iff
  link_again n := by
    rw [reached_append, List.filterMap_replicate_of_none rfl]
    rfl
  label_kept later name addr hAddr := by
    rw [reached_append]
    exact resolve_eq_ok_iff.2
      ((extends_afterAll _ _).labels name addr (resolve_eq_ok_iff.1 hAddr))
  output_grows later out longer hOut hLonger := by
    rw [reached_append] at hLonger
    exact (extends_afterAll _ _).link_grows hOut hLonger

end Layout

end Chip8.Assembly
