import Chip8.Proofs.Assembly.Words

/-!
# The two passes

The first pass gives out addresses before any bytes are emitted, so it must know how many bytes the
second pass will emit.  It does, at every moment of any history of calls, whether they are refused
or not, and from whatever base address (`passesAgree_of_calls`).

Bytes that are placed as they are could as well be a statement.  So a history leaves the layout of
statements that are laid out in order, namely of those that are not refused
(`exists_foldlM_add_afterAll`), and what holds of such a layout holds after every history.
-/

namespace Chip8.Assembly

/-- A call that places something in a layout. -/
inductive Call where
  /-- Bytes that are placed as they are. -/
  | data (bytes : List UInt8)
  | statement (s : Statement)
deriving DecidableEq, Repr

namespace Layout

def call (l : Layout) : Call → Except Error Layout
  | .data bytes => .ok (l.push (.bytes bytes))
  | .statement s => l.add s

/-- The layout after a call.  A call that is refused changes nothing. -/
def after (l : Layout) (c : Call) : Layout :=
  match l.call c with
  | .ok next => next
  | .error _ => l

/-- The layout after calls in order. -/
def afterAll (l : Layout) (calls : List Call) : Layout :=
  calls.foldl after l

/-- The layout at a base address after calls in order, of which the first finds it empty. -/
def placed (base : Int) (calls : List Call) : Layout :=
  ({ base } : Layout).afterAll calls

variable {l next : Layout} {c : Call} {name : String} {addr : Int}

theorem after_of_ok (h : l.call c = .ok next) : l.after c = next := by
  rw [after, h]

theorem after_of_error {e : Error} (h : l.call c = .error e) : l.after c = l := by
  rw [after, h]

@[simp] theorem afterAll_cons (l : Layout) (c : Call) (calls : List Call) :
    l.afterAll (c :: calls) = (l.after c).afterAll calls := rfl

theorem afterAll_append (l : Layout) (earlier later : List Call) :
    l.afterAll (earlier ++ later) = (l.afterAll earlier).afterAll later :=
  List.foldl_append

/-! ## Calls as statements -/

/-- Bytes that are placed as they are, are placed as the list of their values. -/
theorem exists_add_eq_call (l : Layout) (c : Call) : ∃ s, l.call c = l.add s := by
  cases c with
  | data bytes =>
      refine ⟨.bytes (bytes.map fun b => (b.toNat : Int)), ?_⟩
      rw [call, add, Layout.bytes, Memory.mapM_byte?_map_toNat]
  | statement s => exact ⟨s, rfl⟩

/-- The layout after calls is one of statements that are laid out in order. -/
theorem exists_foldlM_add_afterAll (l : Layout) (calls : List Call) :
    ∃ found : List Statement, found.foldlM add l = .ok (l.afterAll calls) := by
  induction calls generalizing l with
  | nil => exact ⟨[], rfl⟩
  | cons c calls ih =>
      obtain ⟨found, hFound⟩ := ih (l.after c)
      obtain ⟨s, hCall⟩ := l.exists_add_eq_call c
      cases hStep : l.add s with
      | ok next =>
          rw [after_of_ok (hCall.trans hStep)] at hFound
          exact ⟨s :: found, by rw [List.foldlM_cons, hStep, ok_bind, hFound, afterAll_cons,
            after_of_ok (hCall.trans hStep)]⟩
      | error e =>
          rw [after_of_error (hCall.trans hStep)] at hFound
          exact ⟨found, by rw [hFound, afterAll_cons, after_of_error (hCall.trans hStep)]⟩

theorem base_afterAll (l : Layout) (calls : List Call) : (l.afterAll calls).base = l.base := by
  obtain ⟨found, hFound⟩ := l.exists_foldlM_add_afterAll calls
  exact (size_of_foldlM_add hFound).1

theorem Measured.afterAll (h : l.Measured) (calls : List Call) : (l.afterAll calls).Measured := by
  obtain ⟨found, hFound⟩ := l.exists_foldlM_add_afterAll calls
  exact measured_of_foldlM_add hFound h

/-! ## What the second pass emits -/

/-- The second pass emits `n` bytes for what has been placed, whatever addresses it is given for the
labels, and there are some with which it succeeds. -/
structure Emits (l : Layout) (n : Nat) : Prop where
  possible : ∃ labels out, ({ l with labels } : Layout).link = .ok out
  length_eq : ∀ labels out, ({ l with labels } : Layout).link = .ok out → out.length = n

theorem Emits.unique {m n : Nat} (hm : l.Emits m) (hn : l.Emits n) : m = n := by
  obtain ⟨labels, out, hLink⟩ := hm.possible
  exact (hm.length_eq labels out hLink).symm.trans (hn.length_eq labels out hLink)

/-- With an address for each label that is referred to, the second pass succeeds. -/
theorem exists_link (l : Layout) : ∃ labels out, ({ l with labels } : Layout).link = .ok out := by
  let labels : List (String × Int) := l.pieces.toList.filterMap fun
    | .ref _ name => some (name, 0)
    | .bytes _ => none
  have hKnown : ∀ op name, .ref op name ∈ l.pieces.toList →
      ∃ addr, labels.lookup name = some addr := by
    intro op name hRef
    have hMem : (name, 0) ∈ labels := List.mem_filterMap.2 ⟨_, hRef, rfl⟩
    exact Option.isSome_iff_exists.1 (List.lookup_isSome_iff.2 ⟨_, hMem, beq_self_eq_true name⟩)
  obtain ⟨blocks, hBlocks⟩ := exists_mapM_pieceBytes (l := { l with labels }) hKnown
  exact ⟨labels, blocks.flatten, by rw [link, hBlocks, ok_bind, pure_eq_ok]⟩

/-- The size that the first pass counts is what the second pass emits. -/
theorem Measured.emits (h : l.Measured) : l.Emits l.size where
  possible := l.exists_link
  length_eq labels out hLink := by
    have hOther : ({ l with labels } : Layout).Measured := h
    have hLength := length_of_link hOther hLink
    exact hLength

/-! ## Labels -/

/-- A call gives an address to a label if it defines this label, and the label has none yet. -/
theorem lookup_after_iff : (l.after c).labels.lookup name = some addr ↔
    l.labels.lookup name = some addr ∨
      c = .statement (.label name) ∧ l.labels.lookup name = none ∧ addr = l.address := by
  cases c with
  | data bytes => simp [after, call, push]
  | statement s =>
      cases hCall : l.call (.statement s) with
      | ok next =>
          have hAdds : l.Adds s next := adds_of_add hCall
          rw [after_of_ok hCall, hAdds.lookup_iff]
          refine or_congr_right ⟨?_, ?_⟩
          · rintro ⟨rfl, rfl⟩
            exact ⟨rfl, hAdds.fresh name rfl, rfl⟩
          · rintro ⟨hLabel, -, rfl⟩
            exact ⟨Call.statement.inj hLabel, rfl⟩
      | error e =>
          rw [after_of_error hCall]
          refine ⟨.inl, ?_⟩
          rintro (hOld | ⟨hLabel, hNew, -⟩)
          · exact hOld
          · -- A label that has no address yet is not refused.
            cases hLabel
            rw [call, add, label, hNew] at hCall
            cases hCall

/-- The table holds the labels of the start, and each label that a call defines for the first time
with the address that the layout has at this moment. -/
theorem lookup_afterAll_iff {calls : List Call} :
    (l.afterAll calls).labels.lookup name = some addr ↔
      l.labels.lookup name = some addr ∨
        ∃ earlier later, calls = earlier ++ .statement (.label name) :: later ∧
          (l.afterAll earlier).labels.lookup name = none ∧ addr = (l.afterAll earlier).address := by
  induction calls generalizing l with
  | nil => simp [afterAll]
  | cons c calls ih =>
      rw [afterAll_cons, ih, lookup_after_iff, or_assoc]
      refine or_congr_right ⟨?_, ?_⟩
      · rintro (⟨rfl, hNew, rfl⟩ | ⟨earlier, later, rfl, hNew, rfl⟩)
        · exact ⟨[], calls, rfl, hNew, rfl⟩
        · exact ⟨c :: earlier, later, rfl, hNew, rfl⟩
      · rintro ⟨earlier, later, hCalls, hNew, rfl⟩
        cases earlier with
        | nil =>
            cases hCalls
            exact .inl ⟨rfl, hNew, rfl⟩
        | cons d earlier =>
            cases hCalls
            exact .inr ⟨earlier, later, rfl, hNew, rfl⟩

/-! ## References -/

/-- In what the second pass emits, a reference has the word of its instruction where the first pass
left room for it. -/
theorem exists_word_of_link {op : AddressOp} {later : List Call} {out : List UInt8}
    (hMeasured : l.Measured)
    (h : (l.afterAll (.statement (.ref op name) :: later)).link = .ok out) :
    ∃ addr, (l.afterAll (.statement (.ref op name) :: later)).labels.lookup name = some addr ∧
      l.size + opcodeSize ≤ out.length ∧ wordFrom out l.size = op.word addr := by
  -- A reference is never refused, so it comes first among the statements that are laid out.
  obtain ⟨found, hFound⟩ := (l.push (.ref op name)).exists_foldlM_add_afterAll later
  have hAll : (.ref op name :: found).foldlM add l =
      .ok (l.afterAll (.statement (.ref op name) :: later)) := hFound
  obtain ⟨addr, front, back, hLookup, rfl, hFront⟩ :=
    exists_wordBytes_of_link hAll hMeasured h (k := 0) rfl
  have hSize : l.size = front.length := hFront.symm
  rw [hSize]
  exact ⟨addr, hLookup, length_add_le_append _ front back,
    wordFrom_append (op.word_lt addr) front back⟩

/-! ## Agreement -/

/-- After calls on an empty layout at a base address, what the first pass has counted is what the
second pass emits. -/
structure PassesAgree (base : Int) (calls : List Call) : Prop where
  /-- The next address is as far from the base as the bytes that are emitted reach. -/
  address_eq : ∃ n : Nat, (placed base calls).Emits n ∧ (placed base calls).address = base + n
  /-- A label stands after the bytes that are emitted for what was placed before the label was first
  defined. -/
  label_iff : ∀ name addr, (placed base calls).labels.lookup name = some addr ↔
    ∃ earlier later, calls = earlier ++ .statement (.label name) :: later ∧
      (placed base earlier).labels.lookup name = none ∧
        ∃ n : Nat, (placed base earlier).Emits n ∧ addr = base + n
  length_eq : ∀ out, (placed base calls).link = .ok out →
    (out.length : Int) = (placed base calls).address - base
  /-- Where a reference was placed, its instruction is emitted with the address of its label. -/
  word_eq : ∀ out, (placed base calls).link = .ok out →
    ∀ earlier op name later, calls = earlier ++ .statement (.ref op name) :: later →
      ∃ (n : Nat) (addr : Int), (n : Int) = (placed base earlier).address - base ∧
        (placed base calls).labels.lookup name = some addr ∧
          n + opcodeSize ≤ out.length ∧ wordFrom out n = op.code ||| (addr % 0x1000).toNat

theorem measured_placed (base : Int) (calls : List Call) : (placed base calls).Measured :=
  Measured.afterAll (l := { base }) rfl calls

theorem address_placed (base : Int) (calls : List Call) :
    (placed base calls).address = base + (placed base calls).size := by
  rw [address, placed, base_afterAll]

/-- The two passes agree on every position, whatever the base and whatever is placed. -/
theorem passesAgree_of_calls (base : Int) (calls : List Call) : PassesAgree base calls where
  address_eq := ⟨_, (measured_placed base calls).emits, address_placed base calls⟩
  label_iff name addr := by
    rw [placed, lookup_afterAll_iff]
    constructor
    · rintro (hNone | ⟨earlier, later, hCalls, hNew, rfl⟩)
      · cases hNone
      · exact ⟨earlier, later, hCalls, hNew, _, (measured_placed base earlier).emits,
          address_placed base earlier⟩
    · rintro ⟨earlier, later, hCalls, hNew, n, hEmits, rfl⟩
      have hSize : n = (placed base earlier).size :=
        hEmits.unique (measured_placed base earlier).emits
      refine .inr ⟨earlier, later, hCalls, hNew, ?_⟩
      rw [hSize]
      exact (address_placed base earlier).symm
  length_eq out hLink := by
    rw [address_placed, length_of_link (measured_placed base calls) hLink]
    omega
  word_eq out hLink earlier op name later hCalls := by
    rw [hCalls, placed, afterAll_append] at hLink
    obtain ⟨addr, hLookup, hInside, hWord⟩ :=
      exists_word_of_link (measured_placed base earlier) hLink
    refine ⟨_, addr, ?_, ?_, hInside, hWord⟩
    · rw [address_placed]
      omega
    · rw [hCalls, placed, afterAll_append]
      exact hLookup

/-- A reference to a label that lies ahead, a list that is refused, one byte, the label twice, and a
reference back to it. -/
def callsAround : List Call :=
  [.statement (.ref .jump "x"), .statement (.bytes [1, 256]), .data [7], .statement (.label "x"),
    .statement (.label "x"), .statement (.ref .call "x")]

/-- The label is three bytes above a base below zero, and its address is cut to twelve bits. -/
theorem passesAgree_of_calls_around :
    (placed (-4) callsAround).link = .ok [0x1F, 0xFF, 7, 0x2F, 0xFF] ∧
      ∃ addr, (placed (-4) callsAround).labels.lookup "x" = some addr ∧
        wordFrom [0x1F, 0xFF, 7, 0x2F, 0xFF] 3 = AddressOp.call.code ||| (addr % 0x1000).toNat := by
  have hLink : (placed (-4) callsAround).link = .ok [0x1F, 0xFF, 7, 0x2F, 0xFF] :=
    toOption_eq_some_iff.1 (by decide +kernel)
  obtain ⟨n, addr, hOffset, hLabel, -, hWord⟩ :=
    (passesAgree_of_calls (-4) callsAround).word_eq _ hLink (callsAround.take 5) .call "x" [] rfl
  have hAddress : (placed (-4) (callsAround.take 5)).address = -1 := by decide +kernel
  obtain rfl : n = 3 := by omega
  exact ⟨hLink, addr, hLabel, hWord⟩

end Layout

end Chip8.Assembly
