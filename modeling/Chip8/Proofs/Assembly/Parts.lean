import Chip8.Proofs.Assembly.Writing

/-!
# Parts and tokens

A token stands for the parts that it may be written as, and says what they say.  Token by token this
takes the grammar to the parts of statements: the forms stand for the parts of every statement that
fits, and for nothing else (`exists_form_reads_iff`).
-/

namespace Chip8.Assembly

/-- The token stands for the part, and says `args`. -/
inductive Token.Reads : Token → Part → List Arg → Prop where
  | fixed {t : Token} {w : List Char} (h : t.fixed? = some w) : Reads t (.fixed w) []
  | reg {r : Reg} (h : r.Exists) : Reads .reg (.reg r) [.reg r]
  | number {field : Field} {n : Nat} (h : n ≤ field.limit) :
      Reads (.number field) (.number n) [.number n]
  | address {n : Nat} (h : n ≤ Field.address.limit) : Reads .address (.number n) [.number n]
  | label (s : String) : Reads .address (.name s) [.text s]
  | operand {r : Reg} (h : r.Exists) : Reads .regOrByte (.reg r) [.reg r]
  | byte {n : Nat} (h : n ≤ Field.byte.limit) : Reads .regOrByte (.number n) [.number n]
  | name (s : String) : Reads .name (.name s) [.text s]

/-- The tokens stand for the parts in order, and say `args`. -/
inductive ReadsAll : List Token → List Part → List Arg → Prop where
  | nil : ReadsAll [] [] []
  | cons {t : Token} {ts : List Token} {p : Part} {ps : List Part} {args more : List Arg}
      (hFirst : t.Reads p args) (hRest : ReadsAll ts ps more) :
      ReadsAll (t :: ts) (p :: ps) (args ++ more)

/-- What may follow the tokens of a form stands for the parts, and says `args`. -/
inductive Tail.Reads : Tail → List Part → List Arg → Prop where
  | none : Reads .none [] []
  | noRegister : Reads .register [] []
  | register {r : Reg} (h : r.Exists) : Reads .register [.comma, .reg r] []
  | numbers {field : Field} {ns : List Nat} (h : ∀ n ∈ ns, n ≤ field.limit) :
      Reads (.numbers field) (furtherParts (ns.map Nat.cast)) (ns.map .number)

/-- The form stands for the parts, and makes the statement of them. -/
inductive Form.Reads (f : Form) : List Part → Statement → Prop where
  | intro {front back : List Part} {args more : List Arg} {s : Statement}
      (hTokens : ReadsAll f.tokens front args) (hTail : f.tail.Reads back more)
      (hStatement : f.statement? (args ++ more) = some s) : Reads f (front ++ back) s

/-! ## Tokens in order -/

section Tokens

variable {t : Token} {ts : List Token} {ps : List Part} {args : List Arg}

theorem readsAll_nil_iff : ReadsAll [] ps args ↔ ps = [] ∧ args = [] := by
  constructor
  · intro h
    cases h
    exact ⟨rfl, rfl⟩
  · rintro ⟨rfl, rfl⟩
    exact .nil

theorem readsAll_cons_iff : ReadsAll (t :: ts) ps args ↔ ∃ p qs first more,
    ps = p :: qs ∧ args = first ++ more ∧ t.Reads p first ∧ ReadsAll ts qs more := by
  constructor
  · intro h
    cases h with
    | cons hFirst hRest => exact ⟨_, _, _, _, rfl, rfl, hFirst, hRest⟩
  · rintro ⟨p, qs, first, more, rfl, rfl, hFirst, hRest⟩
    exact .cons hFirst hRest

theorem Token.reads_of_fixed? {w : List Char} {p : Part} (ht : t.fixed? = some w) :
    t.Reads p args ↔ p = .fixed w ∧ args = [] := by
  constructor
  · intro h
    cases h with
    | fixed h =>
        rw [ht] at h
        cases h
        exact ⟨rfl, rfl⟩
    | _ => cases ht
  · rintro ⟨rfl, rfl⟩
    exact .fixed ht

/-- A token that is always the same stands for this part alone, and says nothing. -/
theorem readsAll_fixed_cons_iff {w : List Char} (h : t.fixed? = some w) :
    ReadsAll (t :: ts) ps args ↔ ∃ qs, ps = .fixed w :: qs ∧ ReadsAll ts qs args := by
  rw [readsAll_cons_iff]
  simp only [Token.reads_of_fixed? h]
  constructor
  · rintro ⟨p, qs, first, more, rfl, rfl, ⟨rfl, rfl⟩, hMore⟩
    exact ⟨qs, rfl, hMore⟩
  · rintro ⟨qs, rfl, hMore⟩
    exact ⟨_, qs, [], args, rfl, rfl, ⟨rfl, rfl⟩, hMore⟩

theorem readsAll_fixed_append_iff {front : List Token} {ws : List (List Char)}
    (h : front.mapM Token.fixed? = some ws) :
    ReadsAll (front ++ ts) ps args ↔ ∃ qs, ps = ws.map .fixed ++ qs ∧ ReadsAll ts qs args := by
  have hAll := mapM_eq_some_iff.1 h
  clear h
  induction hAll generalizing ps with
  | nil => simp
  | @cons t w front ws hFirst hRest ih =>
      rw [List.cons_append, readsAll_fixed_cons_iff hFirst]
      constructor
      · rintro ⟨qs, rfl, hMore⟩
        obtain ⟨rest, rfl, hEnd⟩ := ih.1 hMore
        exact ⟨rest, rfl, hEnd⟩
      · rintro ⟨qs, rfl, hMore⟩
        exact ⟨_, rfl, ih.2 ⟨qs, rfl, hMore⟩⟩

theorem readsAll_fixed_iff {ws : List (List Char)} (h : ts.mapM Token.fixed? = some ws) :
    ReadsAll ts ps args ↔ ps = ws.map .fixed ∧ args = [] := by
  rw [← List.append_nil ts, readsAll_fixed_append_iff h]
  simp only [readsAll_nil_iff]
  constructor
  · rintro ⟨qs, rfl, rfl, rfl⟩
    exact ⟨List.append_nil _, rfl⟩
  · rintro ⟨rfl, rfl⟩
    exact ⟨[], (List.append_nil _).symm, rfl, rfl⟩

theorem readsAll_comma_cons_iff :
    ReadsAll (Form.comma :: ts) ps args ↔ ∃ qs, ps = .comma :: qs ∧ ReadsAll ts qs args :=
  readsAll_fixed_cons_iff rfl

theorem readsAll_reg_cons_iff : ReadsAll (.reg :: ts) ps args ↔
    ∃ r qs more, ps = .reg r :: qs ∧ args = .reg r :: more ∧ r.Exists ∧ ReadsAll ts qs more := by
  rw [readsAll_cons_iff]
  constructor
  · rintro ⟨p, qs, first, more, rfl, rfl, hReg, hMore⟩
    cases hReg with
    | fixed h => cases h
    | reg h => exact ⟨_, qs, more, rfl, rfl, h, hMore⟩
  · rintro ⟨r, qs, more, rfl, rfl, h, hMore⟩
    exact ⟨_, _, [.reg r], more, rfl, rfl, .reg h, hMore⟩

theorem readsAll_singleton_iff : ReadsAll [t] ps args ↔ ∃ p, ps = [p] ∧ t.Reads p args := by
  rw [readsAll_cons_iff]
  constructor
  · rintro ⟨p, qs, first, more, rfl, rfl, hFirst, hMore⟩
    obtain ⟨rfl, rfl⟩ := readsAll_nil_iff.1 hMore
    rw [List.append_nil]
    exact ⟨p, rfl, hFirst⟩
  · rintro ⟨p, rfl, hFirst⟩
    exact ⟨p, [], args, [], rfl, (List.append_nil _).symm, hFirst, .nil⟩

/-- Between two operands is a comma. -/
theorem readsAll_reg_comma_iff : ReadsAll (.reg :: Form.comma :: ts) ps args ↔
    ∃ r qs more, ps = .reg r :: .comma :: qs ∧ args = .reg r :: more ∧ r.Exists ∧
      ReadsAll ts qs more := by
  rw [readsAll_reg_cons_iff]
  constructor
  · rintro ⟨r, rest, more, rfl, rfl, h, hRest⟩
    obtain ⟨qs, rfl, hMore⟩ := readsAll_comma_cons_iff.1 hRest
    exact ⟨r, qs, more, rfl, rfl, h, hMore⟩
  · rintro ⟨r, qs, more, rfl, rfl, h, hMore⟩
    exact ⟨r, _, more, rfl, rfl, h, readsAll_comma_cons_iff.2 ⟨qs, rfl, hMore⟩⟩

end Tokens

/-! ## The last operand -/

section LastOperand

variable {field : Field} {ps : List Part} {args : List Arg}

theorem readsAll_reg_iff :
    ReadsAll [.reg] ps args ↔ ∃ r : Reg, r.Exists ∧ ps = [.reg r] ∧ args = [.reg r] := by
  rw [readsAll_reg_cons_iff]
  constructor
  · rintro ⟨r, qs, more, rfl, rfl, h, hEnd⟩
    obtain ⟨rfl, rfl⟩ := readsAll_nil_iff.1 hEnd
    exact ⟨r, h, rfl, rfl⟩
  · rintro ⟨r, h, rfl, rfl⟩
    exact ⟨r, [], [], rfl, rfl, h, .nil⟩

theorem readsAll_number_iff : ReadsAll [.number field] ps args ↔
    ∃ n : Int, (0 ≤ n ∧ n ≤ field.limit) ∧ ps = [.number n] ∧ args = [.number n.toNat] := by
  rw [readsAll_singleton_iff]
  constructor
  · rintro ⟨p, rfl, hNumber⟩
    cases hNumber with
    | fixed h => cases h
    | @number _ n hn => exact ⟨n, ⟨Int.natCast_nonneg n, Int.ofNat_le.2 hn⟩, rfl, rfl⟩
  · rintro ⟨n, ⟨hLow, hHigh⟩, rfl, rfl⟩
    obtain ⟨k, rfl⟩ := Int.eq_ofNat_of_zero_le hLow
    exact ⟨_, rfl, .number (Int.ofNat_le.1 hHigh)⟩

theorem readsAll_regOrByte_iff : ReadsAll [.regOrByte] ps args ↔
    ∃ y : Operand, y.Fits ∧ ps = [partOf y] ∧ args = [argOf y] := by
  rw [readsAll_singleton_iff]
  constructor
  · rintro ⟨p, rfl, hOperand⟩
    cases hOperand with
    | fixed h => cases h
    | @operand r hr => exact ⟨.reg r, hr, rfl, rfl⟩
    | @byte n hn => exact ⟨.imm n, ⟨Int.natCast_nonneg n, Int.ofNat_le.2 hn⟩, rfl, rfl⟩
  · rintro ⟨y, hy, rfl, rfl⟩
    refine ⟨_, rfl, ?_⟩
    cases y with
    | reg r => exact .operand hy
    | imm n =>
        obtain ⟨k, rfl⟩ := Int.eq_ofNat_of_zero_le hy.1
        exact .byte (Int.ofNat_le.1 hy.2)

/-- An address is a number or the name of a label. -/
theorem readsAll_address_iff : ReadsAll [.address] ps args ↔
    (∃ n : Int, (0 ≤ n ∧ n ≤ 0xFFF) ∧ ps = [.number n] ∧ args = [.number n.toNat]) ∨
      ∃ name, ps = [.name name] ∧ args = [.text name] := by
  rw [readsAll_singleton_iff]
  constructor
  · rintro ⟨p, rfl, hAddress⟩
    cases hAddress with
    | fixed h => cases h
    | @address n hn => exact .inl ⟨n, ⟨Int.natCast_nonneg n, Int.ofNat_le.2 hn⟩, rfl, rfl⟩
    | label name => exact .inr ⟨name, rfl, rfl⟩
  · rintro (⟨n, ⟨hLow, hHigh⟩, rfl, rfl⟩ | ⟨name, rfl, rfl⟩)
    · obtain ⟨k, rfl⟩ := Int.eq_ofNat_of_zero_le hLow
      exact ⟨_, rfl, .address (Int.ofNat_le.1 hHigh)⟩
    · exact ⟨_, rfl, .label name⟩

end LastOperand

/-! ## The tokens of the forms -/

theorem tokens_bare (op : BareOp) :
    (Form.bare op).tokens.mapM Token.fixed? = some (splitLexemes op.text.toList) := by
  cases op with
  | clear => decide
  | ret => decide

theorem exists_tokens_address (op : AddressOp) : ∃ front,
    (Form.address op).tokens = front ++ [.address] ∧
      front.mapM Token.fixed? = some (splitLexemes op.lead.toList) := by
  refine ⟨(Form.address op).tokens.dropLast, ?_⟩
  cases op with
  | sys => decide
  | jump => decide
  | call => decide
  | setIndex => decide
  | jumpV0 => decide

theorem exists_tokens_binary (op : BinaryOp) : ∃ front,
    (Form.binary op).tokens = front ++ [.reg, Form.comma, .regOrByte] ∧
      front.mapM Token.fixed? = some (splitLexemes op.text.toList) := by
  refine ⟨(Form.binary op).tokens.take 1, ?_⟩
  cases op with
  | skipEq => decide
  | skipNe => decide
  | load => decide
  | add => decide

theorem exists_tokens_pair (op : PairOp) : ∃ front,
    (Form.pair op).tokens = front ++ [.reg, Form.comma, .reg] ∧
      front.mapM Token.fixed? = some (splitLexemes op.text.toList) := by
  refine ⟨(Form.pair op).tokens.take 1, ?_⟩
  cases op with
  | or => decide
  | and => decide
  | xor => decide
  | sub => decide
  | subn => decide

theorem exists_tokens_single (op : SingleOp) : ∃ front back,
    (Form.single op).tokens = front ++ .reg :: back ∧
      front.mapM Token.fixed? = some (splitLexemes op.frame.1.toList) ∧
      back.mapM Token.fixed? = some (splitLexemes op.frame.2.toList) := by
  refine ⟨(Form.single op).tokens.takeWhile (· ≠ .reg),
    ((Form.single op).tokens.dropWhile (· ≠ .reg)).tail, ?_⟩
  cases op <;> decide

/-! ## The tokens of instructions -/

section Instructions

variable {ps : List Part} {args : List Arg}

/-- The tokens stand for an instruction with a number as its address, or for a reference. -/
theorem readsAll_address_form_iff {op : AddressOp} :
    ReadsAll (Form.address op).tokens ps args ↔
      (∃ addr, (Instr.address op addr).Fits ∧ ps = instrParts (.address op addr) ∧
        args = argsOf (.address op addr)) ∨
      ∃ name, ps = (Statement.ref op name).parts ∧ args = [.text name] := by
  obtain ⟨front, hEq, hFixed⟩ := exists_tokens_address op
  rw [hEq, readsAll_fixed_append_iff hFixed]
  simp only [readsAll_address_iff]
  constructor
  · rintro ⟨qs, rfl, ⟨addr, hFits, rfl, rfl⟩ | ⟨name, rfl, rfl⟩⟩
    · exact .inl ⟨addr, hFits, rfl, rfl⟩
    · exact .inr ⟨name, rfl, rfl⟩
  · rintro (⟨addr, hFits, rfl, rfl⟩ | ⟨name, rfl, rfl⟩)
    · exact ⟨_, rfl, .inl ⟨addr, hFits, rfl, rfl⟩⟩
    · exact ⟨_, rfl, .inr ⟨name, rfl, rfl⟩⟩

theorem readsAll_binary_iff {op : BinaryOp} : ReadsAll (Form.binary op).tokens ps args ↔
    ∃ x y, (Instr.binary op x y).Fits ∧ ps = instrParts (.binary op x y) ∧
      args = argsOf (.binary op x y) := by
  obtain ⟨front, hEq, hFixed⟩ := exists_tokens_binary op
  rw [hEq, readsAll_fixed_append_iff hFixed]
  simp only [readsAll_reg_comma_iff, readsAll_regOrByte_iff]
  constructor
  · rintro ⟨_, rfl, x, _, _, rfl, rfl, hx, y, hy, rfl, rfl⟩
    exact ⟨x, y, ⟨hx, hy⟩, rfl, rfl⟩
  · rintro ⟨x, y, ⟨hx, hy⟩, rfl, rfl⟩
    exact ⟨_, rfl, x, _, _, rfl, rfl, hx, y, hy, rfl, rfl⟩

theorem readsAll_pair_iff {op : PairOp} : ReadsAll (Form.pair op).tokens ps args ↔
    ∃ x y, (Instr.pair op x y).Fits ∧ ps = instrParts (.pair op x y) ∧
      args = argsOf (.pair op x y) := by
  obtain ⟨front, hEq, hFixed⟩ := exists_tokens_pair op
  rw [hEq, readsAll_fixed_append_iff hFixed]
  simp only [readsAll_reg_comma_iff, readsAll_reg_iff]
  constructor
  · rintro ⟨_, rfl, x, _, _, rfl, rfl, hx, y, hy, rfl, rfl⟩
    exact ⟨x, y, ⟨hx, hy⟩, rfl, rfl⟩
  · rintro ⟨x, y, ⟨hx, hy⟩, rfl, rfl⟩
    exact ⟨_, rfl, x, _, _, rfl, rfl, hx, y, hy, rfl, rfl⟩

theorem readsAll_single_iff {op : SingleOp} : ReadsAll (Form.single op).tokens ps args ↔
    ∃ x, (Instr.single op x).Fits ∧ ps = instrParts (.single op x) ∧
      args = argsOf (.single op x) := by
  obtain ⟨front, back, hEq, hFront, hBack⟩ := exists_tokens_single op
  rw [hEq, readsAll_fixed_append_iff hFront]
  simp only [readsAll_reg_cons_iff, readsAll_fixed_iff hBack]
  constructor
  · rintro ⟨_, rfl, x, _, _, rfl, rfl, hx, rfl, rfl⟩
    exact ⟨x, hx, rfl, rfl⟩
  · rintro ⟨x, hx, rfl, rfl⟩
    exact ⟨_, rfl, x, _, _, rfl, rfl, hx, rfl, rfl⟩

theorem readsAll_random_iff : ReadsAll Form.random.tokens ps args ↔
    ∃ x mask, (Instr.random x mask).Fits ∧ ps = instrParts (.random x mask) ∧
      args = argsOf (.random x mask) := by
  rw [Form.tokens, readsAll_fixed_cons_iff rfl]
  simp only [readsAll_reg_comma_iff, readsAll_number_iff]
  constructor
  · rintro ⟨_, rfl, x, _, _, rfl, rfl, hx, mask, hMask, rfl, rfl⟩
    exact ⟨x, mask, ⟨hx, hMask⟩, rfl, rfl⟩
  · rintro ⟨x, mask, ⟨hx, hMask⟩, rfl, rfl⟩
    exact ⟨_, rfl, x, _, _, rfl, rfl, hx, mask, hMask, rfl, rfl⟩

theorem readsAll_draw_iff : ReadsAll Form.draw.tokens ps args ↔
    ∃ x y rows, (Instr.draw x y rows).Fits ∧ ps = instrParts (.draw x y rows) ∧
      args = argsOf (.draw x y rows) := by
  rw [Form.tokens, readsAll_fixed_cons_iff rfl]
  simp only [readsAll_reg_comma_iff, readsAll_number_iff]
  constructor
  · rintro ⟨_, rfl, x, _, _, rfl, rfl, hx, y, _, _, rfl, rfl, hy, rows, hRows, rfl, rfl⟩
    exact ⟨x, y, rows, ⟨hx, hy, hRows⟩, rfl, rfl⟩
  · rintro ⟨x, y, rows, ⟨hx, hy, hRows⟩, rfl, rfl⟩
    exact ⟨_, rfl, x, _, _, rfl, rfl, hx, y, _, _, rfl, rfl, hy, rows, hRows, rfl, rfl⟩

end Instructions

/-! ## Statements and forms -/

theorem values_numbers (ns : List Nat) : Form.values (ns.map .number) = ns.map Nat.cast := by
  induction ns with
  | nil => rfl
  | cons n ns ih => exact congrArg (List.cons (n : Int)) ih

theorem forall_mem_cast {limit : Nat} {ns : List Nat} (h : ∀ m ∈ ns, m ≤ limit) :
    ∀ n ∈ ns.map (Nat.cast : Nat → Int), 0 ≤ n ∧ n ≤ limit := by
  intro n hn
  obtain ⟨m, hm, rfl⟩ := List.mem_map.1 hn
  exact ⟨Int.natCast_nonneg m, Int.ofNat_le.2 (h m hm)⟩

/-- A list of numbers within a limit is a list of natural numbers. -/
theorem exists_cons_cast {limit : Nat} {values : List Int} (hne : values ≠ [])
    (h : ∀ n ∈ values, 0 ≤ n ∧ n ≤ limit) :
    ∃ n ns, values = (n :: ns).map (Nat.cast : Nat → Int) ∧ ∀ m ∈ n :: ns, m ≤ limit := by
  have hNat : (values.map Int.toNat).map (Nat.cast : Nat → Int) = values := by
    rw [List.map_map]
    refine (List.map_congr_left fun n hn => ?_).trans (List.map_id values)
    exact Int.toNat_of_nonneg (h n hn).1
  obtain ⟨n, ns, hCons⟩ := List.exists_cons_of_ne_nil (l := values.map Int.toNat) (by simpa using hne)
  refine ⟨n, ns, by rw [← hCons, hNat], fun m hm => ?_⟩
  rw [← hCons] at hm
  obtain ⟨v, hv, rfl⟩ := List.mem_map.1 hm
  have := h v hv
  omega

/-- What may follow an instruction on one register is a second register of a shift. -/
theorem Tail.Reads.of_single {op : SingleOp} {ps : List Part} {args : List Arg}
    (h : (Form.single op).tail.Reads ps args) : args = [] ∧
      (ps = [] ∨ (op = .shiftRight ∨ op = .shiftLeft) ∧ ∃ y, y.Exists ∧ ps = [.comma, .reg y]) := by
  cases op with
  | shiftRight =>
      cases h with
      | noRegister => exact ⟨rfl, .inl rfl⟩
      | register hy => exact ⟨rfl, .inr ⟨.inl rfl, _, hy, rfl⟩⟩
  | shiftLeft =>
      cases h with
      | noRegister => exact ⟨rfl, .inl rfl⟩
      | register hy => exact ⟨rfl, .inr ⟨.inr rfl, _, hy, rfl⟩⟩
  | _ =>
      cases h
      exact ⟨rfl, .inl rfl⟩

section Lists

variable {k : String} {field : Field} {front back : List Part} {args more : List Arg}

/-- A list of numbers that are read consists of a first one and of those that follow. -/
theorem exists_numbers_of_reads (hTokens : ReadsAll [.keyword k, .number field] front args)
    (hTail : (Tail.numbers field).Reads back more) : ∃ n ns,
      (∀ m ∈ n :: ns, m ≤ field.limit) ∧ args ++ more = (n :: ns).map .number ∧
        front ++ back = .fixed k.toList :: listParts ((n :: ns).map Nat.cast) := by
  obtain ⟨qs, rfl, hNumber⟩ := (readsAll_fixed_cons_iff rfl).1 hTokens
  obtain ⟨p, rfl, hFirst⟩ := readsAll_singleton_iff.1 hNumber
  cases hFirst with
  | fixed h => cases h
  | @number _ n hn =>
      cases hTail with
      | @numbers _ ns hns => exact ⟨n, ns, List.forall_mem_cons.2 ⟨hn, hns⟩, rfl, rfl⟩

theorem reads_of_numbers (k : String) (field : Field) {n : Nat} {ns : List Nat}
    (h : ∀ m ∈ n :: ns, m ≤ field.limit) :
    ReadsAll [.keyword k, .number field] [.fixed k.toList, .number n] [.number n] ∧
      (Tail.numbers field).Reads (furtherParts (ns.map Nat.cast)) (ns.map .number) := by
  obtain ⟨hn, hns⟩ := List.forall_mem_cons.1 h
  exact ⟨.cons (.fixed rfl) (.cons (.number hn) .nil), .numbers hns⟩

/-- The form of a list stands for its word and one number or more, with commas in between. -/
theorem Form.reads_list_iff {f : Form} {ps : List Part} {s : Statement} (k : String)
    (field : Field) (make : List Int → Statement)
    (hTokens : f.tokens = [.keyword k, .number field]) (hTail : f.tail = .numbers field)
    (hMake : ∀ args, f.statement? args = some (make (Form.values args))) :
    f.Reads ps s ↔ ∃ values : List Int,
      (values ≠ [] ∧ ∀ n ∈ values, 0 ≤ n ∧ n ≤ field.limit) ∧
        ps = .fixed k.toList :: listParts values ∧ s = make values := by
  constructor
  · rintro ⟨hFront, hBack, hStatement⟩
    rw [hTokens] at hFront
    rw [hTail] at hBack
    obtain ⟨n, ns, hLimit, hArgs, hParts⟩ := exists_numbers_of_reads hFront hBack
    rw [hMake, hArgs, values_numbers] at hStatement
    exact ⟨_, ⟨List.cons_ne_nil _ _, forall_mem_cast hLimit⟩, hParts,
      (Option.some.inj hStatement).symm⟩
  · rintro ⟨values, ⟨hne, hFits⟩, rfl, rfl⟩
    obtain ⟨n, ns, rfl, hLimit⟩ := exists_cons_cast hne hFits
    obtain ⟨hFront, hBack⟩ := reads_of_numbers k field hLimit
    rw [← hTokens] at hFront
    rw [← hTail] at hBack
    refine Form.Reads.intro hFront hBack ((hMake _).trans ?_)
    exact congrArg (fun values => some (make values)) (values_numbers (n :: ns))

end Lists

theorem reads_bytes_iff {ps : List Part} {s : Statement} :
    Form.bytes.Reads ps s ↔ ∃ values, (Statement.bytes values).Fits ∧
      ps = (Statement.bytes values).parts ∧ s = .bytes values :=
  Form.reads_list_iff "DB" .byte .bytes rfl rfl fun _ => rfl

theorem reads_words_iff {ps : List Part} {s : Statement} :
    Form.words.Reads ps s ↔ ∃ values, (Statement.words values).Fits ∧
      ps = (Statement.words values).parts ∧ s = .words values :=
  Form.reads_list_iff "DW" .word .words rfl rfl fun _ => rfl

/-- What the form of an instruction makes of its operands is the instruction. -/
theorem fits_consists_of_formOf {i : Instr} {s : Statement} (hFits : i.Fits)
    (hStatement : (formOf i).statement? (argsOf i ++ []) = some s) :
    s.Fits ∧ s.Consists (instrParts i ++ []) := by
  rw [List.append_nil, statement?_formOf hFits] at hStatement
  cases hStatement
  rw [List.append_nil]
  exact ⟨hFits, .plain _⟩

/-- What a form stands for is a statement that fits. -/
theorem Form.Reads.fits_consists {f : Form} {ps : List Part} {s : Statement} (hf : f ≠ .unknown)
    (h : f.Reads ps s) : s.Fits ∧ s.Consists ps := by
  cases f with
  | bytes =>
      obtain ⟨values, hFits, rfl, rfl⟩ := reads_bytes_iff.1 h
      exact ⟨hFits, .plain _⟩
  | words =>
      obtain ⟨values, hFits, rfl, rfl⟩ := reads_words_iff.1 h
      exact ⟨hFits, .plain _⟩
  | unknown => exact absurd rfl hf
  | label =>
      obtain ⟨hTokens, ⟨⟩, hStatement⟩ := h
      obtain ⟨p, qs, first, rest, rfl, rfl, hName, hColon⟩ := readsAll_cons_iff.1 hTokens
      obtain ⟨rfl, rfl⟩ := (readsAll_fixed_iff rfl).1 hColon
      cases hName with
      | fixed h => cases h
      | name name =>
          cases hStatement
          exact ⟨trivial, .plain _⟩
  | bare op =>
      obtain ⟨hTokens, ⟨⟩, hStatement⟩ := h
      obtain ⟨rfl, rfl⟩ := (readsAll_fixed_iff (tokens_bare op)).1 hTokens
      exact fits_consists_of_formOf (i := .bare op) trivial hStatement
  | address op =>
      obtain ⟨hTokens, ⟨⟩, hStatement⟩ := h
      rcases readsAll_address_form_iff.1 hTokens with ⟨addr, hFits, rfl, rfl⟩ | ⟨name, rfl, rfl⟩
      · exact fits_consists_of_formOf hFits hStatement
      · cases hStatement
        rw [List.append_nil]
        exact ⟨trivial, .plain _⟩
  | binary op =>
      obtain ⟨hTokens, ⟨⟩, hStatement⟩ := h
      obtain ⟨x, y, hFits, rfl, rfl⟩ := readsAll_binary_iff.1 hTokens
      exact fits_consists_of_formOf hFits hStatement
  | pair op =>
      obtain ⟨hTokens, ⟨⟩, hStatement⟩ := h
      obtain ⟨x, y, hFits, rfl, rfl⟩ := readsAll_pair_iff.1 hTokens
      exact fits_consists_of_formOf hFits hStatement
  | random =>
      obtain ⟨hTokens, ⟨⟩, hStatement⟩ := h
      obtain ⟨x, mask, hFits, rfl, rfl⟩ := readsAll_random_iff.1 hTokens
      exact fits_consists_of_formOf hFits hStatement
  | draw =>
      obtain ⟨hTokens, ⟨⟩, hStatement⟩ := h
      obtain ⟨x, y, rows, hFits, rfl, rfl⟩ := readsAll_draw_iff.1 hTokens
      exact fits_consists_of_formOf hFits hStatement
  | single op =>
      obtain ⟨hTokens, hTail, hStatement⟩ := h
      obtain ⟨x, hFits, rfl, rfl⟩ := readsAll_single_iff.1 hTokens
      obtain ⟨rfl, rfl | ⟨hOp, y, hy, rfl⟩⟩ := hTail.of_single
      · exact fits_consists_of_formOf hFits hStatement
      · cases hStatement
        exact ⟨hFits, .shift x hOp hy⟩

/-- The tokens of an instruction stand for its parts, and say what its operands do. -/
theorem readsAll_formOf {i : Instr} (h : i.Fits) :
    ReadsAll (formOf i).tokens (instrParts i) (argsOf i) := by
  cases i with
  | bare op => exact (readsAll_fixed_iff (tokens_bare op)).2 ⟨rfl, rfl⟩
  | address op addr => exact readsAll_address_form_iff.2 (.inl ⟨addr, h, rfl, rfl⟩)
  | binary op x y => exact readsAll_binary_iff.2 ⟨x, y, h, rfl, rfl⟩
  | pair op x y => exact readsAll_pair_iff.2 ⟨x, y, h, rfl, rfl⟩
  | single op x => exact readsAll_single_iff.2 ⟨x, h, rfl, rfl⟩
  | random x mask => exact readsAll_random_iff.2 ⟨x, mask, h, rfl, rfl⟩
  | draw x y rows => exact readsAll_draw_iff.2 ⟨x, y, rows, h, rfl, rfl⟩

theorem reads_tail_formOf (i : Instr) : (formOf i).tail.Reads [] [] := by
  cases i with
  | single op x =>
      cases op with
      | shiftRight => exact .noRegister
      | shiftLeft => exact .noRegister
      | _ => exact .none
  | _ => exact .none

/-- The form of an instruction stands for its parts, with what may follow them. -/
theorem formOf_reads {i : Instr} (h : i.Fits) {ps : List Part}
    (hTail : (formOf i).tail.Reads ps []) : (formOf i).Reads (instrParts i ++ ps) (.instr i) := by
  refine .intro (readsAll_formOf h) hTail ?_
  rw [List.append_nil]
  exact statement?_formOf h

/-- Every statement that fits has a form that stands for its parts. -/
theorem Statement.Consists.exists_form_reads {s : Statement} {ps : List Part} (h : s.Consists ps)
    (hFits : s.Fits) : ∃ f : Form, f ≠ .unknown ∧ f.Reads ps s := by
  cases h with
  | plain =>
      cases s with
      | label name =>
          have hTokens : ReadsAll (Form.tokens .label) [.name name, .fixed [':']] [.text name] :=
            .cons (.name name) (.cons (.fixed rfl) .nil)
          exact ⟨.label, Form.noConfusion, .intro hTokens .none rfl⟩
      | instr i =>
          have hReads := formOf_reads hFits (reads_tail_formOf i)
          rw [List.append_nil] at hReads
          exact ⟨formOf i, formOf_ne_unknown i, hReads⟩
      | ref op name =>
          have hReads := Form.Reads.intro (f := .address op)
            (readsAll_address_form_iff.2 (.inr ⟨name, rfl, rfl⟩)) .none rfl
          rw [List.append_nil] at hReads
          exact ⟨.address op, Form.noConfusion, hReads⟩
      | bytes values =>
          exact ⟨.bytes, Form.noConfusion, reads_bytes_iff.2 ⟨values, hFits, rfl, rfl⟩⟩
      | words values =>
          exact ⟨.words, Form.noConfusion, reads_words_iff.2 ⟨values, hFits, rfl, rfl⟩⟩
      | unknown line => exact absurd hFits id
  | @shift op x y hOp hy =>
      refine ⟨.single op, Form.noConfusion, formOf_reads (i := .single op x) hFits ?_⟩
      rcases hOp with rfl | rfl
      · exact .register hy
      · exact .register hy

/-- The forms stand for the parts of the statements that fit, and for nothing else. -/
theorem exists_form_reads_iff {s : Statement} {ps : List Part} :
    (∃ f : Form, f ≠ .unknown ∧ f.Reads ps s) ↔ s.Fits ∧ s.Consists ps := by
  constructor
  · rintro ⟨f, hf, hReads⟩
    exact hReads.fits_consists hf
  · rintro ⟨hFits, hConsists⟩
    exact hConsists.exists_form_reads hFits

end Chip8.Assembly
