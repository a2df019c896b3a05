import Chip8.Assembly.Statement
import Chip8.Assembly.Token

/-!
# Forms of statements

The grammar is an ordered list of forms.  A form is a sequence of tokens, then a tail: nothing, a
second register that is ignored, or more values of a list.  At each place the first form that can be
read is the statement, with no way back to a later one.  The last form takes any line that is left,
so where no form can be read the text is at its end or at white space of a kind that may not stand
between tokens.
-/

namespace Chip8.Assembly

/-- The form of a statement. -/
inductive Form where
  /-- A name and a colon. -/
  | label
  /-- A mnemonic alone. -/
  | bare (op : BareOp)
  /-- A mnemonic and an address. -/
  | address (op : AddressOp)
  /-- A mnemonic, a register, and a register or byte. -/
  | binary (op : BinaryOp)
  /-- A mnemonic and two registers. -/
  | pair (op : PairOp)
  /-- A mnemonic and one register, among operands that are fixed. -/
  | single (op : SingleOp)
  /-- The mnemonic `RND`, a register and a byte. -/
  | random
  /-- The mnemonic `DRW`, two registers and a nibble. -/
  | draw
  /-- The word `DB` and bytes. -/
  | bytes
  /-- The word `DW` and 16-bit words. -/
  | words
  /-- Any other line. -/
  | unknown
deriving DecidableEq, Repr

/-- What may follow the tokens of a form. -/
inductive Tail where
  /-- Nothing. -/
  | none
  /-- A comma and a register, which say nothing. -/
  | register
  /-- Any number of commas, each with a number. -/
  | numbers (field : Field)
deriving DecidableEq, Repr

namespace Form

/-- The comma between operands. -/
def comma : Token := .mark ','

/-- The operand `[I]`. -/
def atIndex : List Token := [.mark '[', .index, .mark ']']

/-- The tokens of the form. -/
def tokens : Form → List Token
  | .label => [.name, .mark ':']
  | .bare op => [.keyword (match op with | .clear => "CLS" | .ret => "RET")]
  | .address .sys => [.keyword "SYS", .address]
  | .address .jump => [.keyword "JP", .address]
  | .address .call => [.keyword "CALL", .address]
  | .address .setIndex => [.keyword "LD", .keyword "I", comma, .address]
  | .address .jumpV0 => [.keyword "JP", .v0, comma, .address]
  | .binary op =>
    [.keyword (match op with | .skipEq => "SE" | .skipNe => "SNE" | .load => "LD" | .add => "ADD"),
      .reg, comma, .regOrByte]
  | .pair op =>
    [.keyword (match op with
        | .or => "OR" | .and => "AND" | .xor => "XOR" | .sub => "SUB" | .subn => "SUBN"),
      .reg, comma, .reg]
  | .single .shiftRight => [.keyword "SHR", .reg]
  | .single .shiftLeft => [.keyword "SHL", .reg]
  | .single .skipHeld => [.keyword "SKP", .reg]
  | .single .skipFree => [.keyword "SKNP", .reg]
  | .single .getDelay => [.keyword "LD", .reg, comma, .keyword "DT"]
  | .single .awaitKey => [.keyword "LD", .reg, comma, .keyword "K"]
  | .single .setDelay => [.keyword "LD", .keyword "DT", comma, .reg]
  | .single .setSound => [.keyword "LD", .keyword "ST", comma, .reg]
  | .single .addIndex => [.keyword "ADD", .keyword "I", comma, .reg]
  | .single .glyph => [.keyword "LD", .keyword "F", comma, .reg]
  | .single .decimal => [.keyword "LD", .keyword "B", comma, .reg]
  | .single .save => .keyword "LD" :: atIndex ++ [comma, .reg]
  | .single .restore => [.keyword "LD", .reg, comma] ++ atIndex
  | .random => [.keyword "RND", .reg, comma, .number .byte]
  | .draw => [.keyword "DRW", .reg, comma, .reg, comma, .number .nibble]
  | .bytes => [.keyword "DB", .number .byte]
  | .words => [.keyword "DW", .number .word]
  | .unknown => [.line]

/-- What may follow the tokens of the form. -/
def tail : Form → Tail
  | .single .shiftRight => .register
  | .single .shiftLeft => .register
  | .bytes => .numbers .byte
  | .words => .numbers .word
  | _ => .none

/-- The numbers among the operands. -/
def values (args : List Arg) : List Int :=
  args.filterMap fun
    | .number n => some (n : Int)
    | _ => none

/-- The statement that the form and its operands make.  The tokens of a form give operands of the
kinds that are matched here. -/
def statement? : Form → List Arg → Option Statement
  | .label, [.text name] => some (.label name)
  | .bare op, [] => some (.instr (.bare op))
  | .address op, [.number addr] => some (.instr (.address op addr))
  | .address op, [.text name] => some (.ref op name)
  | .binary op, [.reg x, .reg y] => some (.instr (.binary op x (.reg y)))
  | .binary op, [.reg x, .number n] => some (.instr (.binary op x (.imm n)))
  | .pair op, [.reg x, .reg y] => some (.instr (.pair op x y))
  | .single op, [.reg x] => some (.instr (.single op x))
  | .random, [.reg x, .number n] => some (.instr (.random x n))
  | .draw, [.reg x, .reg y, .number n] => some (.instr (.draw x y n))
  | .bytes, args => some (.bytes (values args))
  | .words, args => some (.words (values args))
  | .unknown, [.text line] => some (.unknown line)
  | _, _ => none

/-- The forms in the order in which they are tried. -/
def order : List Form := [
  -- A name before a colon is a label, mnemonics and registers included.
  .label, .bare .clear, .bare .ret, .address .sys, .address .call,
  -- `JP V0` alone jumps to a label of this name, so the comma has to be looked for first.
  .address .jumpV0, .address .jump,
  .binary .skipEq, .binary .skipNe, .single .skipHeld, .single .skipFree,
  .single .addIndex, .binary .add, .pair .or, .pair .and, .pair .xor, .pair .subn, .pair .sub,
  .single .shiftRight, .single .shiftLeft, .random, .draw,
  -- At most one form of `LD` can be read at a place: each operand tells two of them apart.
  .address .setIndex, .single .setDelay, .single .setSound, .single .glyph, .single .decimal,
  .single .save, .single .getDelay, .single .awaitKey, .single .restore, .binary .load,
  .bytes, .words, .unknown]

end Form

/-- Reads commas with numbers for as long as there are any. -/
def readNumbers (field : Field) (c : Cursor) : Attempt (List Arg) :=
  match _h : Token.readAll [Form.comma, .number field] c with
  -- A comma without a number is not read.
  | .miss => .hit [] c
  | .abort e => .abort e
  | .hit args next => (readNumbers field next).map (args ++ ·)
termination_by c.rest.length
decreasing_by
  have := Token.length_le_of_readAll _h
  simp only [List.length_cons, List.length_nil] at this
  omega

/-- Reads what may follow the tokens of a form; this never misses. -/
def Tail.read : Tail → Cursor → Attempt (List Arg)
  | .none, c => .hit [] c
  | .register, c =>
    ((Token.readAll [Form.comma, .reg] c).map fun _ => []).orElse fun _ => .hit [] c
  | .numbers field, c => readNumbers field c

/-- Reads a statement of the form. -/
def Form.read (f : Form) (c : Cursor) : Attempt Statement :=
  (Token.readAll f.tokens c).andThen fun args mid =>
    (f.tail.read mid).andThen fun more next =>
      match f.statement? (args ++ more) with
      | some s => .hit s next
      | none => .miss

/-- Reads a statement of the first form that can be read. -/
def readFirst : List Form → Cursor → Attempt Statement
  | [], _ => .miss
  | f :: fs, c => (f.read c).orElse fun _ => readFirst fs c

/-- Reads the statement at the cursor. -/
def readStatement (c : Cursor) : Attempt Statement :=
  readFirst Form.order c

/-! ## Progress -/

theorem length_le_of_readNumbers {field : Field} {c next : Cursor} {args : List Arg}
    (h : readNumbers field c = .hit args next) : next.rest.length ≤ c.rest.length := by
  fun_induction readNumbers field c generalizing args with
  | case1 c hMiss =>
    cases h
    exact Nat.le_refl _
  | case2 c e hAbort => cases h
  | case3 c first mid hHit ih =>
    obtain ⟨others, hOthers, -⟩ := Attempt.map_eq_hit_iff.1 h
    have := ih hOthers
    have := Token.length_le_of_readAll hHit
    omega

theorem Tail.length_le_of_read {t : Tail} {c next : Cursor} {args : List Arg}
    (h : t.read c = .hit args next) : next.rest.length ≤ c.rest.length := by
  cases t with
  | none =>
    cases h
    exact Nat.le_refl _
  | register =>
    simp only [Tail.read, Attempt.orElse_eq_hit_iff, Attempt.map_eq_hit_iff] at h
    rcases h with ⟨first, hRead, -⟩ | ⟨-, h⟩
    · have := Token.length_le_of_readAll hRead
      omega
    · cases h
      exact Nat.le_refl _
  | numbers field => exact length_le_of_readNumbers h

theorem Form.tokens_ne_nil (f : Form) : f.tokens ≠ [] := by
  cases f with
  | address op => cases op <;> simp [tokens]
  | single op => cases op <;> simp [tokens]
  | _ => simp [tokens]

theorem Form.length_lt_of_read {f : Form} {c next : Cursor} {s : Statement}
    (h : f.read c = .hit s next) : next.rest.length < c.rest.length := by
  obtain ⟨args, mid, hTokens, h⟩ := Attempt.andThen_eq_hit_iff.1 h
  obtain ⟨more, last, hTail, h⟩ := Attempt.andThen_eq_hit_iff.1 h
  have hLast : last = next := by
    split at h <;> cases h
    rfl
  subst hLast
  have := Token.length_le_of_readAll hTokens
  have := List.length_pos_iff.2 f.tokens_ne_nil
  have := Tail.length_le_of_read hTail
  omega

theorem length_lt_of_readFirst {fs : List Form} {c next : Cursor} {s : Statement}
    (h : readFirst fs c = .hit s next) : next.rest.length < c.rest.length := by
  induction fs with
  | nil => cases h
  | cons f fs ih =>
    rcases Attempt.orElse_eq_hit_iff.1 h with h | ⟨-, h⟩
    · exact Form.length_lt_of_read h
    · exact ih h

/-- A statement that is read has at least one character. -/
theorem length_lt_of_readStatement {c next : Cursor} {s : Statement}
    (h : readStatement c = .hit s next) : next.rest.length < c.rest.length :=
  length_lt_of_readFirst h

end Chip8.Assembly
