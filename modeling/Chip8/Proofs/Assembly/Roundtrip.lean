import Chip8.Assembly.Assemble
import Chip8.Proofs.Assembly.Disassembly
import Chip8.Proofs.Assembly.Layout

/-!
# Assembling what was decoded

Line ends mean nothing to the grammar, so a program that is written line by line is read back only
because no statement goes on into the next line.  From this it follows that decoding words, writing
the instructions and assembling them gives the opcodes of these instructions
(`assemble_lines_of_decode`).  Decoding forgets the bits of a word that select nothing, so these are
the words themselves exactly where each of them is the opcode of its instruction.
-/

namespace Chip8.Assembly

/-- The lexemes of instructions, each after the first on a new line. -/
def linesOf (gap : List Char) : List Instr → List Lexeme
  | [] => []
  | i :: is => lexemesOf gap i ++ linesOf ['\n'] is

section Lines

variable {is : List Instr} {gap : List Char}

theorem textOf_linesOf (gap : List Char) (i : Instr) (is : List Instr) :
    textOf (linesOf gap (i :: is)) =
      gap ++ ("\n".intercalate ((i :: is).map Instr.text)).toList := by
  induction is generalizing gap i with
  | nil =>
      rw [linesOf, linesOf, List.append_nil, textOf_lexemesOf]
      simp
  | cons j is ih =>
      rw [linesOf, textOf_append, ih, textOf_lexemesOf]
      simp [String.intercalate_cons_cons]

theorem linesOf_spells (h : ∀ i ∈ is, i.Fits) (gap : List Char) :
    SpellsProgram (linesOf gap is) (is.map Statement.instr) := by
  induction is generalizing gap with
  | nil => exact .nil
  | cons i is ih =>
      have hRest := ih (fun j hj => h j (List.mem_cons_of_mem i hj)) ['\n']
      exact .cons (formOf_ne_unknown i) (formOf_spells (h i List.mem_cons_self) gap) hRest

theorem wellSpaced_linesOf (h : ∀ i ∈ is, i.Fits) {before : Option Char} (hGap : Trivia gap)
    (hClear : Clear (gap.getLast?.or before)) : WellSpaced before (linesOf gap is) := by
  induction is generalizing gap before with
  | nil => trivial
  | cons i is ih =>
      refine (wellSpaced_lexemesOf (h i List.mem_cons_self) hGap hClear).append fun last => ?_
      refine ih (fun j hj => h j (List.mem_cons_of_mem i hj)) (.blank (by decide) .nil) ?_
      intro c hc
      cases hc
      decide

theorem tab_notMem_linesOf (hGap : '\t' ∉ gap) : ∀ x ∈ linesOf gap is, '\t' ∉ x.gap := by
  induction is generalizing gap with
  | nil => exact fun x hx => nomatch hx
  | cons i is ih =>
      intro x hx
      rcases List.mem_append.1 hx with hx | hx
      · exact tab_notMem_spaceOut hGap x hx
      · exact ih (by decide) x hx

/-- Instructions that fit are read back from the lines that are written for them. -/
theorem statements_lines (h : ∀ i ∈ is, i.Fits) :
    statements ("\n".intercalate (is.map Instr.text)) = .ok (is.map Statement.instr) := by
  have hSource : ("\n".intercalate (is.map Instr.text)).toList = textOf (linesOf [] is) := by
    cases is with
    | nil => simp [linesOf, textOf]
    | cons i is => rw [textOf_linesOf, List.nil_append]
  have hSpaced : WellSpaced none (linesOf [] is) := wellSpaced_linesOf h .nil clear_none
  have hTabs : '\t' ∉ textOf (linesOf [] is) :=
    tab_notMem_textOf hSpaced.isLexeme (tab_notMem_linesOf List.not_mem_nil)
  refine statements_of_spells (hSource.trans (List.append_nil _).symm) (hSource ▸ hTabs)
    (linesOf_spells h []) hSpaced (.inl .nil)

/-- Instructions that fit are assembled to their opcodes from the lines that are written for them. -/
theorem assemble_lines (h : ∀ i ∈ is, i.Fits) :
    assemble ("\n".intercalate (is.map Instr.text)) =
      .ok (is.flatMap fun i => wordBytes i.encode.toNat) := by
  rw [assemble, statements_lines h, ok_bind]
  exact Layout.layOut_link_instr fun i hi => (h i hi).encode_bounds

end Lines

theorem fits_of_forall₂_decode? {ws : List Int} {is : List Instr}
    (h : List.Forall₂ (fun w i => Instr.decode? w = some i) ws is) : ∀ i ∈ is, i.Fits := by
  induction h with
  | nil => exact fun i hi => nomatch hi
  | cons hFirst hRest ih =>
      intro i hi
      rcases List.mem_cons.1 hi with rfl | hi
      · exact Instr.fits_of_decode? hFirst
      · exact ih i hi

theorem map_encode_of_forall₂_decode? {ws : List Int} {is : List Instr}
    (h : List.Forall₂ (fun w i => Instr.decode? w = some i) ws is)
    (hSelf : ∀ w ∈ ws, (Instr.decode? w).map Instr.encode = some w) : is.map Instr.encode = ws := by
  induction h with
  | nil => rfl
  | @cons w i ws is hFirst hRest ih =>
      have hWord := hSelf w List.mem_cons_self
      rw [hFirst] at hWord
      rw [List.map_cons, ih fun u hu => hSelf u (List.mem_cons_of_mem w hu),
        Option.some.inj hWord]

/-- Decoded words, written as instructions and assembled, are the opcodes of these instructions.  If
each word is the opcode of its instruction, they are the words. -/
theorem assemble_lines_of_decode {ws : List Int} {is : List Instr}
    (h : ws.mapM Instr.decode? = some is) :
    assemble ("\n".intercalate (is.map Instr.text)) =
        .ok (is.flatMap fun i => wordBytes i.encode.toNat) ∧
      (∀ i ∈ is, 0 ≤ i.encode ∧ i.encode ≤ 0xFFFF) ∧
      ((∀ w ∈ ws, (Instr.decode? w).map Instr.encode = some w) →
        assemble ("\n".intercalate (is.map Instr.text)) =
          .ok (ws.flatMap fun w => wordBytes w.toNat)) := by
  have hAll := mapM_eq_some_iff.1 h
  have hFits := fits_of_forall₂_decode? hAll
  have hBytes := assemble_lines hFits
  refine ⟨hBytes, fun i hi => (hFits i hi).encode_bounds, fun hSelf => ?_⟩
  rw [hBytes, ← map_encode_of_forall₂_decode? hAll hSelf, List.flatMap_map]

/-- The word of a shift that names a second register loses it, and a jump keeps its word. -/
theorem assemble_lines_of_decode_shift :
    ([0x8126, 0xB300] : List Int).mapM Instr.decode? =
        some [.single .shiftRight ⟨1⟩, .address .jumpV0 0x300] ∧
      assemble "SHR V1\nJP V0, 0x300" = .ok [0x81, 0x06, 0xB3, 0x00] := by
  have hDecode : ([0x8126, 0xB300] : List Int).mapM Instr.decode? =
      some [.single .shiftRight ⟨1⟩, .address .jumpV0 0x300] := by decide
  have hText : "\n".intercalate
      (([.single .shiftRight ⟨1⟩, .address .jumpV0 0x300] : List Instr).map Instr.text) =
        "SHR V1\nJP V0, 0x300" := by decide +kernel
  have hBytes := (assemble_lines_of_decode hDecode).1
  rw [hText] at hBytes
  exact ⟨hDecode, hBytes⟩

end Chip8.Assembly
