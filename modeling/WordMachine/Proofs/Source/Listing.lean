import WordMachine.Image
import WordMachine.Proofs.Isa.Decoding
import WordMachine.Proofs.Source.Operand
import WordMachine.Proofs.Source.Passes
import WordMachine.Proofs.Source.Statement
import WordMachine.Proofs.Text.Words

/-! Listings as sources. Every word of an assembled image is the word of an instruction whose numbers
have room in it, and the text of such an instruction is a line that is encoded as that word. -/

namespace WordMachine

open Text

theorem Op.mnemonic_isAlphanum (op : Op) : ∀ c ∈ op.mnemonic.toList, c.isAlphanum := by
  have every : ∀ op ∈ all, op.mnemonic.toList.all Char.isAlphanum := by decide +kernel
  exact List.all_eq_true.1 (every op (mem_all op))

theorem Op.solid_mnemonic (op : Op) : Solid op.mnemonic.toList := by
  have filled : ∀ op ∈ all, op.mnemonic.toList ≠ [] := by decide +kernel
  exact .of_isAlphanum (filled op (mem_all op)) op.mnemonic_isAlphanum

theorem Op.lowerCase_mnemonic (op : Op) : lowerCase op.mnemonic.toList = op.mnemonic.toList := by
  have every : ∀ op ∈ all, lowerCase op.mnemonic.toList = op.mnemonic.toList := by decide +kernel
  exact every op (mem_all op)

theorem Statement.parse_mnemonic (op : Op) (tokens : List (List Char)) :
    parse (op.mnemonic.toList :: tokens) = operands op tokens :=
  parse_of_known (by rw [op.lowerCase_mnemonic, Op.ofMnemonic?_mnemonic]) tokens

namespace Instr

def literal : Instr Reg UInt32 → Instr Reg Target
  | .alu f left right dst => .alu f left right dst
  | .aluImm f imm src dst => .aluImm f imm src dst
  | .transfer t reg addr => .transfer t reg addr
  | .cmp left right => .cmp left right
  | .jump j target => .jump j (.literal target)
  | .bare b => .bare b

theorem resolve_literal (symbols : Symbols) (i : Instr Reg UInt32) :
    i.literal.resolve symbols = .ok i := by
  cases i <;> rfl

abbrev texts (labels : Labels) (i : Instr Reg UInt32) : List (List Char) :=
  (i.mapReg Fin.val).operandTexts labels

abbrev numberTexts (i : Instr Reg UInt32) : List (List Char) :=
  (i.mapReg Fin.val).operandTexts .empty

theorem text_eq (labels : Labels) (i : Instr Reg UInt32) :
    i.text labels = [' '].intercalate (i.op.mnemonic.toList :: i.texts labels) := by
  rw [text, render, op_mapReg]

theorem texts_cases (labels : Labels) (i : Instr Reg UInt32) :
    (∀ j target, i = .jump j target → labels.name? target = none) ∧ i.texts labels = i.numberTexts ∨
      ∃ j target name, i = .jump j target ∧ labels.name? target = some name ∧
        i.texts labels = [name] := by
  cases i with
  | alu | aluImm | transfer | cmp | bare => exact .inl ⟨nofun, rfl⟩
  | jump j target =>
    cases named : labels.name? target with
    | none =>
      refine .inl ⟨?_, ?_⟩
      · intro k address jumps
        rw [← (jump.inj jumps).2, named]
      · simp only [texts, numberTexts, mapReg, operandTexts, named, Labels.name?_empty]
    | some name =>
      refine .inr ⟨j, target, name, rfl, named, ?_⟩
      simp only [texts, mapReg, operandTexts, named, Option.getD_some]

theorem operands_numberTexts {i : Instr Reg UInt32} (fits : i.Fits) :
    Statement.operands i.op i.numberTexts = .ok i.literal := by
  cases i with
  | alu f left right dst =>
    simp only [op, numberTexts, mapReg, operandTexts, Statement.operands, Statement.register,
      Statement.expect, Operand.register?_decimal]
    rfl
  | aluImm f imm src dst =>
    have inside : imm.toNat ≤ 0xFF := Nat.le_of_lt_succ fits
    simp only [op, numberTexts, mapReg, operandTexts, Statement.operands, Statement.register,
      Statement.immediate, Statement.expect, Operand.register?_decimal,
      Operand.immediate?_decimal inside]
    rfl
  | transfer t reg addr =>
    have inside : addr.toNat ≤ 0xFFFF := Nat.le_of_lt_succ fits
    simp only [op, numberTexts, mapReg, operandTexts, Statement.operands, Statement.register,
      Statement.address, Statement.expect, Operand.register?_decimal,
      Operand.address?_hex inside]
    rfl
  | cmp left right =>
    simp only [op, numberTexts, mapReg, operandTexts, Statement.operands, Statement.register,
      Statement.expect, Operand.register?_decimal]
    rfl
  | jump j target =>
    have inside : target.toNat ≤ maxTarget := Nat.le_of_lt_succ fits
    simp only [op, numberTexts, mapReg, operandTexts, Statement.operands, Statement.target,
      Statement.expect, Labels.name?_empty, Option.getD_none, Operand.target?_decimal inside]
    rfl
  | bare b => rfl

theorem solid_of_digits {base value : Nat} {text : List Char} (digits : Digits base text value) :
    (∀ c ∈ text, c.isAlphanum) ∧ text ≠ [] := by
  refine ⟨?_, digits.ne_nil⟩
  intro c member
  obtain ⟨digit, found⟩ := digits.exists_digit c member
  exact isAlphanum_of_digitValue found

theorem alphanum_tokens (i : Instr Reg UInt32) :
    ∀ token ∈ i.op.mnemonic.toList :: i.numberTexts,
      (∀ c ∈ token, c.isAlphanum) ∧ token ≠ [] := by
  have mnemonic : (∀ c ∈ i.op.mnemonic.toList, c.isAlphanum) ∧ i.op.mnemonic.toList ≠ [] :=
    ⟨i.op.mnemonic_isAlphanum, i.op.solid_mnemonic.filled⟩
  have number (n : Nat) := solid_of_digits (digits_decimal n)
  have address (n : Nat) := solid_of_digits (digits_hex 4 n)
  cases i with
  | alu f left right dst =>
    exact List.forall_mem_cons.2 ⟨mnemonic, List.forall_mem_cons.2 ⟨number _,
      List.forall_mem_cons.2 ⟨number _, List.forall_mem_singleton.2 (number _)⟩⟩⟩
  | aluImm f imm src dst =>
    exact List.forall_mem_cons.2 ⟨mnemonic, List.forall_mem_cons.2 ⟨number _,
      List.forall_mem_cons.2 ⟨number _, List.forall_mem_singleton.2 (number _)⟩⟩⟩
  | transfer t reg addr =>
    exact List.forall_mem_cons.2 ⟨mnemonic, List.forall_mem_cons.2 ⟨number _,
      List.forall_mem_singleton.2 (address _)⟩⟩
  | cmp left right =>
    exact List.forall_mem_cons.2 ⟨mnemonic, List.forall_mem_cons.2 ⟨number _,
      List.forall_mem_singleton.2 (number _)⟩⟩
  | jump j target =>
    exact List.forall_mem_cons.2 ⟨mnemonic, List.forall_mem_singleton.2 (number _)⟩
  | bare b => exact List.forall_mem_singleton.2 mnemonic

end Instr

theorem strip_eq_self {text : List Char} (uncommented : ';' ∉ text) (trimmed : trim text = text) :
    strip text = text := by
  change trim (code text) = text
  rw [code_eq_self uncommented, trimmed]

/-- A name can be written on a line and be read as what it was. -/
structure Plain (name : List Char) : Prop where
  solid : Solid name
  uncommented : ';' ∉ name
  symbolic : ∀ n, ¬Numeral 10 name n

/-- The names can stand in a source with these symbols, each for the address that it names. -/
structure Labels.Readable (labels : Labels) (symbols : Symbols) : Prop where
  plain : ∀ address name, labels.name? address = some name → Plain name
  known : ∀ address name, labels.name? address = some name → symbols.resolve? name = some address

theorem Labels.readable_empty (symbols : Symbols) : Labels.empty.Readable symbols where
  plain := nofun
  known := nofun

section Line

variable {labels : Labels} {symbols : Symbols} (readable : labels.Readable symbols)
  (i : Instr Reg UInt32)

namespace Instr

include readable in
theorem tokens_readable : ∀ token ∈ i.op.mnemonic.toList :: i.texts labels,
    Solid token ∧ ';' ∉ token := by
  have number : ∀ token ∈ i.op.mnemonic.toList :: i.numberTexts, Solid token ∧ ';' ∉ token := by
    intro token member
    obtain ⟨every, filled⟩ := i.alphanum_tokens token member
    exact ⟨.of_isAlphanum filled every, fun mark => absurd (every ';' mark) (by decide)⟩
  rcases i.texts_cases labels with ⟨-, same⟩ | ⟨j, target, name, rfl, named, same⟩
  · rw [same]
    exact number
  · rw [same]
    have plain := readable.plain target name named
    exact List.forall_mem_cons.2 ⟨number _ List.mem_cons_self,
      List.forall_mem_singleton.2 ⟨plain.solid, plain.uncommented⟩⟩

include readable in
theorem solid_tokens : ∀ token ∈ i.op.mnemonic.toList :: i.texts labels, Solid token :=
  fun token member => (tokens_readable readable i token member).1

include readable in
theorem strip_text : strip (i.text labels) = i.text labels := by
  have uncommented : ';' ∉ i.text labels := by
    intro comment
    rw [text_eq] at comment
    rcases mem_intercalate comment with between | ⟨token, listed, inside⟩
    · exact absurd between (by decide)
    · exact (tokens_readable readable i token listed).2 inside
  apply strip_eq_self uncommented
  rw [text_eq, trim_intercalate (solid_tokens readable i)]

include readable in
theorem newline_notMem_text : '\n' ∉ i.text labels := by
  intro broken
  rw [text_eq] at broken
  rcases mem_intercalate broken with between | ⟨token, listed, inside⟩
  · exact absurd between (by decide)
  · exact absurd ((solid_tokens readable i token listed).unbroken '\n' inside) (by decide)

theorem exists_text_cons (labels : Labels) :
    ∃ c rest, i.text labels = c :: rest ∧ c.isAlphanum := by
  obtain ⟨c, tail, spelled⟩ := List.exists_cons_of_ne_nil i.op.solid_mnemonic.filled
  have letter := i.op.mnemonic_isAlphanum c (spelled ▸ List.mem_cons_self)
  rw [text_eq, spelled]
  cases i.texts labels with
  | nil => exact ⟨c, tail, List.intercalate_singleton .., letter⟩
  | cons token more => exact ⟨c, _, by rw [List.intercalate_cons_cons]; rfl, letter⟩

theorem text_ne_nil (labels : Labels) : i.text labels ≠ [] := by
  obtain ⟨c, rest, shape, -⟩ := i.exists_text_cons labels
  simp [shape]

include readable in
theorem words_text : words (i.text labels) = i.op.mnemonic.toList :: i.texts labels := by
  rw [text_eq, words_intercalate (solid_tokens readable i)]

include readable in
theorem ofText_text :
    Line.ofText (i.text labels) = .statement (i.op.mnemonic.toList :: i.texts labels) := by
  obtain ⟨c, rest, shape, letter⟩ := i.exists_text_cons labels
  rw [Line.ofText, strip_text readable, ← words_text readable]
  unfold Line.ofStripped
  split
  · next empty => simp [empty] at shape
  · next name dotted =>
    obtain ⟨rfl, -⟩ := List.cons.inj (shape.symm.trans dotted)
    exact absurd letter (by decide)
  · rfl

variable {i}

include readable in
theorem exists_operands_texts (fits : i.Fits) : ∃ written,
    Statement.operands i.op (i.texts labels) = .ok written ∧ written.resolve symbols = .ok i := by
  rcases i.texts_cases labels with ⟨-, same⟩ | ⟨j, target, name, rfl, named, same⟩
  · rw [same]
    exact ⟨i.literal, operands_numberTexts fits, resolve_literal symbols i⟩
  · have read := Operand.target?_eq_label_iff.2 ⟨rfl, (readable.plain target name named).symbolic⟩
    refine ⟨.jump j (.label name), ?_, ?_⟩
    · rw [same]
      simp only [op, Statement.operands, Statement.target, Statement.expect, read]
      rfl
    · rw [resolve, readable.known target name named]

include readable in
theorem word_tokens (fits : i.Fits) :
    (Line.statement (i.op.mnemonic.toList :: i.texts labels)).word symbols = .ok i.encode := by
  obtain ⟨written, read, resolved⟩ := exists_operands_texts readable fits
  rw [Line.word, Statement.parse_mnemonic, read]
  change Except.bind _ _ = _
  rw [Except.bind, resolved]
  rfl

include readable in
theorem word_text (fits : i.Fits) : (Line.ofText (i.text labels)).word symbols = .ok i.encode := by
  rw [ofText_text readable]
  exact word_tokens readable fits

end Instr

end Line

theorem Line.exists_of_word {line : Line} {symbols : Symbols} {w : Word}
    (written : line.word symbols = .ok w) : ∃ i : Instr Reg UInt32, i.Fits ∧ i.encode = w := by
  cases line with
  | blank | label name => exact ⟨.bare .noop, trivial, Except.ok.inj written⟩
  | statement tokens =>
    obtain ⟨-, i, -, -, encoded⟩ := Line.word_statement_ok written
    exact ⟨i.cut, i.fits_cut, i.encode_cut.trans encoded⟩

theorem exists_of_assembleLines {lines : List Line} {assembly : Assembly}
    (assembled : assembleLines lines = .ok assembly) : ∃ program : List (Instr Reg UInt32),
      (∀ i ∈ program, i.Fits) ∧ program.map Instr.encode = assembly.words := by
  have written := (assembleLines_ok assembled).1
  generalize assembly.words = words at written
  clear assembled
  induction words generalizing lines with
  | nil => exact ⟨[], by simp, rfl⟩
  | cons w rest ih =>
    cases lines with
    | nil => simp at written
    | cons line more =>
      obtain ⟨first, others⟩ := List.cons.inj written
      obtain ⟨i, fits, rfl⟩ := Line.exists_of_word first
      obtain ⟨program, every, rfl⟩ := ih others
      exact ⟨i :: program, List.forall_mem_cons.2 ⟨fits, every⟩, rfl⟩

theorem Word.exists_of_decode? {words : List Word} (decodable : ∀ w ∈ words, w.decode? ≠ none) :
    ∃ program : List (Instr Reg UInt32), (∀ i ∈ program, i.Fits) ∧
      words.map Word.decode? = program.map some := by
  induction words with
  | nil => exact ⟨[], by simp, rfl⟩
  | cons w rest ih =>
    obtain ⟨first, others⟩ := List.forall_mem_cons.1 decodable
    obtain ⟨i, decoded⟩ := Option.ne_none_iff_exists'.1 first
    obtain ⟨program, fits, same⟩ := ih others
    refine ⟨i :: program, List.forall_mem_cons.2 ⟨(of_decode? decoded).2, fits⟩, ?_⟩
    rw [List.map_cons, List.map_cons, decoded, same]

theorem map_decode?_encode {program : List (Instr Reg UInt32)} (fits : ∀ i ∈ program, i.Fits) :
    (program.map Instr.encode).map Word.decode? = program.map some := by
  rw [List.map_map]
  exact List.map_congr_left fun i member => Instr.decode?_encode_of_fits (fits i member)

theorem disassemble?_of_decoded (labels : Labels) {words : List Word}
    {program : List (Instr Reg UInt32)} (decoded : words.map Word.decode? = program.map some) :
    disassemble? labels words = some (program.map (Instr.text labels)) := by
  induction words generalizing program with
  | nil =>
    obtain rfl := List.map_eq_nil_iff.1 decoded.symm
    rfl
  | cons w rest ih =>
    obtain ⟨i, others, rfl, first, same⟩ := List.map_eq_cons_iff.1 decoded.symm
    have step := ih same.symm
    rw [disassemble?] at step ⊢
    rw [List.mapM_cons, ← first, step]
    rfl

theorem assemble_joinLines {listing : List (List Char)} {assembly : Assembly}
    (whole : ∀ text ∈ listing, text ≠ [] ∧ '\n' ∉ text)
    (collected : Symbols.ofLines (listing.map Line.ofText) = .ok assembly.symbols)
    (written : (listing.map Line.ofText).map (Line.word assembly.symbols) =
      assembly.words.map .ok) : assemble (joinLines listing) = .ok assembly := by
  rw [assemble, lines_joinLines listing (fun text member => (whole text member).1)
    fun text member => (whole text member).2, assembleLines_eq_ok_iff]
  exact ⟨collected, encodeLines_eq_ok_iff.2 written⟩

/-- A listing in numbers is read back as its program, a line for every instruction. -/
theorem assemble_listing {program : List (Instr Reg UInt32)} (fits : ∀ i ∈ program, i.Fits) :
    assemble (joinLines (program.map (Instr.text .empty))) =
      .ok ⟨program.map Instr.encode, .empty⟩ := by
  have readable := Labels.readable_empty .empty
  apply assemble_joinLines
  · exact List.forall_mem_map.2 fun i _ => ⟨i.text_ne_nil .empty, Instr.newline_notMem_text readable i⟩
  · apply Symbols.ofLines_of_unlabelled
    intro line member name labelled
    rw [List.map_map] at member
    obtain ⟨i, -, rfl⟩ := List.mem_map.1 member
    rw [Function.comp_apply, Instr.ofText_text readable] at labelled
    cases labelled
  · rw [List.map_map, List.map_map, List.map_map]
    exact List.map_congr_left fun i member => Instr.word_text readable (fits i member)

theorem length_wordBytes (words : List Word) : (wordBytes words).length = 4 * words.length := by
  rw [wordBytes, Program.length_flatMap_toList, Nat.mul_comm]
  rfl

/-- Every assembled image has a word for every line of its source, has a listing, and is assembled
again from that listing, which declares no names. -/
theorem disassembly_reassembles {source : List Char} {assembly : Assembly}
    (assembled : assemble source = .ok assembly) :
    assembly.bytes.length = 4 * (lines source).length ∧
      (∀ w ∈ assembly.words, w.decode?.isSome) ∧
      ∃ listing, disassemble? .empty assembly.words = some listing ∧
        assemble (joinLines listing) = .ok ⟨assembly.words, .empty⟩ := by
  obtain ⟨program, fits, encoded⟩ := exists_of_assembleLines assembled
  refine ⟨?_, ?_, program.map (Instr.text .empty), ?_, ?_⟩
  · have sameLength := congrArg List.length (assembleLines_ok assembled).1
    simp only [List.length_map] at sameLength
    rw [Assembly.bytes, length_wordBytes, sameLength]
  · intro w member
    obtain ⟨i, -, rfl⟩ := List.mem_map.1 (encoded ▸ member)
    rw [Instr.decode?_encode]
    rfl
  · rw [← encoded, disassemble?_of_decoded .empty (map_decode?_encode fits)]
  · rw [assemble_listing fits, encoded]

theorem disassembly_reassembles_loop :
    ∃ listing, disassemble? .empty [.padding, ⟨0x01, 5, 0, 2⟩, ⟨0x0A, 2, 0, 0xFF⟩, ⟨0x0D, 0, 0, 0⟩] =
        some listing ∧
      assemble (joinLines listing) =
        .ok ⟨[.padding, ⟨0x01, 5, 0, 2⟩, ⟨0x0A, 2, 0, 0xFF⟩, ⟨0x0D, 0, 0, 0⟩], .empty⟩ := by
  have assembled : assemble ".loop\nADDI 5 zero 2 ; five\nstore 2 0xff\njmp .loop".toList =
      .ok ⟨[.padding, ⟨0x01, 5, 0, 2⟩, ⟨0x0A, 2, 0, 0xFF⟩, ⟨0x0D, 0, 0, 0⟩],
        ⟨[("loop".toList, 0)]⟩⟩ := rfl
  exact (disassembly_reassembles assembled).2.2

end WordMachine
