import Mathlib.Data.List.Basic
import WordMachine.Proofs.Text.Numeral
import WordMachine.Proofs.Text.Words
import WordMachine.Source.Assembly

/-! Instructions as they are written: which tokens each of them may be read off. -/

namespace WordMachine

open Text Operand

def strippedLines (source : List Char) : List (List Char) := (lines source).map strip

theorem assemble_eq (source : List Char) :
    assemble source = assembleLines ((strippedLines source).map Line.ofStripped) := by
  rw [assemble, strippedLines, List.map_map]
  rfl

section Comments

def code (line : List Char) : List Char := line.takeWhile (· ≠ ';')

theorem code_append {first : List Char} (plain : ';' ∉ first) (rest : List Char) :
    code (first ++ rest) = first ++ code rest := by
  apply List.takeWhile_append_of_pos
  intro c member
  exact decide_eq_true fun same => plain (same ▸ member)

theorem code_append_of_mem {first : List Char} (commented : ';' ∈ first) (rest : List Char) :
    code (first ++ rest) = code first := by
  obtain ⟨before, after, rfl, plain⟩ := List.eq_append_cons_of_mem commented
  have stopped (more : List Char) : code (before ++ ';' :: more) = before := by
    rw [code_append plain]
    exact List.append_nil before
  rw [List.append_assoc, List.cons_append, stopped, stopped]

theorem code_eq_self {line : List Char} (plain : ';' ∉ line) : code line = line := by
  have whole := code_append plain []
  rw [List.append_nil] at whole
  exact whole.trans (List.append_nil line)

theorem semicolon_notMem_blanks {blanks : List Char} (blank : ∀ c ∈ blanks, isBlank c) : ';' ∉ blanks :=
  fun member => absurd (blank _ member) (by decide)

theorem strip_blanks_append {blanks : List Char} (blank : ∀ c ∈ blanks, isBlank c) (line : List Char) :
    strip (blanks ++ line) = strip line := by
  change trim (code (blanks ++ line)) = trim (code line)
  rw [code_append (semicolon_notMem_blanks blank), trim_blanks_append blank]

theorem strip_append_blanks {blanks : List Char} (blank : ∀ c ∈ blanks, isBlank c) (line : List Char) :
    strip (line ++ blanks) = strip line := by
  change trim (code (line ++ blanks)) = trim (code line)
  by_cases commented : ';' ∈ line
  · rw [code_append_of_mem commented]
  · rw [code_append commented, code_eq_self (semicolon_notMem_blanks blank), code_eq_self commented,
      trim_append_blanks blank]

theorem strip_append_comment (line note : List Char) : strip (line ++ ';' :: note) = strip line := by
  change trim (code (line ++ ';' :: note)) = trim (code line)
  by_cases commented : ';' ∈ line
  · rw [code_append_of_mem commented]
  · rw [code_append commented, code_eq_self commented]
    exact congrArg trim (List.append_nil line)

end Comments

/-- What a place for an operand takes. -/
inductive Slot
  | register | immediate | address | target
  deriving DecidableEq, Repr

def Op.slots : Op → List Slot
  | .alu _ => [.register, .register, .register]
  | .aluImm _ => [.immediate, .register, .register]
  | .transfer _ => [.register, .address]
  | .cmp => [.register, .register]
  | .jump _ => [.target]
  | .bare _ => []

theorem Op.tokens_eq (op : Op) : op.tokens = op.slots.length + 1 := by
  cases op <;> rfl

theorem Op.ofMnemonic?_eq_some_iff {name : List Char} {op : Op} :
    ofMnemonic? name = some op ↔ op.mnemonic.toList = name := by
  constructor
  · intro found
    simpa using List.find?_some found
  · intro same
    subst same
    exact ofMnemonic?_mnemonic op

theorem Op.ofMnemonic?_eq_none_iff {name : List Char} :
    ofMnemonic? name = none ↔ ∀ op : Op, op.mnemonic.toList ≠ name := by
  simp only [Option.eq_none_iff_forall_ne_some, ne_eq, ofMnemonic?_eq_some_iff]

/-- The operands of an instruction, each in a token that is read as it. -/
inductive Spells : Instr Reg Target → List (List Char) → Prop
  | alu {f first second third left right dst} (one : register? first = some left)
    (two : register? second = some right) (three : register? third = some dst) :
    Spells (.alu f left right dst) [first, second, third]
  | aluImm {f first second third imm src dst} (one : immediate? first = some imm)
    (two : register? second = some src) (three : register? third = some dst) :
    Spells (.aluImm f imm src dst) [first, second, third]
  | transfer {t first second reg addr} (one : register? first = some reg)
    (two : address? second = some addr) : Spells (.transfer t reg addr) [first, second]
  | cmp {first second left right} (one : register? first = some left)
    (two : register? second = some right) : Spells (.cmp left right) [first, second]
  | jump {j first goal} (one : target? first = some goal) : Spells (.jump j goal) [first]
  | bare {b} : Spells (.bare b) []

namespace Statement

theorem operands_of_length_ne {op : Op} {tokens : List (List Char)}
    (differs : tokens.length ≠ op.slots.length) :
    operands op tokens = .error (.operandCount op) := by
  unfold operands
  split
  case h_7 => rfl
  all_goals exact absurd rfl differs

theorem bind_eq_ok_iff {α β : Type} {first : Except Cause α} {next : α → Except Cause β}
    {result : β} : (first >>= next) = .ok result ↔
      ∃ value, first = .ok value ∧ next value = .ok result := by
  cases first <;> simp [bind, Except.bind]

theorem expect_eq_ok_iff {α : Type} {reader : List Char → Option α} {reason : List Char → Cause}
    {token : List Char} {value : α} :
    expect reader reason token = .ok value ↔ reader token = some value := by
  rw [expect]
  cases reader token <;> simp

theorem spells_of_operands {op : Op} {tokens : List (List Char)} {i : Instr Reg Target}
    (read : operands op tokens = .ok i) : i.op = op ∧ Spells i tokens := by
  by_cases counted : tokens.length = op.slots.length
  · cases op with
    | alu f =>
      obtain ⟨first, second, third, rfl⟩ := List.length_eq_three.1 counted
      simp only [operands, bind_eq_ok_iff, register, expect_eq_ok_iff] at read
      obtain ⟨left, one, right, two, dst, three, same⟩ := read
      obtain rfl := Except.ok.inj same
      exact ⟨rfl, .alu one two three⟩
    | aluImm f =>
      obtain ⟨first, second, third, rfl⟩ := List.length_eq_three.1 counted
      simp only [operands, bind_eq_ok_iff, register, immediate, expect_eq_ok_iff] at read
      obtain ⟨imm, one, src, two, dst, three, same⟩ := read
      obtain rfl := Except.ok.inj same
      exact ⟨rfl, .aluImm one two three⟩
    | transfer t =>
      obtain ⟨first, second, rfl⟩ := List.length_eq_two.1 counted
      simp only [operands, bind_eq_ok_iff, register, address, expect_eq_ok_iff] at read
      obtain ⟨reg, one, addr, two, same⟩ := read
      obtain rfl := Except.ok.inj same
      exact ⟨rfl, .transfer one two⟩
    | cmp =>
      obtain ⟨first, second, rfl⟩ := List.length_eq_two.1 counted
      simp only [operands, bind_eq_ok_iff, register, expect_eq_ok_iff] at read
      obtain ⟨left, one, right, two, same⟩ := read
      obtain rfl := Except.ok.inj same
      exact ⟨rfl, .cmp one two⟩
    | jump j =>
      obtain ⟨first, rfl⟩ := List.length_eq_one_iff.1 counted
      simp only [operands, bind_eq_ok_iff, target, expect_eq_ok_iff] at read
      obtain ⟨goal, one, same⟩ := read
      obtain rfl := Except.ok.inj same
      exact ⟨rfl, .jump one⟩
    | bare b =>
      obtain rfl := List.length_eq_zero_iff.1 counted
      obtain rfl := Except.ok.inj read
      exact ⟨rfl, .bare⟩
  · rw [operands_of_length_ne counted] at read
    cases read

theorem parse_of_known {name : List Char} {op : Op} (known : Op.ofMnemonic? (lowerCase name) = some op)
    (tokens : List (List Char)) : parse (name :: tokens) = operands op tokens := by
  simp only [parse, List.headD_cons, List.tail_cons, known]

theorem spells_of_parse {name : List Char} {operands : List (List Char)} {i : Instr Reg Target}
    (read : parse (name :: operands) = .ok i) :
    i.op.mnemonic.toList = lowerCase name ∧ Spells i operands := by
  rw [parse, List.headD_cons, List.tail_cons] at read
  cases known : Op.ofMnemonic? (lowerCase name) with
  | none => simp [known] at read
  | some op =>
    rw [known] at read
    obtain ⟨rfl, spells⟩ := spells_of_operands read
    exact ⟨Op.ofMnemonic?_eq_some_iff.1 known, spells⟩

end Statement

theorem Line.ofStripped_eq_label_iff {text name : List Char} :
    Line.ofStripped text = .label name ↔ ∃ rest, text = '.' :: rest ∧ trim rest = name := by
  unfold Line.ofStripped
  split
  · simp
  · next rest => simp
  · next other =>
    simp only [reduceCtorEq, false_iff]
    intro declares
    obtain ⟨rest, dotted, -⟩ := declares
    exact other rest dotted

theorem Line.ofStripped_strip (raw : List Char) (filled : strip raw ≠ [])
    (undotted : (strip raw).head? ≠ some '.') : ∃ name operands,
      words (strip raw) = name :: operands ∧
        Line.ofStripped (strip raw) = .statement (name :: operands) := by
  obtain ⟨c, rest, shape⟩ := List.exists_cons_of_ne_nil filled
  rw [shape] at undotted ⊢
  obtain ⟨name, operands, spelled⟩ :=
    List.exists_cons_of_ne_nil (words_cons_ne_nil (isBlank_head_trim shape) rest)
  refine ⟨name, operands, spelled, ?_⟩
  unfold Line.ofStripped
  split
  · next empty => cases empty
  · next more dotted =>
    obtain rfl := (List.cons.inj dotted).1
    exact absurd rfl undotted
  · rw [spelled]

theorem Line.word_statement (symbols : Symbols) (tokens : List (List Char)) :
    (statement tokens).word symbols =
      Instr.encode <$> (Statement.parse tokens >>= Instr.resolve symbols) := by
  rw [word]
  cases Statement.parse tokens with
  | error cause => rfl
  | ok written =>
    change (written.resolve symbols >>= fun resolved => pure resolved.encode) =
      Instr.encode <$> written.resolve symbols
    cases written.resolve symbols <;> rfl

theorem Line.word_statement_ok {symbols : Symbols} {tokens : List (List Char)} {w : Word}
    (encoded : (statement tokens).word symbols = .ok w) : ∃ written i,
      Statement.parse tokens = .ok written ∧ written.resolve symbols = .ok i ∧ i.encode = w := by
  rw [word_statement] at encoded
  cases resolved : Statement.parse tokens >>= Instr.resolve symbols with
  | error cause =>
    rw [resolved] at encoded
    cases encoded
  | ok i =>
    obtain ⟨written, parsed, found⟩ := Statement.bind_eq_ok_iff.1 resolved
    rw [resolved] at encoded
    exact ⟨written, i, parsed, found, Except.ok.inj encoded⟩

theorem Line.words_of_ofStripped {text : List Char} {tokens : List (List Char)}
    (read : ofStripped text = .statement tokens) : words text = tokens := by
  unfold ofStripped at read
  split at read
  · cases read
  · cases read
  · exact statement.inj read

def JumpsToNumber (text : List Char) (n : Nat) : Prop :=
  ∃ name token j, words text = [name, token] ∧ lowerCase name = (Op.jump j).mnemonic.toList ∧
    Numeral 10 token n

def JumpsToLabel (text : List Char) (j : Jump) (reference : List Char) : Prop :=
  ∃ name, words text = [name, reference] ∧ lowerCase name = (Op.jump j).mnemonic.toList ∧
    ∀ n, ¬Numeral 10 reference n

/-- A line that has a word holds no instruction, or spells the instruction that the word encodes. -/
theorem Line.word_cases {symbols : Symbols} {line : Line} {w : Word}
    (encoded : line.word symbols = .ok w) :
    (∀ tokens, line ≠ .statement tokens) ∧ w = .padding ∨ ∃ name operands written i,
      line = .statement (name :: operands) ∧ written.op.mnemonic.toList = lowerCase name ∧
      Spells written operands ∧ written.resolve symbols = .ok i ∧ i.encode = w := by
  cases line with
  | blank | label => exact .inl ⟨nofun, (Except.ok.inj encoded).symm⟩
  | statement tokens =>
    obtain ⟨written, i, parsed, resolved, same⟩ := word_statement_ok encoded
    cases tokens with
    | nil => cases parsed
    | cons name operands =>
      obtain ⟨named, spells⟩ := Statement.spells_of_parse parsed
      exact .inr ⟨name, operands, written, i, rfl, named, spells, resolved, same⟩

end WordMachine
