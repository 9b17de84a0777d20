import WordMachine.Proofs.Source.Operand
import WordMachine.Proofs.Source.Passes
import WordMachine.Proofs.Source.Statement
import WordMachine.Proofs.Text.Words

/-! What the assembler says of a source. The language is given here by its stripped lines: which of
them declare a name, what each place for an operand takes, and in which order the checks of an
instruction are made. -/

namespace WordMachine

open Text Operand

/-- A token that does not suit its place, with what is said of it. A target is a decimal number or
refers to a declared name, with or without a dot before it. -/
inductive Unsuited (declared : List Char → Prop) : Slot → List Char → Cause.Kind → Cause → Prop
  | register {token : List Char} (unnamed : ∀ r, ¬NamesRegister token r) :
    Unsuited declared .register token .operand (.badRegister token)
  | immediate {token : List Char} (unwritten : ∀ n ≤ 0xFF, ¬Numeral 10 token n) :
    Unsuited declared .immediate token .operand (.badImmediate token)
  | address {token : List Char} (unwritten : ∀ n, ¬WritesAddress token n) :
    Unsuited declared .address token .operand (.badAddress token)
  | large {token : List Char} {n : Nat} (numeral : Numeral 10 token n) (above : maxTarget < n) :
    Unsuited declared .target token .operand (.targetTooLarge token)
  | undeclared {token : List Char} (symbolic : ∀ n, ¬Numeral 10 token n)
    (unknown : ¬declared token) (undotted : ∀ name, token = '.' :: name → ¬declared name) :
    Unsuited declared .target token .label (.undefinedLabel ((afterDot? token).getD token))

/-- The first token from the left that does not suit its place. -/
inductive FirstUnsuited (declared : List Char → Prop) :
    List Slot → List (List Char) → Cause.Kind → Cause → Prop
  | here {slot slots token tokens kind cause} (unsuited : Unsuited declared slot token kind cause) :
    FirstUnsuited declared (slot :: slots) (token :: tokens) kind cause
  | later {slot slots token tokens kind cause}
    (suited : ∀ other reason, ¬Unsuited declared slot token other reason)
    (rest : FirstUnsuited declared slots tokens kind cause) :
    FirstUnsuited declared (slot :: slots) (token :: tokens) kind cause

/-- Tokens that are no instruction, with the first check that they fail: the mnemonic in any case,
then the number of tokens, then the operands. -/
inductive Malformed (declared : List Char → Prop) : List (List Char) → Cause.Kind → Cause → Prop
  | mnemonic {name operands} (unknown : ∀ op : Op, op.mnemonic.toList ≠ lowerCase name) :
    Malformed declared (name :: operands) .form (.unknownMnemonic name)
  | count {op : Op} {name operands} (known : op.mnemonic.toList = lowerCase name)
    (differs : (name :: operands).length ≠ op.tokens) :
    Malformed declared (name :: operands) .form (.operandCount op)
  | operand {op : Op} {name operands kind cause} (known : op.mnemonic.toList = lowerCase name)
    (counted : (name :: operands).length = op.tokens)
    (first : FirstUnsuited declared op.slots operands kind cause) :
    Malformed declared (name :: operands) kind cause

def DeclaredAt (texts : List (List Char)) (index : Nat) (name : List Char) : Prop :=
  ∃ rest, texts[index]? = some ('.' :: rest) ∧ trim rest = name

def Declared (texts : List (List Char)) (name : List Char) : Prop :=
  ∃ index, DeclaredAt texts index name

def BadDeclaration (texts : List (List Char)) (index : Nat) (cause : Cause) : Prop :=
  ∃ name, DeclaredAt texts index name ∧
    (name = [] ∧ cause = .emptyLabel ∨
      name ≠ [] ∧ cause = .duplicateLabel name ∧ ∃ earlier < index, DeclaredAt texts earlier name)

/-- A line that is neither empty nor a declaration, and no instruction either. -/
def BadStatement (texts : List (List Char)) (index : Nat) (kind : Cause.Kind) (cause : Cause) :
    Prop :=
  ∃ text, texts[index]? = some text ∧ text ≠ [] ∧ text.head? ≠ some '.' ∧
    Malformed (Declared texts) (words text) kind cause

/-- A reading fails exactly for what is wrong, and says so. -/
def RefusedFor {α : Type} (result : Except Cause α) (wrong : Cause.Kind → Cause → Prop) : Prop :=
  ∀ kind cause, wrong kind cause ↔ result = .error cause ∧ kind = cause.kind

namespace RefusedFor

variable {α β : Type} {declared : List Char → Prop} {slot : Slot} {slots : List Slot}
  {token : List Char} {tokens : List (List Char)}

theorem accept (value : α) {wrong : Cause.Kind → Cause → Prop}
    (fine : ∀ kind cause, ¬wrong kind cause) : RefusedFor (.ok value) wrong := by
  intro kind cause
  simp only [reduceCtorEq, false_and, iff_false]
  exact fine kind cause

theorem refuse {reason : Cause} {wrong : Cause.Kind → Cause → Prop}
    (apt : wrong reason.kind reason)
    (only : ∀ kind cause, wrong kind cause → kind = reason.kind ∧ cause = reason) :
    RefusedFor (.error reason : Except Cause α) wrong := by
  intro kind cause
  rw [Except.error.injEq]
  constructor
  · intro amiss
    obtain ⟨rfl, rfl⟩ := only kind cause amiss
    exact ⟨rfl, rfl⟩
  · intro equal
    obtain ⟨rfl, rfl⟩ := equal
    exact apt

theorem nothing (value : α) : RefusedFor (.ok value) (FirstUnsuited declared [] []) :=
  accept value nofun

theorem step {first : Except Cause α} {next : α → Except Cause β}
    (opening : RefusedFor first (Unsuited declared slot token))
    (rest : ∀ value, RefusedFor (next value) (FirstUnsuited declared slots tokens)) :
    RefusedFor (first >>= next) (FirstUnsuited declared (slot :: slots) (token :: tokens)) := by
  cases first with
  | error found =>
    have unsuited := (opening found.kind found).2 ⟨rfl, rfl⟩
    apply refuse (.here unsuited)
    intro kind cause first
    cases first with
    | here other =>
      obtain ⟨same, kinds⟩ := (opening kind cause).1 other
      obtain rfl := Except.error.inj same
      exact ⟨kinds, rfl⟩
    | later suited => exact absurd unsuited (suited _ _)
  | ok value =>
    have suited : ∀ other reason, ¬Unsuited declared slot token other reason := by
      intro other reason unsuited
      cases ((opening other reason).1 unsuited).1
    intro kind cause
    change _ ↔ next value = _ ∧ _
    rw [← rest value kind cause]
    constructor
    · intro first
      cases first with
      | here unsuited => exact absurd unsuited (suited _ _)
      | later _ others => exact others
    · exact .later suited

theorem single {result : Except Cause α} (opening : RefusedFor result (Unsuited declared slot token)) :
    RefusedFor result (FirstUnsuited declared [slot] [token]) := by
  have whole := opening.step nothing
  cases result <;> exact whole

theorem map {result : Except Cause α} {wrong : Cause.Kind → Cause → Prop}
    (refused : RefusedFor result wrong) (f : α → β) : RefusedFor (f <$> result) wrong := by
  intro kind cause
  rw [refused kind cause]
  cases result <;> simp [Functor.map, Except.map]

theorem expect {reader : List Char → Option α} {reason : List Char → Cause}
    {wrong : Cause.Kind → Cause → Prop}
    (apt : reader token = none → wrong (reason token).kind (reason token))
    (only : ∀ kind cause, wrong kind cause →
      reader token = none ∧ kind = (reason token).kind ∧ cause = reason token) :
    RefusedFor (Statement.expect reader reason token) wrong := by
  rw [Statement.expect]
  cases read : reader token with
  | none =>
    apply refuse (apt read)
    intro kind cause amiss
    exact (only kind cause amiss).2
  | some value =>
    apply accept value
    intro kind cause amiss
    simp [(only kind cause amiss).1] at read

end RefusedFor

section Operands

variable {declared : List Char → Prop}

theorem register_refusedFor (token : List Char) :
    RefusedFor (Statement.register token) (Unsuited declared .register token) := by
  apply RefusedFor.expect
  · intro unread
    exact .register (register?_eq_none_iff.1 unread)
  · intro kind cause unsuited
    cases unsuited with
    | register unnamed => exact ⟨register?_eq_none_iff.2 unnamed, rfl, rfl⟩

theorem immediate_refusedFor (token : List Char) :
    RefusedFor (Statement.immediate token) (Unsuited declared .immediate token) := by
  apply RefusedFor.expect
  · intro unread
    exact .immediate (immediate?_eq_none_iff.1 unread)
  · intro kind cause unsuited
    cases unsuited with
    | immediate unwritten => exact ⟨immediate?_eq_none_iff.2 unwritten, rfl, rfl⟩

theorem address_refusedFor (token : List Char) :
    RefusedFor (Statement.address token) (Unsuited declared .address token) := by
  apply RefusedFor.expect
  · intro unread
    exact .address (address?_eq_none_iff.1 unread)
  · intro kind cause unsuited
    cases unsuited with
    | address unwritten => exact ⟨address?_eq_none_iff.2 unwritten, rfl, rfl⟩

end Operands

section Resolution

variable {declared : List Char → Prop} {symbols : Symbols}
  (bound : ∀ name, (symbols.offset? name).isSome ↔ declared name)

include bound

theorem resolve?_eq_none_iff (reference : List Char) : symbols.resolve? reference = none ↔
    ¬declared reference ∧ ∀ name, reference = '.' :: name → ¬declared name := by
  have missing : ∀ name, symbols.offset? name = none ↔ ¬declared name := by
    intro name
    rw [← bound, Option.not_isSome_iff_eq_none]
  rw [Symbols.resolve?, Option.or_eq_none_iff, missing]
  apply and_congr_right
  intro unbound
  unfold afterDot?
  split
  · next rest =>
    rw [Option.bind_some, missing]
    constructor
    · intro unknown name same
      obtain rfl := (List.cons.inj same).2
      exact unknown
    · intro unknown
      exact unknown rest rfl
  · next other =>
    simp only [Option.bind_none, true_iff]
    intro name dotted
    exact absurd dotted (other name)

theorem target_refusedFor (j : Jump) (token : List Char) :
    RefusedFor (Statement.target token >>= fun goal => (Instr.jump j goal).resolve symbols)
      (Unsuited declared .target token) := by
  rw [Statement.target, Statement.expect]
  cases read : target? token with
  | none =>
    obtain ⟨n, numeral, above⟩ := target?_eq_none_iff.1 read
    apply RefusedFor.refuse (.large numeral above)
    intro kind cause unsuited
    cases unsuited with
    | large => exact ⟨rfl, rfl⟩
    | undeclared symbolic => exact absurd numeral (symbolic n)
  | some goal =>
    change RefusedFor ((Instr.jump j goal).resolve symbols) _
    cases goal with
    | literal address =>
      obtain ⟨numeral, within⟩ := target?_eq_literal_iff.1 read
      apply RefusedFor.accept
      intro kind cause unsuited
      cases unsuited with
      | large large above =>
        have same := large.unique numeral
        omega
      | undeclared symbolic => exact symbolic _ numeral
    | label reference =>
      obtain ⟨rfl, symbolic⟩ := target?_eq_label_iff.1 read
      have absent := resolve?_eq_none_iff bound reference
      rw [Instr.resolve]
      cases found : symbols.resolve? reference with
      | some address =>
        apply RefusedFor.accept
        intro kind cause unsuited
        cases unsuited with
        | large large => exact symbolic _ large
        | undeclared _ unknown undotted => simp [absent.2 ⟨unknown, undotted⟩] at found
      | none =>
        obtain ⟨unknown, undotted⟩ := absent.1 found
        apply RefusedFor.refuse (.undeclared symbolic unknown undotted)
        intro kind cause unsuited
        cases unsuited with
        | large large => exact absurd large (symbolic _)
        | undeclared => exact ⟨rfl, rfl⟩

theorem operands_refusedFor {op : Op} {tokens : List (List Char)}
    (counted : tokens.length = op.slots.length) :
    RefusedFor (Statement.operands op tokens >>= Instr.resolve symbols)
      (FirstUnsuited declared op.slots tokens) := by
  cases op with
  | alu f =>
    obtain ⟨first, second, third, rfl⟩ := List.length_eq_three.1 counted
    simp only [Statement.operands, bind_assoc, pure_bind]
    apply (register_refusedFor first).step
    intro left
    apply (register_refusedFor second).step
    intro right
    apply (register_refusedFor third).step
    intro dst
    exact .nothing _
  | aluImm f =>
    obtain ⟨first, second, third, rfl⟩ := List.length_eq_three.1 counted
    simp only [Statement.operands, bind_assoc, pure_bind]
    apply (immediate_refusedFor first).step
    intro imm
    apply (register_refusedFor second).step
    intro src
    apply (register_refusedFor third).step
    intro dst
    exact .nothing _
  | transfer t =>
    obtain ⟨first, second, rfl⟩ := List.length_eq_two.1 counted
    simp only [Statement.operands, bind_assoc, pure_bind]
    apply (register_refusedFor first).step
    intro reg
    apply (address_refusedFor second).step
    intro addr
    exact .nothing _
  | cmp =>
    obtain ⟨first, second, rfl⟩ := List.length_eq_two.1 counted
    simp only [Statement.operands, bind_assoc, pure_bind]
    apply (register_refusedFor first).step
    intro left
    apply (register_refusedFor second).step
    intro right
    exact .nothing _
  | jump j =>
    obtain ⟨first, rfl⟩ := List.length_eq_one_iff.1 counted
    simp only [Statement.operands, bind_assoc, pure_bind]
    exact (target_refusedFor bound j first).single
  | bare b =>
    obtain rfl := List.length_eq_zero_iff.1 counted
    exact .nothing _

theorem word_refusedFor (name : List Char) (operands : List (List Char)) :
    RefusedFor ((Line.statement (name :: operands)).word symbols)
      (Malformed declared (name :: operands)) := by
  rw [Line.word_statement]
  apply RefusedFor.map
  rw [Statement.parse, List.headD_cons, List.tail_cons]
  cases read : Op.ofMnemonic? (lowerCase name) with
  | none =>
    have unknown := Op.ofMnemonic?_eq_none_iff.1 read
    apply RefusedFor.refuse (.mnemonic unknown)
    intro kind cause malformed
    cases malformed with
    | mnemonic => exact ⟨rfl, rfl⟩
    | count known => exact absurd known (unknown _)
    | operand known => exact absurd known (unknown _)
  | some op =>
    have known := Op.ofMnemonic?_eq_some_iff.1 read
    have same : ∀ other : Op, other.mnemonic.toList = lowerCase name → other = op := by
      intro other again
      exact Option.some.inj ((Op.ofMnemonic?_eq_some_iff.2 again).symm.trans read)
    have length : (name :: operands).length = op.tokens ↔ operands.length = op.slots.length := by
      rw [op.tokens_eq, List.length_cons, Nat.add_right_cancel_iff]
    change RefusedFor (Statement.operands op operands >>= Instr.resolve symbols) _
    by_cases counted : operands.length = op.slots.length
    · intro kind cause
      rw [← operands_refusedFor bound counted]
      constructor
      · intro malformed
        cases malformed with
        | mnemonic unknown => exact absurd known (unknown op)
        | count again differs => exact absurd (length.2 counted) (same _ again ▸ differs)
        | operand again _ first => exact same _ again ▸ first
      · exact .operand known (length.2 counted)
    · rw [Statement.operands_of_length_ne counted]
      apply RefusedFor.refuse (.count known fun equal => counted (length.1 equal))
      intro kind cause malformed
      cases malformed with
      | mnemonic unknown => exact absurd known (unknown op)
      | count again =>
        rw [same _ again]
        exact ⟨rfl, rfl⟩
      | operand again equal => exact absurd (length.1 (same _ again ▸ equal)) counted

end Resolution

section Lines

theorem getElem?_map_ofStripped_iff {texts : List (List Char)} {index : Nat} {name : List Char} :
    (texts.map Line.ofStripped)[index]? = some (.label name) ↔ DeclaredAt texts index name := by
  rw [List.getElem?_map, Option.map_eq_some_iff]
  constructor
  · intro labelled
    obtain ⟨text, here, label⟩ := labelled
    obtain ⟨rest, rfl, trimmed⟩ := Line.ofStripped_eq_label_iff.1 label
    exact ⟨rest, here, trimmed⟩
  · intro declares
    obtain ⟨rest, here, trimmed⟩ := declares
    exact ⟨_, here, Line.ofStripped_eq_label_iff.2 ⟨rest, rfl, trimmed⟩⟩

theorem badDeclaration_iff {texts : List (List Char)} {index : Nat} {cause : Cause} :
    BadDeclaration texts index cause ↔ Misdeclared (texts.map Line.ofStripped) index cause := by
  simp only [BadDeclaration, Misdeclared, getElem?_map_ofStripped_iff]

theorem declared_iff {texts : List (List Char)} {name : List Char} :
    Declared texts name ↔ (Symbols.lineOf? (texts.map Line.ofStripped) name).isSome := by
  rw [Symbols.lineOf?_isSome_iff, Declared]
  simp only [getElem?_map_ofStripped_iff]
  refine exists_congr fun index => ⟨fun declares => ⟨?_, declares⟩, And.right⟩
  obtain ⟨rest, here, -⟩ := declares
  rw [List.length_map]
  exact (List.getElem?_eq_some_iff.1 here).1

theorem badStatement_iff {raws : List (List Char)} {symbols : Symbols}
    (bound : ∀ name, (symbols.offset? name).isSome ↔ Declared (raws.map strip) name)
    {index : Nat} {kind : Cause.Kind} {cause : Cause} :
    BadStatement (raws.map strip) index kind cause ↔
      Unwritable symbols ((raws.map strip).map Line.ofStripped) index cause ∧ kind = cause.kind := by
  constructor
  · intro bad
    obtain ⟨text, here, filled, undotted, malformed⟩ := bad
    obtain ⟨raw, listed, rfl⟩ := Option.map_eq_some_iff.1 ((List.getElem?_map ..).symm.trans here)
    obtain ⟨name, operands, spelled, line⟩ := Line.ofStripped_strip raw filled undotted
    rw [spelled] at malformed
    obtain ⟨refused, same⟩ := (word_refusedFor bound name operands kind cause).1 malformed
    exact ⟨⟨_, by rw [List.getElem?_map, here, Option.map_some], line.symm ▸ refused⟩, same⟩
  · intro refused
    obtain ⟨⟨line, here, refused⟩, same⟩ := refused
    rw [List.getElem?_map] at here
    obtain ⟨text, inside, rfl⟩ := Option.map_eq_some_iff.1 here
    obtain ⟨raw, listed, rfl⟩ := Option.map_eq_some_iff.1 ((List.getElem?_map ..).symm.trans inside)
    by_cases filled : strip raw = []
    · rw [filled] at refused
      cases refused
    · by_cases undotted : (strip raw).head? = some '.'
      · obtain ⟨rest, dotted⟩ := List.head?_eq_some_iff.1 undotted
        rw [dotted] at refused
        cases refused
      · obtain ⟨name, operands, spelled, line⟩ := Line.ofStripped_strip raw filled undotted
        rw [line] at refused
        have malformed := (word_refusedFor bound name operands kind cause).2 ⟨refused, same⟩
        exact ⟨_, inside, filled, undotted, spelled.symm ▸ malformed⟩

/-- The assembler says of a source what is wrong with its first bad declaration. If there is none it
says what is wrong with the first line that is no instruction, and else it yields the table of all
declared names with four times the index of each. -/
theorem assemble_diagnosis (source : List Char) :
    (∀ index cause, BadDeclaration (strippedLines source) index cause →
      (∀ earlier < index, ∀ other, ¬BadDeclaration (strippedLines source) earlier other) →
      assemble source = .error ⟨index + 1, cause⟩ ∧ cause.kind = .label) ∧
    ((∀ index cause, ¬BadDeclaration (strippedLines source) index cause) →
      (∀ index kind cause, BadStatement (strippedLines source) index kind cause →
        (∀ earlier < index, ∀ other reason,
          ¬BadStatement (strippedLines source) earlier other reason) →
        assemble source = .error ⟨index + 1, cause⟩ ∧ cause.kind = kind) ∧
      ((∀ index kind cause, ¬BadStatement (strippedLines source) index kind cause) →
        ∃ assembly, assemble source = .ok assembly ∧
          ∀ name offset, assembly.symbols.offset? name = some offset ↔ ∃ index,
            DeclaredAt (strippedLines source) index name ∧ offset = UInt32.ofNat (4 * index))) := by
  rw [assemble_eq]
  constructor
  · intro index cause wrong before
    refine ⟨assembleLines_eq_error_of_misdeclared ⟨index, rfl, badDeclaration_iff.1 wrong, ?_⟩, ?_⟩
    · intro earlier less other amiss
      exact before earlier less other (badDeclaration_iff.2 amiss)
    · obtain ⟨name, -, ⟨-, rfl⟩ | ⟨-, rfl, -⟩⟩ := wrong <;> rfl
  · intro fine
    have stands : ∀ index cause, ¬Misdeclared ((strippedLines source).map Line.ofStripped) index cause :=
      fun index cause wrong => fine index cause (badDeclaration_iff.2 wrong)
    obtain ⟨symbols, collected, -, table⟩ | ⟨fault, -, index, -, wrong, -⟩ :=
      Symbols.ofLines_cases ((strippedLines source).map Line.ofStripped)
    · have bound : ∀ name, (symbols.offset? name).isSome ↔ Declared (strippedLines source) name := by
        intro name
        rw [table, Option.isSome_map, declared_iff]
      constructor
      · intro index kind cause wrong before
        obtain ⟨amiss, same⟩ := (badStatement_iff bound).1 wrong
        refine ⟨assembleLines_eq_error_of_unwritable collected ⟨index, rfl, amiss, ?_⟩, same.symm⟩
        intro earlier less other refused
        exact before earlier less _ other ((badStatement_iff bound).2 ⟨refused, rfl⟩)
      · intro good
        obtain ⟨words, assembled⟩ := exists_assembleLines_eq_ok collected fun index cause refused =>
          good index _ cause ((badStatement_iff bound).2 ⟨refused, rfl⟩)
        refine ⟨_, assembled, ?_⟩
        intro name offset
        rw [table, Option.map_eq_some_iff]
        simp only [Symbols.lineOf?_eq_some_iff stands, getElem?_map_ofStripped_iff, slot_eq]
        exact exists_congr fun index => and_congr_right fun _ => eq_comm
    · exact absurd wrong (stands index _)

theorem assemble_diagnosis_three :
    assemble "hlt\n.".toList = .error ⟨2, .emptyLabel⟩ ∧
      assemble ".a\nhlt".toList = .error ⟨2, .unknownMnemonic "hlt".toList⟩ ∧
      ∃ assembly, assemble "\n.a".toList = .ok assembly ∧
        assembly.symbols.offset? "a".toList = some 4 := by
  refine ⟨?_, ?_, ?_⟩
  · refine ((assemble_diagnosis "hlt\n.".toList).1 1 .emptyLabel ⟨[], ⟨[], rfl, rfl⟩, .inl ⟨rfl, rfl⟩⟩ ?_).1
    intro earlier less other declares
    obtain ⟨name, ⟨rest, dotted, -⟩, -⟩ := declares
    obtain rfl : earlier = 0 := by omega
    cases dotted
  · have fine : ∀ index cause, ¬BadDeclaration (strippedLines ".a\nhlt".toList) index cause := by
      intro index cause bad
      obtain ⟨name, ⟨rest, dotted, trimmed⟩, wrong⟩ := bad
      rcases index with _ | _ | index
      · obtain rfl : rest = ['a'] := (List.cons.inj (Option.some.inj dotted)).2.symm
        obtain rfl : name = ['a'] := trimmed.symm
        simp at wrong
      · cases dotted
      · cases dotted
    refine (((assemble_diagnosis ".a\nhlt".toList).2 fine).1 1 .form _
      ⟨"hlt".toList, rfl, by decide, by decide, ?_⟩ ?_).1
    · exact .mnemonic (Op.ofMnemonic?_eq_none_iff.1 (by decide))
    · intro earlier less other reason bad
      obtain ⟨text, here, -, undotted, -⟩ := bad
      obtain rfl : earlier = 0 := by omega
      obtain rfl : ".a".toList = text := Option.some.inj here
      exact undotted rfl
  · have fine : ∀ index cause, ¬BadDeclaration (strippedLines "\n.a".toList) index cause := by
      intro index cause bad
      obtain ⟨name, ⟨rest, dotted, trimmed⟩, wrong⟩ := bad
      rcases index with _ | _ | index
      · cases dotted
      · obtain rfl : rest = ['a'] := (List.cons.inj (Option.some.inj dotted)).2.symm
        obtain rfl : name = ['a'] := trimmed.symm
        obtain ⟨empty, -⟩ | ⟨-, -, earlier, less, other, dotted, -⟩ := wrong
        · cases empty
        · obtain rfl : earlier = 0 := by omega
          cases dotted
      · cases dotted
    have good : ∀ index kind cause, ¬BadStatement (strippedLines "\n.a".toList) index kind cause := by
      intro index kind cause bad
      obtain ⟨text, here, filled, undotted, -⟩ := bad
      rcases index with _ | _ | index
      · exact filled (Option.some.inj here).symm
      · obtain rfl : ".a".toList = text := Option.some.inj here
        exact undotted rfl
      · cases here
    obtain ⟨assembly, assembled, table⟩ := ((assemble_diagnosis "\n.a".toList).2 fine).2 good
    exact ⟨assembly, assembled, (table _ 4).2 ⟨1, ⟨['a'], rfl, rfl⟩, rfl⟩⟩

end Lines

end WordMachine
