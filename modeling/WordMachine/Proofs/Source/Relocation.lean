import WordMachine.Proofs.Isa.Codec
import WordMachine.Proofs.Source.Insertion
import WordMachine.Proofs.Source.Operand

/-! The image of a source with a line put in that holds no instruction. The words behind it move by one, and
so do the targets of the jumps to labels; a jump to a number goes on naming that number. -/

namespace WordMachine

open Text Operand

def displaceWord (spot : Nat) (address : UInt32) : UInt32 :=
  if address.toNat < 4 * spot then address else nextWord address

theorem displaceWord_ofNat (spot : Nat) {line : Nat} (low : line ≤ lineSpace) :
    displaceWord spot (UInt32.ofNat (4 * line)) = UInt32.ofNat (4 * displace spot line) := by
  rw [displaceWord, toNat_ofNat_line low]
  by_cases before : line < spot
  · rw [if_pos (by omega), displace_of_lt before]
  · rw [if_neg (by omega), displace_of_le (Nat.le_of_not_lt before), ofNat_succ_line]

/-- The word with another jump target. -/
def Word.withTarget (w : Word) (target : UInt32) : Word :=
  ⟨w.b0, Instr.byteOf target 2, Instr.byteOf target 1, Instr.byteOf target 0⟩

theorem Word.target24_withTarget (w : Word) {target : UInt32} (fits : target.toNat < 0x1000000) :
    (w.withTarget target).target24 = target := by
  rw [← UInt32.toNat_inj, target24_toNat]
  simp only [withTarget, Instr.byteOf_toNat _ 0 (by decide), Instr.byteOf_toNat _ 1 (by decide),
    Instr.byteOf_toNat _ 2 (by decide), UInt32.reduceToNat]
  omega

def Line.jumpsToLabel : Line → Bool
  | .statement [name, operand] =>
    match Op.ofMnemonic? (lowerCase name) with
    | some (.jump _) => !isLiteral operand
    | _ => false
  | _ => false

/-- The word of the line once another line has been put in at `spot`. -/
def Line.relocated (spot : Nat) (line : Line) (w : Word) : Word :=
  if line.jumpsToLabel then w.withTarget (displaceWord spot w.target24) else w

namespace Symbols

def Displaced (spot : Nat) (symbols others : Symbols) : Prop :=
  ∀ name, others.offset? name = (symbols.offset? name).map (displaceWord spot)

theorem Displaced.resolve? {spot : Nat} {symbols others : Symbols} (displaced : symbols.Displaced spot others)
    (reference : List Char) :
    others.resolve? reference = (symbols.resolve? reference).map (displaceWord spot) := by
  rw [Symbols.resolve?, Symbols.resolve?, Option.map_or, displaced]
  congr 1
  cases afterDot? reference with
  | none => rfl
  | some rest => exact displaced rest

theorem displaced_of_ofLines {lines : List Line} {symbols others : Symbols} {spot : Nat}
    (short : lines.length ≤ lineSpace)
    (table : ∀ name, symbols.offset? name = (lineOf? lines name).map slot)
    (newTable : ∀ name, others.offset? name = (lineOf? (lines.insertIdx spot .blank) name).map slot) :
    symbols.Displaced spot others := by
  intro name
  rw [newTable, table, lineOf?_insertIdx, Option.map_map, Option.map_map]
  apply Option.map_congr
  intro index declares
  have inside := lineOf?_lt declares
  rw [Function.comp_apply, Function.comp_apply, slot_eq, slot_eq, displaceWord_ofNat spot (by omega)]

end Symbols

section Words

variable {spot : Nat} {symbols others : Symbols} (displaced : symbols.Displaced spot others)
  (reachable : symbols.Reachable)

include displaced reachable

/-- A jump refers to the same line as before, wherever that is by then. -/
theorem Line.word_jump_displaced {name operand : List Char} {j : Jump} {goal : Target}
    (known : Op.ofMnemonic? (lowerCase name) = some (.jump j)) (one : target? operand = some goal) :
    Instr.encode <$> (Instr.jump j goal).resolve others =
      (Instr.encode <$> (Instr.jump j goal).resolve symbols).map
        ((statement [name, operand]).relocated spot) := by
  have read : (statement [name, operand]).jumpsToLabel = !isLiteral operand := by
    rw [jumpsToLabel, known]
  cases goal with
  | literal address =>
    have literal : isLiteral operand := isLiteral_iff.2 ⟨_, (target?_eq_literal_iff.1 one).1⟩
    have kept : ∀ w, (statement [name, operand]).relocated spot w = w := by
      intro w
      rw [relocated, read, literal]
      rfl
    exact congrArg Except.ok (kept _).symm
  | label reference =>
    obtain ⟨rfl, unread⟩ := target?_eq_label_iff.1 one
    have symbolic : isLiteral reference = false := by
      rw [← Bool.not_eq_true, isLiteral_iff]
      exact not_exists.2 unread
    rw [Instr.resolve, Instr.resolve, displaced.resolve? reference]
    cases found : symbols.resolve? reference with
    | none => rfl
    | some address =>
      have aimed : (Instr.encode (.jump j address)).target24 = address :=
        (Instr.encode (.jump j address)).target24_withTarget (reachable.resolve? found)
      have moved : (statement [name, reference]).relocated spot (Instr.encode (.jump j address)) =
          Instr.encode (.jump j (displaceWord spot address)) := by
        rw [relocated, read, symbolic, aimed]
        rfl
      exact congrArg Except.ok moved.symm

theorem Line.word_displaced (line : Line) :
    line.word others = (line.word symbols).map (line.relocated spot) := by
  cases line with
  | blank | label => rfl
  | statement tokens =>
    rw [word_statement, word_statement]
    cases parsed : Statement.parse tokens with
    | error cause => rfl
    | ok written =>
      cases tokens with
      | nil => cases parsed
      | cons name operands =>
        obtain ⟨named, spells⟩ := Statement.spells_of_parse parsed
        have known := Op.ofMnemonic?_eq_some_iff.2 named
        cases spells with
        | alu | aluImm | transfer | cmp | bare => rfl
        | jump one => exact word_jump_displaced displaced reachable known one

theorem Line.refused_displaced_iff (line : Line) (cause : Cause) :
    line.word others = .error cause ↔ line.word symbols = .error cause := by
  rw [line.word_displaced displaced reachable]
  cases line.word symbols <;> simp [Except.map]

theorem map_word_insertIdx {lines : List Line} {words : List Word}
    (written : lines.map (Line.word symbols) = words.map .ok) :
    (lines.insertIdx spot .blank).map (Line.word others) =
      ((List.zipWith (Line.relocated spot) lines words).insertIdx spot .padding).map .ok := by
  rw [List.map_insertIdx, List.map_insertIdx]
  congr 1
  induction lines generalizing words with
  | nil =>
    rfl
  | cons line rest ih =>
    cases words with
    | nil => cases written
    | cons w more =>
      obtain ⟨here, there⟩ := List.cons.inj written
      rw [List.map_cons, List.zipWith_cons_cons, List.map_cons, ih there,
        line.word_displaced displaced reachable, here]
      rfl

end Words

theorem assembleLines_insertIdx_error {lines : List Line} (short : lines.length ≤ lineSpace) (spot : Nat)
    {fault : Fault} (failed : assembleLines lines = .error fault) :
    assembleLines (lines.insertIdx spot .blank) = .error (fault.displaced spot) := by
  obtain ⟨symbols, collected, stands, table⟩ | ⟨found, collected, first⟩ := Symbols.ofLines_cases lines
  · obtain ⟨others, again, -, newTable⟩ | ⟨other, -, index, -, wrong, -⟩ :=
      Symbols.ofLines_cases (lines.insertIdx spot .blank)
    · have displaced := Symbols.displaced_of_ofLines short table newTable
      have reachable := Symbols.reachable_of_ofLines short table
      obtain ⟨words, encoded, -⟩ | ⟨found, encoded, first⟩ := encodeLines_cases symbols lines
      · rw [assembleLines_eq, collected, Except.bind, encoded] at failed
        cases failed
      · rw [assembleLines_eq, collected, Except.bind, encoded] at failed
        obtain rfl : found = fault := Except.error.inj failed
        refine assembleLines_eq_error_of_unwritable again (first.displaced ?_)
        intro index cause
        exact unwritable_insertIdx_iff fun line _ => line.refused_displaced_iff displaced reachable
    · obtain ⟨origin, -, before⟩ := misdeclared_insertIdx_iff.1 wrong
      exact absurd before (stands origin _)
  · rw [assembleLines_eq, collected] at failed
    obtain rfl : found = fault := Except.error.inj failed
    exact assembleLines_eq_error_of_misdeclared
      (first.displaced fun index cause => misdeclared_insertIdx_iff)

theorem exists_assembleLines_insertIdx {lines : List Line} {assembly : Assembly}
    (short : lines.length ≤ lineSpace) (assembled : assembleLines lines = .ok assembly) (spot : Nat) :
    ∃ after, assembleLines (lines.insertIdx spot .blank) = .ok after ∧
      assembly.symbols.Displaced spot after.symbols ∧
      after.words = (List.zipWith (Line.relocated spot) lines assembly.words).insertIdx spot .padding := by
  obtain ⟨written, table⟩ := assembleLines_ok assembled
  have reachable := Symbols.reachable_of_ofLines short table
  obtain ⟨others, again, -, newTable⟩ | ⟨other, -, index, -, wrong, -⟩ :=
    Symbols.ofLines_cases (lines.insertIdx spot .blank)
  · have displaced := Symbols.displaced_of_ofLines short table newTable
    have encoded := encodeLines_eq_ok_iff.2 (map_word_insertIdx displaced reachable written)
    exact ⟨⟨_, others⟩, assembleLines_eq_ok_iff.2 ⟨again, encoded⟩, displaced, rfl⟩
  · obtain ⟨origin, -, before⟩ := misdeclared_insertIdx_iff.1 wrong
    exact absurd before (not_misdeclared_of_assembleLines assembled origin _)

/-- A line that holds no instruction can be put in anywhere in a source of less than `2 ^ 22` lines. What
is wrong with the source is wrong with it still, in the line where it is by then. If nothing is wrong, every
name moves with its line, and the image has one word of padding more: the other words are as they were, but
that the jumps to labels go on to the words that they went to. -/
theorem blank_line_relocates {source edited blank : List Char} {spot : Nat}
    (short : (lines source).length < 2 ^ 22)
    (inserted : lines edited = (lines source).insertIdx spot blank) (idle : strip blank = []) :
    (∀ fault, assemble source = .error fault → assemble edited = .error (fault.displaced spot)) ∧
      ∀ assembly, assemble source = .ok assembly → ∃ after, assemble edited = .ok after ∧
        assembly.symbols.Displaced spot after.symbols ∧
        after.words = (List.zipWith (Line.relocated spot) ((lines source).map Line.ofText)
          assembly.words).insertIdx spot .padding := by
  have few : ((lines source).map Line.ofText).length ≤ lineSpace := by
    rw [List.length_map]
    exact Nat.le_of_lt short
  have put : (lines edited).map Line.ofText = ((lines source).map Line.ofText).insertIdx spot .blank := by
    have passed : Line.ofText blank = .blank := by rw [Line.ofText, idle, Line.ofStripped]
    rw [inserted, List.map_insertIdx, passed]
  constructor
  · intro fault failed
    rw [assemble, put]
    exact assembleLines_insertIdx_error few spot failed
  · intro assembly assembled
    rw [assemble, put]
    exact exists_assembleLines_insertIdx few assembled spot

theorem blank_line_relocates_call : ∃ after,
    assemble "jal .f\njmp 8\n.f\nret".toList = .ok ⟨[⟨0x12, 0, 0, 8⟩, ⟨0x0D, 0, 0, 8⟩, .padding,
      ⟨0xFD, 0xFD, 0xFD, 0xFD⟩], ⟨[(['f'], 8)]⟩⟩ ∧
    assemble "jal .f\njmp 8\n ; f:\n.f\nret".toList = .ok after ∧ after.symbols.offset? ['f'] = some 12 ∧
    after.words = [⟨0x12, 0, 0, 12⟩, ⟨0x0D, 0, 0, 8⟩, .padding, .padding, ⟨0xFD, 0xFD, 0xFD, 0xFD⟩] := by
  have assembled : assemble "jal .f\njmp 8\n.f\nret".toList = .ok ⟨[⟨0x12, 0, 0, 8⟩, ⟨0x0D, 0, 0, 8⟩,
      .padding, ⟨0xFD, 0xFD, 0xFD, 0xFD⟩], ⟨[(['f'], 8)]⟩⟩ := rfl
  have inserted : lines "jal .f\njmp 8\n ; f:\n.f\nret".toList =
      (lines "jal .f\njmp 8\n.f\nret".toList).insertIdx 2 " ; f:".toList := rfl
  obtain ⟨after, again, displaced, words⟩ :=
    (blank_line_relocates (by decide) inserted rfl).2 _ assembled
  exact ⟨after, assembled, again, displaced ['f'], words⟩

end WordMachine
