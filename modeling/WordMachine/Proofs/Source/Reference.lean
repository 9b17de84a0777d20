import WordMachine.Proofs.Source.NamedListing

/-! Labels that a jump can be written to. A name is declared by all that stands on its line behind the
dot, but a jump refers to it by a single word, which is read as a number if it can be and is looked up as
it is written before its dot is taken away. A declared name can be referred to exactly if it has no blanks
and is not both a number and overshadowed by the same name behind a dot. -/

namespace WordMachine

open Text

/-- A source with one more line. -/
def withLine (source line : List Char) : List Char := unlines (lines source) ++ line

theorem lines_withLine {line : List Char} (filled : line ≠ []) (whole : '\n' ∉ line)
    (source : List Char) : lines (withLine source line) = lines source ++ [line] := by
  rw [withLine, lines_unlines_append fun found member => newline_notMem_lines member,
    lines_single filled whole]

theorem assembleLines_concat_eq_ok_iff {lines : List Line} {assembly after : Assembly}
    (assembled : assembleLines lines = .ok assembly) {line : Line} (unnamed : line.name? = none) :
    assembleLines (lines ++ [line]) = .ok after ↔ ∃ w, line.word assembly.symbols = .ok w ∧
      after = ⟨assembly.words ++ [w], assembly.symbols⟩ := by
  obtain ⟨collected, encoded⟩ := assembleLines_eq_ok_iff.1 assembled
  have kept : Symbols.ofLines (lines ++ [line]) = .ok assembly.symbols := by
    rw [Symbols.ofLines_concat, collected]
    cases line with
    | blank | statement => rfl
    | label name => cases unnamed
  rw [assembleLines_eq_ok_iff, kept, Except.ok.injEq]
  constructor
  · intro edited
    obtain ⟨same, written⟩ := edited
    rw [← same, encodeLines_concat, encoded] at written
    cases last : line.word assembly.symbols with
    | error cause =>
      rw [last] at written
      cases written
    | ok w =>
      rw [last] at written
      have grown : assembly.words ++ [w] = after.words := Except.ok.inj written
      exact ⟨w, rfl, by rw [grown, same]⟩
  · intro appended
    obtain ⟨w, last, rfl⟩ := appended
    refine ⟨rfl, ?_⟩
    rw [encodeLines_concat, encoded, last]
    rfl

def jumpLine (reference : List Char) : List Char := "jmp ".toList ++ reference

theorem ofText_jumpLine {reference : List Char} (trimmed : Trimmed reference)
    (uncommented : ';' ∉ reference) :
    Line.ofText (jumpLine reference) = .statement ("jmp".toList :: words reference) := by
  have clean : ';' ∉ jumpLine reference := by
    intro comment
    exact (List.mem_append.1 comment).elim (by decide) uncommented
  have whole : Trimmed (jumpLine reference) :=
    trimmed.append (c := 'j') (by decide) ['m', 'p', ' ']
  have tokens : words (jumpLine reference) = "jmp".toList :: words reference :=
    calc words ("jmp".toList ++ ' ' :: reference)
      _ = words "jmp".toList ++ words reference := words_append_blank (by decide) _ _
      _ = "jmp".toList :: words reference := rfl
  rw [Line.ofText, strip_eq_self clean (trim_eq_self whole.front whole.back), ← tokens]
  rfl

namespace Symbols

/-- The address that a word names behind a jump. -/
def Names (symbols : Symbols) (token : List Char) (address : UInt32) : Prop :=
  Numeral 10 token address.toNat ∧ address.toNat ≤ maxTarget ∨
    (∀ n, ¬Numeral 10 token n) ∧ symbols.resolve? token = some address

end Symbols

theorem resolve_jump_eq_ok_iff {symbols : Symbols} {j : Jump} {goal : Target}
    {i : Instr Reg UInt32} : (Instr.jump j goal).resolve symbols = .ok i ↔
      ∃ address, (goal = .literal address ∨ ∃ reference, goal = .label reference ∧
        symbols.resolve? reference = some address) ∧ i = .jump j address := by
  cases goal with
  | literal address => simp [Instr.resolve, eq_comm]
  | label reference => cases found : symbols.resolve? reference <;> simp [Instr.resolve, found, eq_comm]

theorem Symbols.names_iff {symbols : Symbols} {token : List Char} {address : UInt32} (j : Jump) :
    symbols.Names token address ↔ ∃ goal, Operand.target? token = some goal ∧
      (Instr.jump j goal).resolve symbols = .ok (.jump j address) := by
  constructor
  · intro names
    rcases names with ⟨numeral, low⟩ | ⟨symbolic, found⟩
    · exact ⟨_, Operand.target?_eq_literal_iff.2 ⟨numeral, low⟩, rfl⟩
    · refine ⟨_, Operand.target?_eq_label_iff.2 ⟨rfl, symbolic⟩, ?_⟩
      rw [Instr.resolve, found]
  · intro read
    obtain ⟨goal, target, resolved⟩ := read
    obtain ⟨place, origin, same⟩ := resolve_jump_eq_ok_iff.1 resolved
    obtain rfl := (Instr.jump.inj same).2
    rcases origin with rfl | ⟨reference, rfl, found⟩
    · exact .inl (Operand.target?_eq_literal_iff.1 target)
    · obtain ⟨rfl, symbolic⟩ := Operand.target?_eq_label_iff.1 target
      exact .inr ⟨symbolic, found⟩

theorem Symbols.Names.toNat_le {symbols : Symbols} {token : List Char} {address : UInt32}
    (low : ∀ name address, symbols.offset? name = some address → address.toNat ≤ maxTarget)
    (names : symbols.Names token address) : address.toNat ≤ maxTarget := by
  rcases names with ⟨-, below⟩ | ⟨-, found⟩
  · exact below
  · rcases Option.or_eq_some_iff.1 found with exact | ⟨-, behind⟩
    · exact low token address exact
    · obtain ⟨rest, -, behind⟩ := Option.bind_eq_some_iff.1 behind
      exact low rest address behind

theorem Line.word_jump_eq_ok_iff (j : Jump) {symbols : Symbols} {tokens : List (List Char)}
    {w : Word} : (Line.statement ((Op.jump j).mnemonic.toList :: tokens)).word symbols = .ok w ↔
      ∃ token address, tokens = [token] ∧ symbols.Names token address ∧
        w = (Instr.jump j address).encode := by
  have parsed := Statement.parse_mnemonic (.jump j) tokens
  constructor
  · intro encoded
    obtain ⟨written, i, read, resolved, rfl⟩ := word_statement_ok encoded
    rw [parsed] at read
    obtain ⟨same, spells⟩ := Statement.spells_of_operands read
    cases spells with
    | jump one =>
      obtain rfl := Op.jump.inj same
      obtain ⟨address, -, rfl⟩ := resolve_jump_eq_ok_iff.1 resolved
      exact ⟨_, address, rfl, (Symbols.names_iff _).2 ⟨_, one, resolved⟩, rfl⟩
    | _ => cases same
  · intro names
    obtain ⟨token, address, rfl, named, rfl⟩ := names
    obtain ⟨goal, target, resolved⟩ := (Symbols.names_iff j).1 named
    have read : Statement.operands (.jump j) [token] = .ok (.jump j goal) := by
      rw [Statement.operands, Statement.target, Statement.expect, target]
      rfl
    rw [word_statement, parsed, read]
    change Instr.encode <$> (Instr.jump j goal).resolve symbols = _
    rw [resolved]
    rfl

/-- With a jump by this reference as one more line the source still assembles, and the word of the line
is a jump to this address. -/
def JumpReaches (source reference : List Char) (address : UInt32) : Prop :=
  ∃ after w, assemble (withLine source (jumpLine reference)) = .ok after ∧
    after.words[(lines source).length]? = some w ∧ w.decode? = some (.jump .always address)

section Reference

variable {source : List Char} {assembly : Assembly} (assembled : assemble source = .ok assembly)

include assembled in
theorem jumpReaches_iff (low : ∀ name address, assembly.symbols.offset? name = some address →
      address.toNat ≤ maxTarget) {reference : List Char} (trimmed : Trimmed reference)
    (uncommented : ';' ∉ reference) (whole : '\n' ∉ reference) {address : UInt32} :
    JumpReaches source reference address ↔
      (∀ c ∈ reference, isBlank c = false) ∧ assembly.symbols.Names reference address := by
  have filled : jumpLine reference ≠ [] := List.cons_ne_nil _ _
  have unbroken : '\n' ∉ jumpLine reference := by
    intro broken
    exact (List.mem_append.1 broken).elim (by decide) whole
  have fits : ∀ token place, assembly.symbols.Names token place →
      (Instr.jump .always place).encode.decode? = some (.jump .always place) :=
    fun token place names => Instr.decode?_encode_of_fits (Nat.lt_succ_of_le (names.toNat_le low))
  have edited : ∀ after, assemble (withLine source (jumpLine reference)) = .ok after ↔
      ∃ w, (Line.statement ("jmp".toList :: words reference)).word assembly.symbols = .ok w ∧
        after = ⟨assembly.words ++ [w], assembly.symbols⟩ := by
    intro after
    rw [assemble, lines_withLine filled unbroken, List.map_append, List.map_singleton,
      ofText_jumpLine trimmed uncommented]
    exact assembleLines_concat_eq_ok_iff assembled rfl
  have counted : (lines source).length = assembly.words.length := by
    have sameLength := congrArg List.length (assembleLines_ok assembled).1
    simpa using sameLength
  constructor
  · intro reaches
    obtain ⟨after, w, grown, found, decoded⟩ := reaches
    obtain ⟨last, written, rfl⟩ := (edited after).1 grown
    obtain rfl : last = w := by simpa [counted] using found
    obtain ⟨token, place, single, names, rfl⟩ := (Line.word_jump_eq_ok_iff .always).1 written
    obtain ⟨rfl, solid⟩ := trimmed.words_eq_singleton_iff.1 single
    obtain rfl : place = address := by simpa [fits token place names] using decoded
    exact ⟨solid, names⟩
  · intro written
    obtain ⟨solid, names⟩ := written
    have single := trimmed.words_eq_singleton_iff.2 ⟨rfl, solid⟩
    have encoded := (Line.word_jump_eq_ok_iff .always).2 ⟨reference, address, single, names, rfl⟩
    refine ⟨_, _, (edited _).2 ⟨_, encoded, rfl⟩, ?_, fits reference address names⟩
    simp [counted]

variable {name : List Char} {offset : UInt32}

include assembled in
theorem written_of_declared (declared : assembly.symbols.offset? name = some offset) :
    Trimmed name ∧ ';' ∉ name ∧ '\n' ∉ name := by
  obtain ⟨index, here, -⟩ := exists_line_of_offset? assembled declared
  obtain ⟨text, listed, declares⟩ := List.mem_map.1 (List.mem_of_getElem? here)
  have uncommented := semicolon_notMem_of_ofText declares
  have filled : name ≠ [] := by
    intro empty
    exact not_misdeclared_of_assembleLines assembled index .emptyLabel ⟨name, here, .inl ⟨empty, rfl⟩⟩
  obtain ⟨rest, dotted, rfl⟩ := Line.ofStripped_eq_label_iff.1 declares
  refine ⟨trimmed_trim filled, uncommented, ?_⟩
  intro broken
  have inside : '\n' ∈ strip text := by
    rw [dotted]
    exact List.mem_cons_of_mem '.' ((trim_sublist rest).subset broken)
  have kept : (strip text).Sublist text := (trim_sublist _).trans (List.takeWhile_sublist _)
  exact newline_notMem_lines listed (kept.subset inside)

variable (short : (lines source).length < 2 ^ 22)

include assembled short in
theorem toNat_le_of_declared (declared : assembly.symbols.offset? name = some offset) :
    offset.toNat ≤ maxTarget := by
  have few : ((lines source).map Line.ofText).length ≤ lineSpace := by
    rw [List.length_map]
    exact Nat.le_of_lt short
  exact Nat.le_of_lt_succ
    (Symbols.reachable_of_ofLines few (assembleLines_ok assembled).2 name offset declared)

include assembled short in
/-- Written as it is a name is missed if it has blanks or is the number of another address. -/
theorem jumpReaches_name_iff (declared : assembly.symbols.offset? name = some offset) :
    JumpReaches source name offset ↔ (∀ c ∈ name, isBlank c = false) ∧
      (Numeral 10 name offset.toNat ∨ ∀ n, ¬Numeral 10 name n) := by
  obtain ⟨trimmed, uncommented, whole⟩ := written_of_declared assembled declared
  have low := toNat_le_of_declared assembled short declared
  have known : assembly.symbols.resolve? name = some offset := by
    rw [Symbols.resolve?, declared, Option.some_or]
  rw [jumpReaches_iff assembled (fun _ _ => toNat_le_of_declared assembled short) trimmed
    uncommented whole, Symbols.Names]
  simp only [known, low, and_true]

theorem not_numeral_dotted (name : List Char) (n : Nat) : ¬Numeral 10 ('.' :: name) n :=
  Operand.not_numeral (by simp [Operand.isLiteral, Operand.afterPlus]) n

include assembled short in
theorem jumpReaches_dotted_iff (declared : assembly.symbols.offset? name = some offset) :
    JumpReaches source ('.' :: name) offset ↔ (∀ c ∈ name, isBlank c = false) ∧
      assembly.symbols.offset? ('.' :: name) = none := by
  obtain ⟨trimmed, uncommented, whole⟩ := written_of_declared assembled declared
  have dotted : Trimmed ('.' :: name) := trimmed.append (c := '.') (by decide) []
  have clean : ';' ∉ '.' :: name := by simpa using uncommented
  have unbroken : '\n' ∉ '.' :: name := by simpa using whole
  have solid : (∀ c ∈ '.' :: name, isBlank c = false) ↔ ∀ c ∈ name, isBlank c = false :=
    List.forall_mem_cons.trans (and_iff_right (by decide))
  have found : assembly.symbols.resolve? ('.' :: name) = some offset ↔
      assembly.symbols.offset? ('.' :: name) = none := by
    change (assembly.symbols.offset? ('.' :: name)).or (assembly.symbols.offset? name) = _ ↔ _
    rw [declared]
    cases shadow : assembly.symbols.offset? ('.' :: name) with
    | none => simp
    | some other =>
      have different : other ≠ offset := by
        intro same
        have fewer : ((lines source).map Line.ofText).length < 2 ^ 30 := by
          rw [List.length_map]
          omega
        have doubled := name_unique assembled fewer _ _ _ declared (same ▸ shadow)
        exact absurd (congrArg List.length doubled) (by simp)
      simp [different]
  rw [jumpReaches_iff assembled (fun _ _ => toNat_le_of_declared assembled short) dotted clean
    unbroken, Symbols.Names, solid, found]
  simp only [not_numeral_dotted, false_and, false_or, not_false_eq_true, implies_true, true_and]

end Reference

/-- A declared name can be reached by a jump that is written to it, with or without the dot, exactly if
there is no blank in it and it is not both a number that is not its address and the name behind the dot
of another label. -/
theorem jump_reaches_declared_iff {source : List Char} {assembly : Assembly}
    (assembled : assemble source = .ok assembly) (short : (lines source).length < 2 ^ 22)
    {name : List Char} {offset : UInt32} (declared : assembly.symbols.offset? name = some offset) :
    JumpReaches source name offset ∨ JumpReaches source ('.' :: name) offset ↔
      (∀ c ∈ name, isBlank c = false) ∧ ((∃ n, Numeral 10 name n) →
        Numeral 10 name offset.toNat ∨ assembly.symbols.offset? ('.' :: name) = none) := by
  rw [jumpReaches_name_iff assembled short declared, jumpReaches_dotted_iff assembled short declared,
    ← and_or_left]
  refine and_congr_right fun _ => ?_
  constructor
  · intro way numbered
    obtain ⟨n, numeral⟩ := numbered
    rcases way with (own | symbolic) | free
    · exact .inl own
    · exact absurd numeral (symbolic n)
    · exact .inr free
  · intro spared
    by_cases numbered : ∃ n, Numeral 10 name n
    · exact (spared numbered).imp_left .inl
    · exact .inl (.inr fun n numeral => numbered ⟨n, numeral⟩)

/-- Of two labels whose names differ by a dot, the first is a number and cannot be reached. -/
theorem jump_reaches_declared_overshadowed :
    let source := ".8\n..8".toList
    let symbols : Symbols := ⟨[("8".toList, 0), (".8".toList, 4)]⟩
    assemble source = .ok ⟨[.padding, .padding], symbols⟩ ∧
      (JumpReaches source ".8".toList 4 ∨ JumpReaches source "..8".toList 4) ∧
      ¬(JumpReaches source "8".toList 0 ∨ JumpReaches source ".8".toList 0) := by
  intro source symbols
  have assembled : assemble source = .ok ⟨[.padding, .padding], symbols⟩ := rfl
  have short : (lines source).length < 2 ^ 22 := by decide
  have plain : symbols.offset? "8".toList = some 0 := rfl
  have dotted : symbols.offset? ".8".toList = some 4 := rfl
  have eight : Numeral 10 ['8'] 8 := .inl (.one rfl)
  refine ⟨assembled, ?_, ?_⟩
  · apply (jump_reaches_declared_iff assembled short dotted).2
    exact ⟨List.forall_mem_cons.2 ⟨by decide, List.forall_mem_singleton.2 (by decide)⟩, fun _ => .inr rfl⟩
  · intro reached
    obtain ⟨-, spared⟩ := (jump_reaches_declared_iff assembled short plain).1 reached
    rcases spared ⟨8, eight⟩ with own | unknown
    · exact absurd (own.unique eight) (by decide)
    · exact absurd unknown (by decide)

/-- Not every declared name can be reached: a jump takes one word, and a name may have blanks. -/
theorem not_forall_jump_reaches_declared : ¬∀ (source : List Char) (assembly : Assembly),
    assemble source = .ok assembly → (lines source).length < 2 ^ 22 →
      ∀ (name : List Char) (offset : UInt32), assembly.symbols.offset? name = some offset →
        JumpReaches source name offset ∨ JumpReaches source ('.' :: name) offset := by
  intro reaches
  have assembled : assemble ".a b".toList = .ok ⟨[.padding], ⟨[("a b".toList, 0)]⟩⟩ := rfl
  have refused : ∀ reference ∈ ["a b".toList, ".a b".toList],
      assemble (withLine ".a b".toList (jumpLine reference)) =
        .error ⟨2, .operandCount (.jump .always)⟩ :=
    List.forall_mem_cons.2 ⟨rfl, List.forall_mem_singleton.2 rfl⟩
  rcases reaches _ _ assembled (by decide) "a b".toList 0 rfl with bare | dotted
  · obtain ⟨after, w, grown, -⟩ := bare
    cases (refused _ (by simp)).symm.trans grown
  · obtain ⟨after, w, grown, -⟩ := dotted
    cases (refused _ (by simp)).symm.trans grown

end WordMachine
