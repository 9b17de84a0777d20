import Mathlib.Logic.Relation
import WordMachine.Proofs.Source.Listing

/-! The layout of a source. Blanks, comments, the kind of newline and the case of letters have no part in
what a source is assembled to, nor in what is wrong with it. -/

namespace WordMachine

open Text

/-- All that the two passes read of a line. -/
def Line.reading (line : Line) : Option (List Char) × (Symbols → Except Cause Word) :=
  (line.name?, fun symbols => line.word symbols)

theorem encodeLines_eq_mapM (symbols : Symbols) (lines : List Line) :
    encodeLines symbols lines = (lines.map (Line.word symbols)).zipIdx.mapM
      fun entry => entry.1.mapError (Fault.mk (entry.2 + 1)) := by
  rw [List.zipIdx_map, List.mapM_map]
  rfl

theorem assembleLines_congr {lines others : List Line}
    (same : lines.map Line.reading = others.map Line.reading) :
    assembleLines lines = assembleLines others := by
  have names : lines.map Line.name? = others.map Line.name? := by
    have first := congrArg (List.map Prod.fst) same
    rw [List.map_map, List.map_map] at first
    exact first
  have words (symbols : Symbols) : lines.map (Line.word symbols) = others.map (Line.word symbols) := by
    have second := congrArg (List.map fun reading => reading.2 symbols) same
    rw [List.map_map, List.map_map] at second
    exact second
  rw [assembleLines_eq, assembleLines_eq, Symbols.ofLines_congr names]
  congr 1
  funext symbols
  rw [encodeLines_eq_mapM, encodeLines_eq_mapM, words]

section Tokens

variable {line name : List Char} {operands : List (List Char)}

theorem Line.ofText_of_words (spelled : words (code line) = name :: operands)
    (undotted : name.head? ≠ some '.') : ofText line = .statement (name :: operands) := by
  have kept : words (strip line) = name :: operands := (words_trim (code line)).trans spelled
  have filled : strip line ≠ [] := by
    intro empty
    rw [empty, words_nil] at kept
    cases kept
  obtain ⟨c, rest, shape⟩ := List.exists_cons_of_ne_nil filled
  obtain ⟨tail, more, opened⟩ := words_cons (isBlank_head_trim shape) rest
  have starts : name.head? = (strip line).head? := by
    rw [shape] at kept ⊢
    rw [opened] at kept
    rw [← (List.cons.inj kept).1]
    rfl
  obtain ⟨first, others, spelled, read⟩ := ofStripped_strip line filled (starts ▸ undotted)
  rw [kept] at spelled
  rw [ofText, read, spelled]

theorem Line.words_of_ofText {tokens : List (List Char)} (read : ofText line = .statement tokens) :
    ∃ name operands, tokens = name :: operands ∧ words (code line) = tokens ∧
      name.head? ≠ some '.' := by
  have spelled : words (strip line) = tokens := words_of_ofStripped read
  have whole : words (code line) = tokens := (words_trim (code line)).symm.trans spelled
  cases shape : strip line with
  | nil =>
    rw [ofText, shape] at read
    cases read
  | cons c rest =>
    obtain ⟨tail, more, opened⟩ := words_cons (isBlank_head_trim shape) rest
    rw [shape, opened] at spelled
    refine ⟨_, _, spelled.symm, whole, ?_⟩
    intro dotted
    obtain rfl : c = '.' := Option.some.inj dotted
    rw [ofText, shape] at read
    cases read

end Tokens

theorem isAlphanum_of_toLower {c : Char} (lowered : c.toLower.isAlphanum) : c.isAlphanum := by
  by_cases upper : c.isUpper
  · simp [Char.isAlphanum, Char.isAlpha, upper]
  · rwa [Char.toLower_eq_of_not_isUpper upper] at lowered

structure Lettered (token : List Char) : Prop where
  filled : token ≠ []
  alphanum : ∀ c ∈ token, c.isAlphanum

namespace Lettered

variable {token known : List Char}

theorem of_lowerCase (lettered : Lettered known) (same : lowerCase token = known) : Lettered token where
  filled := by
    rintro rfl
    exact lettered.filled same.symm
  alphanum := by
    subst same
    exact fun _ member => isAlphanum_of_toLower (lettered.alphanum _ (List.mem_map_of_mem member))

theorem solid (lettered : Lettered token) : Solid token :=
  .of_isAlphanum lettered.filled lettered.alphanum

theorem notMem (lettered : Lettered token) {c : Char} (odd : c.isAlphanum = false) : c ∉ token := by
  intro member
  rw [lettered.alphanum c member] at odd
  cases odd

theorem undotted (lettered : Lettered token) : token.head? ≠ some '.' :=
  fun dotted => lettered.notMem (by decide) (List.mem_of_head? dotted)

theorem of_mnemonic {op : Op} (known : Op.ofMnemonic? (lowerCase token) = some op) : Lettered token :=
  .of_lowerCase ⟨op.solid_mnemonic.filled, op.mnemonic_isAlphanum⟩ (Op.ofMnemonic?_eq_some_iff.1 known).symm

theorem of_register (named : lowerCase token = "zero".toList ∨ lowerCase token = "comp".toList) :
    Lettered token := by
  rcases named with zero | comp
  · exact .of_lowerCase ⟨by decide, List.all_eq_true.1 (by decide)⟩ zero
  · exact .of_lowerCase ⟨by decide, List.all_eq_true.1 (by decide)⟩ comp

end Lettered

namespace Statement

theorem register_respelled {token other : List Char}
    (named : lowerCase token = "zero".toList ∨ lowerCase token = "comp".toList)
    (same : lowerCase other = lowerCase token) : register other = register token := by
  rcases named with zero | comp
  · rw [register, register, expect, expect, Operand.register?, Operand.register?, same, zero]
    rfl
  · rw [register, register, expect, expect, Operand.register?, Operand.register?, same, comp]
    rfl

theorem operands_respelled {op : Op} {before after : List (List Char)} {token other : List Char}
    (place : op.slots[before.length]? = some .register) (same : register other = register token) :
    operands op (before ++ other :: after) = operands op (before ++ token :: after) := by
  by_cases counted : (before ++ token :: after).length = op.slots.length
  · cases op with
    | alu f =>
      rcases before with _ | ⟨a, _ | ⟨b, _ | ⟨c, more⟩⟩⟩
      · obtain ⟨b, c, rfl⟩ := List.length_eq_two.1 (by simpa [Op.slots] using counted)
        simp only [List.nil_append, operands, same]
      · obtain ⟨c, rfl⟩ := List.length_eq_one_iff.1 (by simpa [Op.slots] using counted)
        simp only [List.cons_append, List.nil_append, operands, same]
      · obtain rfl := List.length_eq_zero_iff.1 (by simpa [Op.slots] using counted)
        simp only [List.cons_append, List.nil_append, operands, same]
      · cases place
    | aluImm f =>
      rcases before with _ | ⟨a, _ | ⟨b, _ | ⟨c, more⟩⟩⟩
      · cases place
      · obtain ⟨c, rfl⟩ := List.length_eq_one_iff.1 (by simpa [Op.slots] using counted)
        simp only [List.cons_append, List.nil_append, operands, same]
      · obtain rfl := List.length_eq_zero_iff.1 (by simpa [Op.slots] using counted)
        simp only [List.cons_append, List.nil_append, operands, same]
      · cases place
    | transfer t =>
      rcases before with _ | ⟨a, _ | ⟨b, more⟩⟩
      · obtain ⟨b, rfl⟩ := List.length_eq_one_iff.1 (by simpa [Op.slots] using counted)
        simp only [List.nil_append, operands, same]
      · cases place
      · cases place
    | cmp =>
      rcases before with _ | ⟨a, _ | ⟨b, more⟩⟩
      · obtain ⟨b, rfl⟩ := List.length_eq_one_iff.1 (by simpa [Op.slots] using counted)
        simp only [List.nil_append, operands, same]
      · obtain rfl := List.length_eq_zero_iff.1 (by simpa [Op.slots] using counted)
        simp only [List.cons_append, List.nil_append, operands, same]
      · cases place
    | jump j =>
      cases before with
      | nil => cases place
      | cons a more => cases place
    | bare b => cases place
  · have again : (before ++ other :: after).length ≠ op.slots.length := by
      rw [List.length_append, List.length_cons] at counted ⊢
      exact counted
    rw [operands_of_length_ne counted, operands_of_length_ne again]

end Statement

def Ended (rest : List Char) : Prop := ∀ c ∈ rest.head?, isBlank c ∨ c = ';'

/-- The edits of a line that are without consequence, each of them anywhere in the line: blanks before it
and behind it, a comment, other blanks in an instruction, and the case of letters in a mnemonic and in the
name of a register. A carriage return before the newline is no part of a line. -/
inductive Relaid : List Char → List Char → Prop
  | front {blanks line : List Char} (blank : ∀ c ∈ blanks, isBlank c) (whole : '\n' ∉ blanks) :
    Relaid line (blanks ++ line)
  | back {blanks line : List Char} (blank : ∀ c ∈ blanks, isBlank c) (whole : '\n' ∉ blanks) :
    Relaid line (line ++ blanks)
  | comment {line note : List Char} (whole : '\n' ∉ note) : Relaid line (line ++ ';' :: note)
  | between {first gap other rest : List Char} {tokens : List (List Char)}
    (instruction : Line.ofText (first ++ (gap ++ rest)) = .statement tokens)
    (blank : ∀ c ∈ gap, isBlank c) (filled : gap ≠ []) (otherBlank : ∀ c ∈ other, isBlank c)
    (otherFilled : other ≠ []) (whole : '\n' ∉ other) :
    Relaid (first ++ (gap ++ rest)) (first ++ (other ++ rest))
  | mnemonic {indent token other rest : List Char} {op : Op} (blank : ∀ c ∈ indent, isBlank c)
    (known : Op.ofMnemonic? (lowerCase token) = some op) (ended : Ended rest)
    (same : lowerCase other = lowerCase token) :
    Relaid (indent ++ (token ++ rest)) (indent ++ (other ++ rest))
  | register {first token other rest name : List Char} {before : List (List Char)} {op : Op}
    (plain : ';' ∉ first) (parted : ∀ c ∈ first.getLast?, isBlank c)
    (spelled : words first = name :: before) (known : Op.ofMnemonic? (lowerCase name) = some op)
    (place : op.slots[before.length]? = some .register)
    (named : lowerCase token = "zero".toList ∨ lowerCase token = "comp".toList) (ended : Ended rest)
    (same : lowerCase other = lowerCase token) :
    Relaid (first ++ (token ++ rest)) (first ++ (other ++ rest))
  | carriageReturn {line edited : List Char} (relaid : Relaid line edited) :
    Relaid (line ++ ['\r']) (edited ++ ['\r'])

section Relaid

variable {token rest : List Char}

theorem words_code_append (lettered : Lettered token) (ended : Ended rest) :
    words (code (token ++ rest)) = token :: words (code rest) := by
  rw [code_append (lettered.notMem (by decide))]
  apply words_solid_append lettered.solid
  cases rest with
  | nil => exact nofun
  | cons c more =>
    rcases ended c rfl with blank | rfl
    · have kept : code (c :: more) = c :: code more := by
        apply List.takeWhile_cons_of_pos
        exact decide_eq_true fun same => absurd blank (same ▸ by decide)
      rw [kept]
      rintro d first
      obtain rfl : c = d := Option.some.inj first
      exact blank
    · exact nofun

theorem words_code_gap {gap other : List Char} (blank : ∀ c ∈ gap, isBlank c) (filled : gap ≠ [])
    (otherBlank : ∀ c ∈ other, isBlank c) (otherFilled : other ≠ []) (first rest : List Char) :
    words (code (first ++ (other ++ rest))) = words (code (first ++ (gap ++ rest))) := by
  by_cases commented : ';' ∈ first
  · rw [code_append_of_mem commented, code_append_of_mem commented]
  · rw [code_append commented, code_append commented, code_append (semicolon_notMem_blanks blank),
      code_append (semicolon_notMem_blanks otherBlank), words_append_blanks blank filled,
      words_append_blanks otherBlank otherFilled]

namespace Line

theorem ofText_of_mnemonic {indent : List Char} {op : Op} (blank : ∀ c ∈ indent, isBlank c)
    (known : Op.ofMnemonic? (lowerCase token) = some op) (ended : Ended rest) :
    ofText (indent ++ (token ++ rest)) = .statement (token :: words (code rest)) := by
  have lettered := Lettered.of_mnemonic known
  apply ofText_of_words ?_ lettered.undotted
  rw [code_append (semicolon_notMem_blanks blank), words_blanks_append blank,
    words_code_append lettered ended]

theorem ofText_of_register {first name : List Char} {before : List (List Char)} {op : Op}
    (plain : ';' ∉ first) (parted : ∀ c ∈ first.getLast?, isBlank c) (spelled : words first = name :: before)
    (known : Op.ofMnemonic? (lowerCase name) = some op) (lettered : Lettered token) (ended : Ended rest) :
    ofText (first ++ (token ++ rest)) = .statement (name :: (before ++ token :: words (code rest))) := by
  apply ofText_of_words ?_ (Lettered.of_mnemonic known).undotted
  rw [code_append plain, words_append parted, spelled, words_code_append lettered ended]
  rfl

theorem reading_of_parse {tokens others : List (List Char)}
    (same : Statement.parse others = Statement.parse tokens) :
    (statement others).reading = (statement tokens).reading := by
  refine Prod.ext rfl (funext fun symbols => ?_)
  change (statement others).word symbols = (statement tokens).word symbols
  rw [word_statement, word_statement, same]

theorem reading_of_strip {line edited : List Char} (same : strip edited = strip line) :
    (ofText edited).reading = (ofText line).reading := by
  rw [ofText, ofText, same]

end Line

namespace Relaid

variable {line edited : List Char}

theorem blank_carriageReturn : ∀ c ∈ ['\r'], isBlank c :=
  List.forall_mem_singleton.2 (by decide)

theorem reading_eq (relaid : Relaid line edited) :
    (Line.ofText edited).reading = (Line.ofText line).reading := by
  induction relaid with
  | front blank whole => exact Line.reading_of_strip (strip_blanks_append blank _)
  | back blank whole => exact Line.reading_of_strip (strip_append_blanks blank _)
  | comment whole => exact Line.reading_of_strip (strip_append_comment _ _)
  | @between first gap other rest tokens instruction blank filled otherBlank otherFilled whole =>
    obtain ⟨name, operands, rfl, spelled, undotted⟩ := Line.words_of_ofText instruction
    rw [← words_code_gap blank filled otherBlank otherFilled] at spelled
    rw [instruction, Line.ofText_of_words spelled undotted]
  | @mnemonic indent token other rest op blank known ended same =>
    have again : Op.ofMnemonic? (lowerCase other) = some op := same ▸ known
    rw [Line.ofText_of_mnemonic blank known ended, Line.ofText_of_mnemonic blank again ended]
    apply Line.reading_of_parse
    rw [Statement.parse_of_known again, Statement.parse_of_known known]
  | @register first token other rest name before op plain parted spelled known place named ended same =>
    -- The words before the register are the mnemonic and as many operands as there are slots before it.
    have lettered := Lettered.of_register named
    have again : Lettered other := .of_register (same ▸ named)
    rw [Line.ofText_of_register plain parted spelled known lettered ended,
      Line.ofText_of_register plain parted spelled known again ended]
    apply Line.reading_of_parse
    rw [Statement.parse_of_known known, Statement.parse_of_known known,
      Statement.operands_respelled place (Statement.register_respelled named same)]
  | carriageReturn relaid ih =>
    rw [Line.reading_of_strip (strip_append_blanks blank_carriageReturn _), ih,
      Line.reading_of_strip (strip_append_blanks blank_carriageReturn _)]

theorem notMem_exchanged {c : Char} {first part other rest : List Char}
    (whole : c ∉ first ++ (part ++ rest)) (fresh : c ∉ other) : c ∉ first ++ (other ++ rest) := by
  simp only [List.mem_append, not_or] at whole ⊢
  exact ⟨whole.1, fresh, whole.2.2⟩

theorem newline_notMem (relaid : Relaid line edited) (whole : '\n' ∉ line) : '\n' ∉ edited := by
  induction relaid with
  | front blank fresh => exact List.not_mem_append fresh whole
  | back blank fresh => exact List.not_mem_append whole fresh
  | comment fresh => exact List.not_mem_append whole (List.not_mem_cons_of_ne_of_not_mem (by decide) fresh)
  | between instruction blank filled otherBlank otherFilled fresh => exact notMem_exchanged whole fresh
  | mnemonic blank known ended same =>
    exact notMem_exchanged whole ((Lettered.of_mnemonic (same ▸ known)).notMem (by decide))
  | register plain parted spelled known place named ended same =>
    exact notMem_exchanged whole ((Lettered.of_register (same ▸ named)).notMem (by decide))
  | carriageReturn relaid ih =>
    rw [List.mem_append, not_or] at whole
    exact List.not_mem_append (ih whole.1) whole.2

theorem ne_nil_exchanged {first other rest : List Char} (filled : other ≠ []) :
    first ++ (other ++ rest) ≠ [] :=
  List.append_ne_nil_of_right_ne_nil _ (List.append_ne_nil_of_left_ne_nil filled _)

theorem ne_nil (relaid : Relaid line edited) (filled : line ≠ []) : edited ≠ [] := by
  cases relaid with
  | front => exact List.append_ne_nil_of_right_ne_nil _ filled
  | back | comment => exact List.append_ne_nil_of_left_ne_nil filled _
  | between instruction blank some otherBlank otherSome fresh => exact ne_nil_exchanged otherSome
  | mnemonic blank known ended same => exact ne_nil_exchanged (Lettered.of_mnemonic (same ▸ known)).filled
  | register plain parted spelled known place named ended same =>
    exact ne_nil_exchanged (Lettered.of_register (same ▸ named)).filled
  | carriageReturn => exact List.append_ne_nil_of_right_ne_nil _ (List.cons_ne_nil _ _)

end Relaid

end Relaid

def crlf (source : List Char) : List Char :=
  source.flatMap fun c => if c = '\n' then ['\r', '\n'] else [c]

/-- One edit of a source: all its newlines, or one of its lines. A line that no newline ends is not empty. -/
inductive Edit : List Char → List Char → Prop
  | crlf (source : List Char) : Edit source (crlf source)
  | line {before : List (List Char)} {line edited rest : List Char} (earlier : ∀ l ∈ before, '\n' ∉ l)
    (whole : '\n' ∉ line) (relaid : Relaid line edited) :
    Edit (unlines before ++ (line ++ '\n' :: rest)) (unlines before ++ (edited ++ '\n' :: rest))
  | last {before : List (List Char)} {line edited : List Char} (earlier : ∀ l ∈ before, '\n' ∉ l)
    (whole : '\n' ∉ line) (filled : line ≠ []) (relaid : Relaid line edited) :
    Edit (unlines before ++ line) (unlines before ++ edited)

theorem crlf_cons_of_ne {c : Char} (other : c ≠ '\n') (rest : List Char) :
    crlf (c :: rest) = c :: crlf rest := by
  rw [crlf, List.flatMap_cons, if_neg other]
  rfl

theorem lines_crlf (source : List Char) :
    List.Forall₂ (fun line other => other = line ∨ other = line ++ ['\r']) (lines source)
      (lines (crlf source)) := by
  induction source with
  | nil => exact .nil
  | cons c rest ih =>
    by_cases newline : c = '\n'
    · subst newline
      have ended : lines (crlf ('\n' :: rest)) = ['\r'] :: lines (crlf rest) :=
        lines_append_newline ['\r'] (crlf rest) (by decide)
      rw [ended]
      exact .cons (.inr rfl) ih
    · rw [crlf_cons_of_ne newline, lines_cons_of_ne newline, lines_cons_of_ne newline]
      generalize lines rest = found at ih ⊢
      generalize lines (crlf rest) = others at ih ⊢
      cases ih with
      | nil => exact .cons (.inl rfl) .nil
      | cons same more =>
        refine .cons ?_ more
        rcases same with rfl | rfl
        · exact .inl rfl
        · exact .inr rfl

theorem strippedLines_crlf (source : List Char) : strippedLines (crlf source) = strippedLines source := by
  have alike := lines_crlf source
  rw [strippedLines, strippedLines]
  generalize lines source = found at alike ⊢
  generalize lines (crlf source) = others at alike ⊢
  induction alike with
  | nil => rfl
  | cons same more ih =>
    rw [List.map_cons, List.map_cons, ih]
    rcases same with rfl | rfl
    · rfl
    · rw [strip_append_blanks Relaid.blank_carriageReturn]

theorem Edit.assemble_eq {source edited : List Char} (edit : Edit source edited) :
    assemble edited = assemble source := by
  cases edit with
  | crlf => rw [WordMachine.assemble_eq, WordMachine.assemble_eq, strippedLines_crlf]
  | @line before line edited rest earlier whole relaid =>
    rw [assemble, assemble, lines_unlines_append earlier, lines_unlines_append earlier,
      lines_append_newline line rest whole,
      lines_append_newline edited rest (relaid.newline_notMem whole)]
    apply assembleLines_congr
    simp only [List.map_append, List.map_cons, relaid.reading_eq]
  | @last before line edited earlier whole filled relaid =>
    rw [assemble, assemble, lines_unlines_append earlier, lines_unlines_append earlier,
      lines_single filled whole, lines_single (relaid.ne_nil filled) (relaid.newline_notMem whole)]
    apply assembleLines_congr
    simp only [List.map_append, List.map_cons, relaid.reading_eq]

/-- Layout does not matter. However a source is edited in its blanks, its comments, its newlines and the
case of its mnemonics and named registers, it is assembled to the same words and symbols, or refused in the
same line for the same cause. -/
theorem assemble_eq_of_edits {source edited : List Char} (edits : Relation.EqvGen Edit source edited) :
    assemble edited = assemble source := by
  induction edits with
  | rel source edited edit => exact edit.assemble_eq
  | refl source => rfl
  | symm source edited edits ih => exact ih.symm
  | trans source between edited first second earlier later => exact later.trans earlier

theorem assemble_eq_of_edits_sum :
    assemble "add zero 1 2\n.x".toList = .ok ⟨[⟨0, 0, 1, 2⟩, .padding], ⟨[(['x'], 4)]⟩⟩ ∧
      assemble "ADD ZERO 1 2; sum\r\n\t.x".toList = assemble "add zero 1 2\n.x".toList := by
  refine ⟨rfl, assemble_eq_of_edits ?_⟩
  have blank : ∀ c ∈ some ' ', isBlank c := by
    intro c same
    obtain rfl := Option.some.inj same
    decide
  have parted (rest : List Char) : Ended (' ' :: rest) := fun c first => .inl (blank c first)
  have add : Relaid ([] ++ ("add".toList ++ " zero 1 2".toList)) ([] ++ ("ADD".toList ++ " zero 1 2".toList)) :=
    .mnemonic (List.forall_mem_nil _) (show _ = some (.alu .add) from rfl) (parted _) rfl
  have zero : Relaid ("ADD ".toList ++ ("zero".toList ++ " 1 2".toList))
      ("ADD ".toList ++ ("ZERO".toList ++ " 1 2".toList)) :=
    .register (by decide) blank rfl (show _ = some (.alu .add) from rfl) rfl (.inl rfl) (parted _) rfl
  have sum : Relaid "ADD ZERO 1 2".toList ("ADD ZERO 1 2".toList ++ ';' :: " sum".toList) :=
    .comment (by decide)
  have tab : Relaid ".x".toList (['\t'] ++ ".x".toList) :=
    .front (List.forall_mem_singleton.2 (by decide)) (by decide)
  have first {line edited : List Char} (whole : '\n' ∉ line ++ ['\r']) (relaid : Relaid line edited) :
      Relation.EqvGen Edit ((line ++ ['\r']) ++ '\n' :: ".x".toList)
        ((edited ++ ['\r']) ++ '\n' :: ".x".toList) :=
    .rel _ _ (.line (List.forall_mem_nil _) whole (.carriageReturn relaid))
  have newlines : Relation.EqvGen Edit "add zero 1 2\n.x".toList "add zero 1 2\r\n.x".toList :=
    .rel _ _ (.crlf _)
  have last : Relation.EqvGen Edit (unlines ["ADD ZERO 1 2; sum\r".toList] ++ ".x".toList)
      (unlines ["ADD ZERO 1 2; sum\r".toList] ++ (['\t'] ++ ".x".toList)) :=
    .rel _ _ (.last (List.forall_mem_singleton.2 (by decide)) (by decide) (by decide) tab)
  exact .trans _ _ _ newlines (.trans _ _ _ (first (by decide) add) (.trans _ _ _ (first (by decide) zero)
    (.trans _ _ _ (first (by decide) sum) last)))

end WordMachine
