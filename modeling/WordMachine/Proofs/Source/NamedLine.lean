import WordMachine.Proofs.Source.Reference

/-! Single lines of a listing with names. The text of a jump has the name of its target if there is one,
and the reader takes a name that is a number for the address of that number. -/

namespace WordMachine

open Text

def encodeLine (symbols : Symbols) (text : List Char) : Except Cause Word :=
  (Line.statement (words text)).word symbols

/-- An instruction jumps to an address that a name was declared at. -/
def Symbols.NamesTarget (symbols : Symbols) (i : Instr Reg UInt32) (j : Jump) (name : List Char)
    (address : UInt32) : Prop :=
  i = .jump j address ∧ symbols.offset? name = some address

theorem encodeLine_numbers (symbols : Symbols) {labels : Labels} {i : Instr Reg UInt32}
    (fits : i.Fits) (numbers : i.texts labels = i.numberTexts) :
    encodeLine symbols (i.text labels) = .ok i.encode := by
  have readable := Labels.readable_empty symbols
  have same : i.text labels = i.text .empty := by
    rw [Instr.text_eq, numbers, ← Instr.text_eq]
  rw [encodeLine, same, Instr.words_text readable]
  exact Instr.word_tokens readable fits

theorem encodeLine_name_eq_ok_iff {symbols : Symbols} {labels : Labels} {j : Jump} {target : UInt32}
    {name : List Char} (shown : (Instr.jump j target).texts labels = [name])
    (trimmed : Trimmed name) {w : Word} :
    encodeLine symbols ((Instr.jump j target).text labels) = .ok w ↔
      (∀ c ∈ name, isBlank c = false) ∧
        ∃ address, symbols.Names name address ∧ w = (Instr.jump j address).encode := by
  have tokens : words ((Instr.jump j target).text labels) =
      (Op.jump j).mnemonic.toList :: words name := by
    calc words ((Instr.jump j target).text labels)
      _ = words ((Op.jump j).mnemonic.toList ++ ' ' :: name) := by
        rw [Instr.text_eq, shown, List.intercalate_cons_cons, List.intercalate_singleton,
          List.append_assoc]
        rfl
      _ = words (Op.jump j).mnemonic.toList ++ words name := words_append_blank (by decide) _ _
      _ = [(Op.jump j).mnemonic.toList] ++ words name := by
        rw [words_of_solid (Op.solid_mnemonic (.jump j))]
  rw [encodeLine, tokens, Line.word_jump_eq_ok_iff j]
  constructor
  · intro read
    obtain ⟨token, address, single, names, encoded⟩ := read
    obtain ⟨rfl, solid⟩ := trimmed.words_eq_singleton_iff.1 single
    exact ⟨solid, address, names, encoded⟩
  · intro read
    obtain ⟨solid, address, names, encoded⟩ := read
    exact ⟨name, address, trimmed.words_eq_singleton_iff.2 ⟨rfl, solid⟩, names, encoded⟩

namespace Symbols

variable {symbols : Symbols} {name : List Char} {target address : UInt32}
  (declared : symbols.offset? name = some target)

include declared in
theorem names_declared_iff : symbols.Names name address ↔
    Numeral 10 name address.toNat ∧ address.toNat ≤ maxTarget ∨
      (∀ n, ¬Numeral 10 name n) ∧ address = target := by
  rw [Names, resolve?, declared, Option.some_or, Option.some.injEq, eq_comm (a := target)]

include declared in
theorem exists_names_iff :
    (∃ address, symbols.Names name address) ↔ ∀ n, Numeral 10 name n → n ≤ maxTarget := by
  simp only [names_declared_iff declared]
  constructor
  · intro names n numeral
    obtain ⟨address, ⟨own, low⟩ | ⟨symbolic, -⟩⟩ := names
    · exact own.unique numeral ▸ low
    · exact absurd numeral (symbolic n)
  · intro low
    by_cases numbered : ∃ n, Numeral 10 name n
    · obtain ⟨n, numeral⟩ := numbered
      have below := low n numeral
      have same : (UInt32.ofNat n).toNat = n :=
        UInt32.toNat_ofNat_of_lt' (Nat.lt_of_le_of_lt below (by decide))
      exact ⟨UInt32.ofNat n, .inl (same.symm ▸ ⟨numeral, below⟩)⟩
    · exact ⟨target, .inr ⟨fun n numeral => numbered ⟨n, numeral⟩, rfl⟩⟩

include declared in
theorem Names.eq_target_iff (names : symbols.Names name address) :
    address = target ↔ ∀ n, Numeral 10 name n → n = target.toNat := by
  rcases (names_declared_iff declared).1 names with ⟨own, -⟩ | ⟨symbolic, rfl⟩
  · constructor
    · rintro rfl n numeral
      exact numeral.unique own
    · intro every
      exact UInt32.toNat_inj.1 (every _ own)
  · exact iff_of_true rfl fun n numeral => absurd numeral (symbolic n)

theorem Names.eq_ofNat (names : symbols.Names name address) {n : Nat} (numeral : Numeral 10 name n) :
    address = UInt32.ofNat n := by
  rcases names with ⟨own, -⟩ | ⟨symbolic, -⟩
  · rw [← own.unique numeral, UInt32.ofNat_toNat]
  · exact absurd numeral (symbolic n)

include declared in
theorem Names.fits (names : symbols.Names name address) {j : Jump}
    (low : (Instr.jump j target).Fits) : (Instr.jump j address).Fits := by
  rcases (names_declared_iff declared).1 names with ⟨-, below⟩ | ⟨-, rfl⟩
  · exact Nat.lt_succ_of_le below
  · exact low

end Symbols

/-- How a text is read that stands for the word of an instruction. A name that is refused has blanks in it
or is too large a number, and a name that is misread is a number: the text is the jump to that number. -/
structure Rereads (symbols : Symbols) (text : List Char) (i : Instr Reg UInt32) (w : Word) : Prop where
  accepted_iff : (∃ reread, encodeLine symbols text = .ok reread) ↔
    ∀ j name address, symbols.NamesTarget i j name address →
      (∀ c ∈ name, isBlank c = false) ∧ ∀ n, Numeral 10 name n → n ≤ maxTarget
  same_iff : ∀ reread, encodeLine symbols text = .ok reread →
    (reread = w ↔ ∀ j name address, symbols.NamesTarget i j name address →
      ∀ n, Numeral 10 name n → n = address.toNat)
  number : ∀ reread, encodeLine symbols text = .ok reread →
    ∀ j name address, symbols.NamesTarget i j name address →
      ∀ n, Numeral 10 name n → reread.decode? = some (.jump j (UInt32.ofNat n))

theorem Rereads.of_nameless {symbols : Symbols} {text : List Char} {i : Instr Reg UInt32} {w : Word}
    (read : encodeLine symbols text = .ok w)
    (nameless : ∀ j name address, ¬symbols.NamesTarget i j name address) :
    Rereads symbols text i w where
  accepted_iff := iff_of_true ⟨w, read⟩ fun j name address names =>
    absurd names (nameless j name address)
  same_iff := by
    intro reread accepted
    obtain rfl := Except.ok.inj (read.symm.trans accepted)
    exact iff_of_true rfl fun j name address names => absurd names (nameless j name address)
  number := fun _ _ j name address names => absurd names (nameless j name address)

theorem Rereads.of_name {symbols : Symbols} {labels : Labels} {j : Jump} {target : UInt32}
    {name : List Char} (shown : (Instr.jump j target).texts labels = [name])
    (fits : (Instr.jump j target).Fits) (trimmed : Trimmed name)
    (declared : symbols.offset? name = some target)
    (unique : ∀ other, symbols.offset? other = some target → other = name) :
    Rereads symbols ((Instr.jump j target).text labels) (.jump j target)
      (Instr.jump j target).encode := by
  -- What is said of every name of the target is said of this one.
  have own : symbols.NamesTarget (.jump j target) j name target := ⟨rfl, declared⟩
  have only : ∀ k other address, symbols.NamesTarget (.jump j target) k other address →
      k = j ∧ other = name ∧ address = target := by
    intro k other address names
    obtain ⟨jumps, offset⟩ := names
    obtain ⟨rfl, rfl⟩ := Instr.jump.inj jumps
    exact ⟨rfl, unique other offset, rfl⟩
  have read := @encodeLine_name_eq_ok_iff symbols labels j target name shown trimmed
  constructor
  · constructor
    · intro accepted k other address names
      obtain ⟨reread, accepted⟩ := accepted
      obtain ⟨rfl, rfl, rfl⟩ := only k other address names
      obtain ⟨solid, place, named, -⟩ := read.1 accepted
      exact ⟨solid, (Symbols.exists_names_iff declared).1 ⟨place, named⟩⟩
    · intro readable
      obtain ⟨solid, low⟩ := readable j name target own
      obtain ⟨place, named⟩ := (Symbols.exists_names_iff declared).2 low
      exact ⟨_, read.2 ⟨solid, place, named, rfl⟩⟩
  · intro reread accepted
    obtain ⟨-, place, names, rfl⟩ := read.1 accepted
    have same : (Instr.jump j place).encode = (Instr.jump j target).encode ↔ place = target := by
      constructor
      · intro encoded
        exact (Instr.jump.inj (Instr.encode_inj (names.fits declared fits) fits encoded)).2
      · rintro rfl
        rfl
    rw [same, names.eq_target_iff declared]
    constructor
    · intro every k other address refers
      obtain ⟨rfl, rfl, rfl⟩ := only k other address refers
      exact every
    · intro every
      exact every j name target own
  · intro reread accepted k other address refers n numeral
    obtain ⟨rfl, rfl, rfl⟩ := only k other address refers
    obtain ⟨-, place, names, rfl⟩ := read.1 accepted
    rw [Instr.decode?_encode_of_fits (names.fits declared fits), names.eq_ofNat numeral]

/-- The text that a named listing has for a word of an assembled image, read with the symbols of that
source, is the same word again, is refused, or is the jump to a number that the label at its target is
called. -/
theorem named_line_rereads {source : List Char} {assembly : Assembly}
    (assembled : assemble source = .ok assembly) (short : (lines source).length < 2 ^ 30)
    {index : Nat} {w : Word} (found : assembly.words[index]? = some w) :
    ∃ i, w.decode? = some i ∧
      Rereads assembly.symbols (i.text assembly.symbols.toLabels) i w := by
  obtain ⟨collected, -⟩ := assembleLines_eq_ok_iff.1 assembled
  have findable := Symbols.findable_of_ofLines collected
  have unique := name_unique assembled (by rwa [List.length_map])
  obtain ⟨line, -, written⟩ := exists_line_of_word assembled found
  obtain ⟨i, fits, rfl⟩ := Line.exists_of_word written
  refine ⟨i, Instr.decode?_encode_of_fits fits, ?_⟩
  rcases i.texts_cases assembly.symbols.toLabels with
    ⟨unnamed, numbers⟩ | ⟨j, target, name, rfl, named, shown⟩
  · apply Rereads.of_nameless (encodeLine_numbers assembly.symbols fits numbers)
    intro j name address names
    obtain ⟨jumps, offset⟩ := names
    rw [← name?_toLabels_iff findable unique, unnamed j address jumps] at offset
    cases offset
  · have declared := (name?_toLabels_iff findable unique).1 named
    obtain ⟨trimmed, -, -⟩ := written_of_declared assembled declared
    exact .of_name shown fits trimmed declared fun other offset =>
      unique other name target offset declared

theorem named_line_rereads_dotted :
    let symbols : Symbols := ⟨[("x".toList, 0), (".x".toList, 4)]⟩
    assemble ".x\n..x\njmp .x".toList = .ok ⟨[.padding, .padding, ⟨0x0D, 0, 0, 4⟩], symbols⟩ ∧
      (Instr.jump .always 4).text symbols.toLabels = "jmp .x".toList ∧
      ∃ reread, encodeLine symbols "jmp .x".toList = .ok reread ∧ reread = ⟨0x0D, 0, 0, 4⟩ := by
  intro symbols
  have assembled : assemble ".x\n..x\njmp .x".toList =
      .ok ⟨[.padding, .padding, ⟨0x0D, 0, 0, 4⟩], symbols⟩ := rfl
  have decoded : Word.decode? ⟨0x0D, 0, 0, 4⟩ = some (.jump .always 4) := by decide
  obtain ⟨i, same, rereads⟩ := @named_line_rereads _ _ assembled (by decide) 2 _ rfl
  obtain rfl : i = .jump .always 4 := Option.some.inj (same.symm.trans decoded)
  have dotted : ∀ j name address, symbols.NamesTarget (.jump .always 4) j name address →
      name = ['.', 'x'] := by
    intro j name address names
    obtain ⟨jumps, offset⟩ := names
    obtain rfl := (Instr.jump.inj jumps).2
    simpa [symbols] using Table.mem_of_lookup offset
  have symbolic := not_numeral_dotted ['x']
  obtain ⟨reread, accepted⟩ := rereads.accepted_iff.2 (by
    intro j name address names
    obtain rfl := dotted j name address names
    exact ⟨List.forall_mem_cons.2 ⟨by decide, List.forall_mem_singleton.2 (by decide)⟩,
      fun n numeral => absurd numeral (symbolic n)⟩)
  refine ⟨assembled, rfl, reread, accepted, (rereads.same_iff reread accepted).2 ?_⟩
  intro j name address names n numeral
  obtain rfl := dotted j name address names
  exact absurd numeral (symbolic n)

/-- A label that is called by a number: the text of a jump to it is the jump to the number. -/
theorem not_forall_named_line_rereads :
    ¬∀ (source : List Char) (assembly : Assembly) (w : Word) (i : Instr Reg UInt32) (reread : Word),
      assemble source = .ok assembly → (lines source).length < 2 ^ 30 → w ∈ assembly.words →
        w.decode? = some i →
          encodeLine assembly.symbols (i.text assembly.symbols.toLabels) = .ok reread →
            reread = w := by
  intro same
  have assembled : assemble ".8\njmp .8".toList =
      .ok ⟨[.padding, ⟨0x0D, 0, 0, 0⟩], ⟨[("8".toList, 0)]⟩⟩ := rfl
  have kept := same _ _ ⟨0x0D, 0, 0, 0⟩ (.jump .always 0) ⟨0x0D, 0, 0, 8⟩ assembled (by decide)
    (by decide) (by decide) rfl
  cases kept

end WordMachine
