import WordMachine.Proofs.Source.Listing

/-! Listings with names. A source that is listed with its own names, and with its declarations in their
places, is read back with the words and the symbols that it had. -/

namespace WordMachine

open Text

/-- The line of a named listing: the declaration that stood there, or else the text of the word. -/
def Line.relist? (labels : Labels) (line : Line) (w : Word) : Option (List Char) :=
  match line.name? with
  | some name => some ('.' :: name)
  | none => w.decode?.map (Instr.text labels)

def namedListing? (source : List Char) (assembly : Assembly) : Option (List (List Char)) :=
  (((lines source).map Line.ofText).zip assembly.words).mapM fun entry =>
    entry.1.relist? assembly.symbols.toLabels entry.2

theorem offset?_of_toLabels {symbols : Symbols} (findable : symbols.Findable) {address : UInt32}
    {name : List Char} (named : symbols.toLabels.name? address = some name) :
    symbols.offset? name = some address := by
  have listed := Table.mem_of_mem_ofList (Table.mem_of_lookup named)
  obtain ⟨entry, sorted, swapped⟩ := List.mem_map.1 listed
  obtain rfl : entry = (name, address) := Prod.swap_injective swapped
  exact findable _ (Table.mem_of_mem_ofList sorted)

theorem name?_toLabels_iff {symbols : Symbols} (findable : symbols.Findable)
    (injective : ∀ name other address, symbols.offset? name = some address →
      symbols.offset? other = some address → name = other) {address : UInt32} {name : List Char} :
    symbols.toLabels.name? address = some name ↔ symbols.offset? name = some address := by
  constructor
  · exact offset?_of_toLabels findable
  · intro offset
    have declared : (name, address) ∈ symbols.declared := Table.mem_of_lookup offset
    have only : ∀ entry ∈ symbols.declared, entry.1 = name → entry.2 = address := by
      intro entry member same
      have found := findable entry member
      rw [same, offset] at found
      exact (Option.some.inj found).symm
    have sorted : (name, address) ∈ symbols.byName := Table.mem_ofList declared only
    have swapped : (address, name) ∈ symbols.byName.map Prod.swap :=
      List.mem_map_of_mem (f := Prod.swap) sorted
    apply Table.lookup_ofList swapped
    intro entry member same
    obtain ⟨listed, earlier, rfl⟩ := List.mem_map.1 member
    have found := findable listed (Table.mem_of_mem_ofList earlier)
    exact (injective name listed.1 address offset (same ▸ found)).symm

theorem readable_toLabels {symbols : Symbols} (findable : symbols.Findable)
    (plain : ∀ name address, symbols.offset? name = some address → Plain name) :
    symbols.toLabels.Readable symbols := by
  constructor
  · intro address name named
    exact plain name address (offset?_of_toLabels findable named)
  · intro address name named
    rw [Symbols.resolve?, offset?_of_toLabels findable named, Option.some_or]

theorem semicolon_notMem_strip (text : List Char) : ';' ∉ strip text := by
  intro comment
  have before := (trim_sublist _).subset comment
  exact absurd (List.mem_takeWhile_imp before) (by decide)

theorem semicolon_notMem_of_ofText {text name : List Char} (declares : Line.ofText text = .label name) :
    ';' ∉ name := by
  obtain ⟨rest, dotted, rfl⟩ := Line.ofStripped_eq_label_iff.1 declares
  intro comment
  have inside : ';' ∈ strip text := by
    rw [dotted]
    exact List.mem_cons_of_mem '.' ((trim_sublist rest).subset comment)
  exact semicolon_notMem_strip text inside

theorem Plain.ofText {name : List Char} (plain : Plain name) :
    Line.ofText ('.' :: name) = .label name := by
  have dotted : ∀ c ∈ '.' :: name, isBlank c = false :=
    List.forall_mem_cons.2 ⟨by decide, plain.solid.unbroken⟩
  have uncommented : ';' ∉ '.' :: name := by
    simpa using plain.uncommented
  rw [Line.ofText, strip_eq_self uncommented (trim_of_forall_not dotted)]
  exact congrArg Line.label (trim_of_forall_not plain.solid.unbroken)

/-- A text stands for a line of a source with these symbols, and for its word: it is a whole line that
declares the same name and is encoded as the same word. -/
structure StandsFor (symbols : Symbols) (line : Line) (w : Word) (text : List Char) : Prop where
  filled : text ≠ []
  unbroken : '\n' ∉ text
  declares : (Line.ofText text).name? = line.name?
  writes : (Line.ofText text).word symbols = .ok w

section Relisting

variable {symbols : Symbols} {labels : Labels} (readable : labels.Readable symbols)

include readable in
theorem Line.exists_relist {line : Line} {w : Word} (written : line.word symbols = .ok w)
    (plain : ∀ name, line = .label name → Plain name) :
    ∃ text, line.relist? labels w = some text ∧ StandsFor symbols line w text := by
  cases declared : line.name? with
  | some name =>
    obtain rfl := name?_eq_some_iff.1 declared
    have shown := plain name rfl
    refine ⟨'.' :: name, rfl, by simp, ?_, ?_, ?_⟩
    · intro broken
      rcases List.mem_cons.1 broken with dot | inside
      · exact absurd dot (by decide)
      · exact absurd (shown.solid.unbroken '\n' inside) (by decide)
    · rw [shown.ofText]
    · rw [shown.ofText]
      exact written
  | none =>
    obtain ⟨i, fits, rfl⟩ := exists_of_word written
    refine ⟨i.text labels, ?_, i.text_ne_nil labels, Instr.newline_notMem_text readable i, ?_, ?_⟩
    · rw [relist?, declared, Instr.decode?_encode_of_fits fits]
      rfl
    · rw [Instr.ofText_text readable, declared, name?]
    · exact Instr.word_text readable fits

include readable in
theorem exists_relisting {lines : List Line} {words : List Word}
    (written : lines.map (Line.word symbols) = words.map .ok)
    (plain : ∀ name, Line.label name ∈ lines → Plain name) :
    ∃ listing, ((lines.zip words).mapM fun entry => entry.1.relist? labels entry.2) = some listing ∧
      (∀ text ∈ listing, text ≠ [] ∧ '\n' ∉ text) ∧
      (listing.map Line.ofText).map Line.name? = lines.map Line.name? ∧
      (listing.map Line.ofText).map (Line.word symbols) = words.map .ok := by
  -- Only the names and the words of the listing are known, which is all that the two passes look at.
  induction lines generalizing words with
  | nil =>
    obtain rfl := List.map_eq_nil_iff.1 written.symm
    exact ⟨[], rfl, by simp, rfl, rfl⟩
  | cons line more ih =>
    obtain ⟨w, rest, rfl, first, others⟩ := List.map_eq_cons_iff.1 written.symm
    have here : ∀ name, line = .label name → Plain name := by
      intro name same
      exact plain name (same ▸ List.mem_cons_self)
    obtain ⟨text, relisted, stands⟩ := Line.exists_relist readable first.symm here
    obtain ⟨listing, tail, whole, names, encoded⟩ :=
      ih others.symm fun name member => plain name (List.mem_cons_of_mem line member)
    refine ⟨text :: listing, ?_, List.forall_mem_cons.2 ⟨⟨stands.filled, stands.unbroken⟩, whole⟩, ?_, ?_⟩
    · rw [List.zip_cons_cons, List.mapM_cons, tail, relisted]
      rfl
    · rw [List.map_cons, List.map_cons, List.map_cons, stands.declares, names]
    · rw [List.map_cons, List.map_cons, List.map_cons, stands.writes, encoded]

end Relisting

theorem slot_inj {line other : Nat} (low : line < 2 ^ 30) (lower : other < 2 ^ 30)
    (same : slot line = slot other) : line = other := by
  rw [slot_eq, slot_eq] at same
  have addresses : 4 * line % 2 ^ 32 = 4 * other % 2 ^ 32 := congrArg UInt32.toNat same
  omega

theorem name_unique {lines : List Line} {assembly : Assembly}
    (assembled : assembleLines lines = .ok assembly) (short : lines.length < 2 ^ 30)
    (name other : List Char) (address : UInt32) (found : assembly.symbols.offset? name = some address)
    (again : assembly.symbols.offset? other = some address) : name = other := by
  have below : ∀ index name, lines[index]? = some (.label name) → index < 2 ^ 30 := by
    intro index name here
    exact Nat.lt_trans (List.getElem?_eq_some_iff.1 here).1 short
  obtain ⟨line, here, place⟩ := exists_line_of_offset? assembled found
  obtain ⟨second, there, samePlace⟩ := exists_line_of_offset? assembled again
  obtain rfl := slot_inj (below line name here) (below second other there) (place.trans samePlace.symm)
  exact Line.label.inj (Option.some.inj (here.symm.trans there))

theorem plain_of_declared {source name : List Char} {assembly : Assembly}
    (assembled : assemble source = .ok assembly)
    (declared : Line.label name ∈ (lines source).map Line.ofText)
    (unbroken : ∀ c ∈ name, isBlank c = false) (symbolic : ∀ n, ¬Numeral 10 name n) : Plain name := by
  obtain ⟨index, here⟩ := List.getElem?_of_mem declared
  obtain ⟨text, -, declares⟩ := List.mem_map.1 declared
  have filled : name ≠ [] := by
    intro empty
    exact not_misdeclared_of_assembleLines assembled index .emptyLabel ⟨name, here, .inl ⟨empty, rfl⟩⟩
  exact ⟨⟨filled, unbroken⟩, semicolon_notMem_of_ofText declares, symbolic⟩

/-- A source whose names are words that do not read as numbers is listed with these names, and the
listing is assembled as the source was, with the same words and the same symbols. Below `2 ^ 30` lines
the listing names exactly the addresses that have a name. -/
theorem namedListing_reassembles {source : List Char} {assembly : Assembly}
    (assembled : assemble source = .ok assembly)
    (named : ∀ name, Line.label name ∈ (lines source).map Line.ofText →
      (∀ c ∈ name, isBlank c = false) ∧ ∀ n, ¬Numeral 10 name n) :
    ((lines source).length < 2 ^ 30 → ∀ address name,
      assembly.symbols.toLabels.name? address = some name ↔
        assembly.symbols.offset? name = some address) ∧
    ∃ listing, namedListing? source assembly = some listing ∧
      assemble (joinLines listing) = .ok assembly := by
  obtain ⟨collected, -⟩ := assembleLines_eq_ok_iff.1 assembled
  have findable := Symbols.findable_of_ofLines collected
  have plain : ∀ name, Line.label name ∈ (lines source).map Line.ofText → Plain name := by
    intro name declared
    obtain ⟨unbroken, symbolic⟩ := named name declared
    exact plain_of_declared assembled declared unbroken symbolic
  have readable : assembly.symbols.toLabels.Readable assembly.symbols := by
    apply readable_toLabels findable
    intro name address found
    obtain ⟨index, here, -⟩ := exists_line_of_offset? assembled found
    exact plain name (List.mem_of_getElem? here)
  constructor
  · intro short address name
    apply name?_toLabels_iff findable
    exact name_unique assembled (by rwa [List.length_map])
  · obtain ⟨listing, listed, whole, names, encoded⟩ :=
      exists_relisting readable (assembleLines_ok assembled).1 plain
    have again := (Symbols.ofLines_congr names).trans collected
    exact ⟨listing, listed, assemble_joinLines whole again encoded⟩

theorem namedListing_reassembles_dotted :
    let source := ".x\n..x\njmp .x\njmp x ; back\njmp 4".toList
    let assembly : Assembly :=
      ⟨[.padding, .padding, ⟨0x0D, 0, 0, 4⟩, ⟨0x0D, 0, 0, 0⟩, ⟨0x0D, 0, 0, 4⟩],
        ⟨[("x".toList, 0), (".x".toList, 4)]⟩⟩
    namedListing? source assembly =
        some [".x".toList, "..x".toList, "jmp .x".toList, "jmp x".toList, "jmp .x".toList] ∧
      assemble ".x\n..x\njmp .x\njmp x\njmp .x".toList = .ok assembly := by
  intro source assembly
  have assembled : assemble source = .ok assembly := rfl
  have named : ∀ name, Line.label name ∈ (lines source).map Line.ofText →
      (∀ c ∈ name, isBlank c = false) ∧ ∀ n, ¬Numeral 10 name n := by
    intro name member
    have read : (lines source).map Line.ofText = [.label "x".toList, .label ".x".toList,
        .statement ["jmp".toList, ".x".toList], .statement ["jmp".toList, "x".toList],
        .statement ["jmp".toList, "4".toList]] := rfl
    have shown : name = ['x'] ∨ name = ['.', 'x'] := by
      simpa [read] using member
    have symbolic : ¬Operand.isLiteral name := by
      rcases shown with rfl | rfl <;> decide
    refine ⟨?_, Operand.not_numeral symbolic⟩
    have letter : ∀ c ∈ ['x'], isBlank c = false := List.forall_mem_singleton.2 (by decide)
    rcases shown with rfl | rfl
    · exact letter
    · exact List.forall_mem_cons.2 ⟨by decide, letter⟩
  obtain ⟨-, listing, listed, again⟩ := namedListing_reassembles assembled named
  obtain rfl : listing =
      [".x".toList, "..x".toList, "jmp .x".toList, "jmp x".toList, "jmp .x".toList] :=
    Option.some.inj (listed.symm.trans (by rfl))
  exact ⟨listed, again⟩

end WordMachine
