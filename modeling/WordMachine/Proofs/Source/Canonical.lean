import WordMachine.Proofs.Machine.Fetch
import WordMachine.Proofs.Source.Listing

/-! Which words a line can be encoded as. They are the words that decode, but for two kinds: the spare
word, and comparisons whose unused byte is not zero. Both are listed as instructions that have another
word. -/

namespace WordMachine

open Text

theorem Instr.regByte_of_reg? {b : UInt8} {r : Reg} (named : reg? b = some r) : regByte r = b := by
  rw [regByte, val_of_reg? named, UInt8.ofNat_toNat]

namespace Word

theorem byteOf_toUInt32 (b : UInt8) : Instr.byteOf b.toUInt32 0 = b := by
  rw [← UInt8.toNat_inj, Instr.byteOf_toNat _ _ (by decide), UInt8.toNat_toUInt32]
  exact (Nat.mod_eq_of_lt (by simpa using b.toNat_lt)).trans (Nat.div_one _)

theorem byteOf_addr16 (w : Word) :
    Instr.byteOf w.addr16 1 = w.b2 ∧ Instr.byteOf w.addr16 0 = w.b3 := by
  have second := w.b2.toNat_lt
  have third := w.b3.toNat_lt
  constructor
  all_goals
    rw [← UInt8.toNat_inj, Instr.byteOf_toNat _ _ (by decide), w.addr16_toNat]
    simp only [UInt32.reduceToNat]
    omega

theorem byteOf_target24 (w : Word) : Instr.byteOf w.target24 2 = w.b1 ∧
    Instr.byteOf w.target24 1 = w.b2 ∧ Instr.byteOf w.target24 0 = w.b3 := by
  have first := w.b1.toNat_lt
  have second := w.b2.toNat_lt
  have third := w.b3.toNat_lt
  refine ⟨?_, ?_, ?_⟩
  all_goals
    rw [← UInt8.toNat_inj, Instr.byteOf_toNat _ _ (by decide), w.target24_toNat]
    simp only [UInt32.reduceToNat]
    omega

end Word

theorem Op.Reads.encode_eq {op : Op} {w : Word} {i : Instr Reg UInt32} (own : op.opcode = w.b0)
    (reads : op.Reads w i) : i.encode = if op = .cmp then { w with b3 := 0 } else w := by
  obtain ⟨b0, b1, b2, b3⟩ := w
  obtain rfl : op.opcode = b0 := own
  cases reads with
  | alu one two three =>
    rw [Instr.encode, Instr.regByte_of_reg? one, Instr.regByte_of_reg? two,
      Instr.regByte_of_reg? three]
    rfl
  | aluImm two three =>
    rw [Instr.encode, Word.byteOf_toUInt32, Instr.regByte_of_reg? two, Instr.regByte_of_reg? three]
    rfl
  | transfer one =>
    rw [Instr.encode, Instr.regByte_of_reg? one, (Word.byteOf_addr16 _).1, (Word.byteOf_addr16 _).2]
    rfl
  | cmp one two =>
    rw [Instr.encode, Instr.regByte_of_reg? one, Instr.regByte_of_reg? two]
    rfl
  | @jump j =>
    obtain ⟨first, second, third⟩ := Word.byteOf_target24 ⟨(Op.jump j).opcode, b1, b2, b3⟩
    rw [Instr.encode, first, second, third]
    rfl
  | bare repeated => exact repeated.symm

namespace Word

/-- The word of the line that lists a word: padding for a spare word, and a comparison without its unused
byte. -/
def relisted (w : Word) : Word :=
  if w = .spare then .padding else if w.b0 = Op.cmp.opcode then { w with b3 := 0 } else w

theorem encode_of_decode? {w : Word} {i : Instr Reg UInt32} (decoded : w.decode? = some i) :
    i.encode = w.relisted := by
  rw [relisted]
  rcases spare_or_reads decoded with ⟨rfl, rfl⟩ | ⟨coded, reads⟩
  · rfl
  · have used : w ≠ .spare := by
      rintro rfl
      exact i.op.opcode_ne_spare coded.symm
    have compares : w.b0 = Op.cmp.opcode ↔ i.op = .cmp := by
      rw [coded]
      exact ⟨Op.opcode_inj, congrArg Op.opcode⟩
    rw [if_neg used, reads.encode_eq coded.symm]
    simp only [compares]

theorem decode?_of_compares {w : Word} (compares : w.b0 = Op.cmp.opcode) :
    ({ w with b3 := 0 } : Word).decode? = w.decode? := by
  obtain ⟨b0, b1, b2, b3⟩ := w
  obtain rfl : b0 = _ := compares
  have used : ∀ last, (⟨Op.cmp.opcode, b1, b2, last⟩ : Word) ≠ .spare := by
    intro last spare
    exact Op.cmp.opcode_ne_spare (congrArg b0 spare)
  rw [decode?, decode?, if_neg (used 0), if_neg (used b3), Op.ofOpcode?_opcode]
  rfl

/-- Some line that holds an instruction is encoded as the word, with some symbols. -/
def Emitted (w : Word) : Prop :=
  ∃ text tokens symbols, Line.ofText text = .statement tokens ∧
    (Line.statement tokens).word symbols = .ok w

theorem emitted_encode {i : Instr Reg UInt32} (fits : i.Fits) : i.encode.Emitted := by
  have readable := Labels.readable_empty .empty
  have read := Instr.ofText_text readable i
  exact ⟨i.text .empty, _, .empty, read, read ▸ Instr.word_text readable fits⟩

theorem Emitted.exists_encode {w : Word} (emitted : w.Emitted) :
    ∃ i : Instr Reg UInt32, i.encode = w := by
  obtain ⟨text, tokens, symbols, -, written⟩ := emitted
  obtain ⟨-, i, -, -, encoded⟩ := Line.word_statement_ok written
  exact ⟨i, encoded⟩

theorem Emitted.decode?_isSome {w : Word} (emitted : w.Emitted) : w.decode?.isSome := by
  obtain ⟨i, rfl⟩ := emitted.exists_encode
  rw [i.decode?_encode]
  rfl

theorem emitted_relisted {w : Word} (decodes : w.decode?.isSome) : w.relisted.Emitted := by
  obtain ⟨i, decoded⟩ := Option.isSome_iff_exists.1 decodes
  rw [← encode_of_decode? decoded]
  exact emitted_encode (of_decode? decoded).2

end Word

theorem map_encode_of_decoded {words : List Word} {code : List (Instr Reg UInt32)}
    (decoded : words.map Word.decode? = code.map some) :
    code.map Instr.encode = words.map Word.relisted := by
  induction words generalizing code with
  | nil =>
    obtain rfl := List.map_eq_nil_iff.1 decoded.symm
    rfl
  | cons w rest ih =>
    obtain ⟨i, others, rfl, first, same⟩ := List.map_eq_cons_iff.1 decoded.symm
    rw [List.map_cons, List.map_cons, Word.encode_of_decode? first.symm, ih same.symm]

/-- A word decodes if and only if it is the spare word, or a line is encoded as it, or it is such a word
of a comparison but for its last byte. An image of words that decode has a listing, which is assembled as
the image with padding for its spare words and without the last bytes of its comparisons. -/
theorem decodable_iff_emitted (program : Program) :
    (∀ w : Word, w.decode?.isSome ↔ w = .spare ∨ w.Emitted ∨
      w.b0 = Op.cmp.opcode ∧ w.b3 ≠ 0 ∧ Word.Emitted { w with b3 := 0 }) ∧
    ((∀ w ∈ program.contents, w.decode? ≠ none) →
      ∃ listing, disassemble? .empty program.contents = some listing ∧
        assemble (joinLines listing) = .ok ⟨program.contents.map Word.relisted, .empty⟩) := by
  constructor
  · intro w
    constructor
    · intro decodes
      have emitted := Word.emitted_relisted decodes
      rw [Word.relisted] at emitted
      split at emitted
      · next spare => exact .inl spare
      · split at emitted
        · next compares =>
          by_cases unused : w.b3 = 0
          · have whole : ({ w with b3 := 0 } : Word) = w := by rw [← unused]
            exact .inr (.inl (whole ▸ emitted))
          · exact .inr (.inr ⟨compares, unused, emitted⟩)
        · exact .inr (.inl emitted)
    · rintro (rfl | emitted | ⟨compares, -, emitted⟩)
      · rfl
      · exact emitted.decode?_isSome
      · rw [← Word.decode?_of_compares compares]
        exact emitted.decode?_isSome
  · intro decodable
    obtain ⟨code, fits, decoded⟩ := Word.exists_of_decode? decodable
    refine ⟨code.map (Instr.text .empty), disassemble?_of_decoded .empty decoded, ?_⟩
    rw [← map_encode_of_decoded decoded]
    exact assemble_listing fits

theorem decodable_iff_emitted_spare : ∃ listing,
    disassemble? .empty [.spare, ⟨0x0C, 2, 3, 7⟩, ⟨0x0C, 2, 3, 0⟩] = some listing ∧
      assemble (joinLines listing) = .ok ⟨[.padding, ⟨0x0C, 2, 3, 0⟩, ⟨0x0C, 2, 3, 0⟩], .empty⟩ :=
  (decodable_iff_emitted (.ofWords [.spare, ⟨0x0C, 2, 3, 7⟩, ⟨0x0C, 2, 3, 0⟩])).2 (by decide)

/-- A comparison with a last byte that is not zero decodes, though no line is encoded as it. -/
theorem not_forall_decodable_iff_emitted :
    ¬∀ w : Word, w.decode?.isSome ↔ w = .spare ∨ w.Emitted := by
  intro claimed
  rcases (claimed ⟨0x0C, 2, 3, 7⟩).1 rfl with spare | emitted
  · exact absurd spare (by decide)
  · obtain ⟨i, encoded⟩ := emitted.exists_encode
    have decoded := i.decode?_encode
    rw [encoded] at decoded
    have own : Instr.encode (.cmp 2 3) = ⟨0x0C, 2, 3, 7⟩ := by
      rw [← encoded, ← i.encode_cut, ← Option.some.inj decoded]
      rfl
    exact absurd own (by decide)

end WordMachine
