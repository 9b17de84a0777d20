import WordMachine.Proofs.Machine.Simulation
import WordMachine.Proofs.Source.Listing

/-! Jumps to labels. The table has four times the line of every label, as far as an address goes, but a
jump word has three bytes for it. A label behind the last line that these can name is missed. -/

namespace WordMachine

open Text LineMachine

theorem Op.head_mnemonic_ne_dot (op : Op) : op.mnemonic.toList.head? ≠ some '.' := by
  intro dotted
  exact absurd (op.mnemonic_isAlphanum '.' (List.mem_of_mem_head? dotted)) (by decide)

theorem JumpsToLabel.ofStripped {raw reference : List Char} {j : Jump}
    (jumps : JumpsToLabel (strip raw) j reference) : ∃ name,
      Line.ofStripped (strip raw) = .statement [name, reference] ∧
        lowerCase name = (Op.jump j).mnemonic.toList := by
  obtain ⟨name, spelled, mnemonic, -⟩ := jumps
  have filled : strip raw ≠ [] := by
    intro empty
    rw [empty, words_nil] at spelled
    cases spelled
  have undotted : (strip raw).head? ≠ some '.' := by
    intro dotted
    obtain ⟨rest, shape⟩ := List.head?_eq_some_iff.1 dotted
    obtain ⟨tail, more, first⟩ := words_cons (c := '.') (by decide) rest
    rw [shape, first] at spelled
    obtain ⟨rfl, -⟩ := List.cons.inj spelled
    exact (Op.jump j).head_mnemonic_ne_dot (mnemonic ▸ rfl)
  obtain ⟨first, operands, found, read⟩ := Line.ofStripped_strip raw filled undotted
  obtain ⟨rfl, rfl⟩ := List.cons.inj (found.symm.trans spelled)
  exact ⟨first, read, mnemonic⟩

theorem Line.word_jump {symbols : Symbols} {name reference : List Char} {j : Jump} {w : Word}
    (mnemonic : lowerCase name = (Op.jump j).mnemonic.toList) (symbolic : ∀ n, ¬Numeral 10 reference n)
    (written : (Line.statement [name, reference]).word symbols = .ok w) : ∃ i,
      (Instr.jump j (.label reference)).resolve symbols = .ok i ∧ i.encode = w := by
  have goal : Operand.target? reference = some (.label reference) :=
    Operand.target?_eq_label_iff.2 ⟨rfl, symbolic⟩
  have read : Statement.parse [name, reference] = .ok (.jump j (.label reference)) := by
    simp only [Statement.parse, List.headD_cons, List.tail_cons, mnemonic, Op.ofMnemonic?_mnemonic,
      Statement.operands, Statement.target, Statement.expect, goal]
    rfl
  obtain ⟨parsed, i, again, resolved, encoded⟩ := word_statement_ok written
  obtain rfl := Except.ok.inj (read.symm.trans again)
  exact ⟨i, resolved, encoded⟩

theorem exists_place_of_jumpsToLabel {source : List Char} {assembly : Assembly}
    (assembled : assemble source = .ok assembly) {line : Nat} {text reference : List Char} {j : Jump}
    (listed : (strippedLines source)[line]? = some text) (jumps : JumpsToLabel text j reference) :
    ∃ origin, placeOf? (strippedLines source) reference = some origin ∧
      assembly.symbols.resolve? reference = some (UInt32.ofNat (4 * origin)) ∧
      assembly.words[line]? = some (Instr.jump j (UInt32.ofNat (4 * origin))).encode := by
  rw [assemble_eq] at assembled
  have known := offset?_of_assembled assembled
  obtain ⟨raw, -, rfl⟩ := List.mem_map.1 (List.mem_of_getElem? listed)
  obtain ⟨name, read, mnemonic⟩ := jumps.ofStripped
  obtain ⟨-, -, -, symbolic⟩ := jumps
  have here : ((strippedLines source).map Line.ofStripped)[line]? = some (.statement [name, reference]) := by
    rw [List.getElem?_map, listed, Option.map_some, read]
  obtain ⟨w, found, written⟩ := exists_word_of_line assembled here
  obtain ⟨i, resolved, rfl⟩ := Line.word_jump mnemonic symbolic written
  obtain ⟨origin, place, rfl⟩ := resolve_label_ok known resolved
  refine ⟨origin, place, ?_, found⟩
  rw [resolve?_eq known, place, Option.map_some]

theorem decode?_encode_jump (j : Jump) (line : Nat) :
    (Instr.jump j (UInt32.ofNat (4 * line))).encode.decode? =
      some (.jump j (UInt32.ofNat (4 * line % 0x1000000))) := by
  rw [Instr.decode?_encode, Instr.cut]
  congr 2
  rw [← UInt32.toNat_inj, UInt32.toNat_mod]
  change 4 * line % 2 ^ 32 % 0x1000000 = 4 * line % 0x1000000 % 2 ^ 32
  omega

theorem cut_line_iff (line : Nat) :
    UInt32.ofNat (4 * line % 0x1000000) = UInt32.ofNat (4 * line) ∧
      (UInt32.ofNat (4 * line)).toNat = 4 * line ↔ line < lineSpace := by
  rw [← UInt32.toNat_inj]
  change 4 * line % 0x1000000 % 2 ^ 32 = 4 * line % 2 ^ 32 ∧ 4 * line % 2 ^ 32 = 4 * line ↔ _
  unfold lineSpace
  omega

/-- A jump to a label is encoded with the lowest three bytes of four times the line that declares the
label. They are the offset that the table has for the label, and it is four times the line, exactly if
the line is one that a jump word can name. -/
theorem label_jump_target {source : List Char} {assembly : Assembly}
    (assembled : assemble source = .ok assembly) {line : Nat} {text reference : List Char} {j : Jump}
    (listed : (strippedLines source)[line]? = some text) (jumps : JumpsToLabel text j reference) :
    ∃ origin w offset, placeOf? (strippedLines source) reference = some origin ∧
      assembly.words[line]? = some w ∧ assembly.symbols.resolve? reference = some offset ∧
      offset = UInt32.ofNat (4 * origin) ∧
      w.decode? = some (.jump j (UInt32.ofNat (4 * origin % 0x1000000))) ∧
      (w.decode? = some (.jump j offset) ∧ offset.toNat = 4 * origin ↔ origin < lineSpace) := by
  obtain ⟨origin, place, offset, found⟩ := exists_place_of_jumpsToLabel assembled listed jumps
  refine ⟨origin, _, _, place, found, offset, rfl, decode?_encode_jump j origin, ?_⟩
  rw [decode?_encode_jump, Option.some.injEq, Instr.jump.injEq, eq_self, true_and]
  exact cut_line_iff origin

theorem label_jump_target_back :
    let source := "..x\njal .end\njne ..x\n.end".toList
    ∃ w, assemble source = .ok ⟨[.padding, ⟨0x12, 0, 0, 12⟩, w, .padding],
        ⟨[(".x".toList, 0), ("end".toList, 12)]⟩⟩ ∧
      w.decode? = some (.jump (.when .notEqual) 0) := by
  intro source
  have assembled : assemble source = .ok ⟨[.padding, ⟨0x12, 0, 0, 12⟩, ⟨0x0F, 0, 0, 0⟩, .padding],
      ⟨[(".x".toList, 0), ("end".toList, 12)]⟩⟩ := rfl
  have jumps : JumpsToLabel "jne ..x".toList (.when .notEqual) "..x".toList :=
    ⟨"jne".toList, rfl, rfl, Operand.not_numeral (by decide)⟩
  have listed : (strippedLines source)[2]? = some "jne ..x".toList := rfl
  obtain ⟨origin, w, offset, place, found, -, -, decoded, -⟩ :=
    label_jump_target assembled listed jumps
  obtain rfl : 0 = origin := Option.some.inj place
  obtain rfl : ⟨0x0F, 0, 0, 0⟩ = w := Option.some.inj found
  exact ⟨_, assembled, decoded⟩

/-- A jump over empty lines to the last one. -/
def distant (blanks : Nat) : List Char :=
  "jmp x".toList ++ '\n' :: (List.replicate blanks '\n' ++ ".x".toList)

theorem lines_replicate_newline (blanks : Nat) (rest : List Char) :
    lines (List.replicate blanks '\n' ++ rest) = List.replicate blanks [] ++ lines rest := by
  induction blanks with
  | zero => rfl
  | succ blanks ih =>
    rw [List.replicate_succ, List.cons_append, List.replicate_succ, List.cons_append, ← ih]
    exact lines_append_newline [] _ (by simp)

theorem strippedLines_distant (blanks : Nat) :
    strippedLines (distant blanks) = "jmp x".toList :: (List.replicate blanks [] ++ [".x".toList]) := by
  have read : lines (distant blanks) = "jmp x".toList :: (List.replicate blanks [] ++ [".x".toList]) :=
    calc lines (distant blanks)
      _ = "jmp x".toList :: lines (List.replicate blanks '\n' ++ ".x".toList) :=
        lines_append_newline _ _ (by decide)
      _ = "jmp x".toList :: (List.replicate blanks [] ++ lines ".x".toList) := by
        rw [lines_replicate_newline]
  rw [strippedLines, read, List.map_cons, List.map_append, List.map_replicate]
  rfl

theorem placeOf?_distant (blanks : Nat) :
    placeOf? (strippedLines (distant blanks)) "x".toList = some (blanks + 1) := by
  have trimmed : trim ['x'] = ['x'] := rfl
  have declaring : declaringLine? (strippedLines (distant blanks)) "x".toList = some (blanks + 1) := by
    rw [strippedLines_distant, declaringLine?, List.findIdx?_cons, List.findIdx?_append]
    simp [declaredName?, List.findIdx?_replicate, trimmed]
  rw [placeOf?, declaring, Option.some_or]

theorem exists_assemble_distant (blanks : Nat) :
    ∃ assembly, assemble (distant blanks) = .ok assembly := by
  have read : (strippedLines (distant blanks)).map Line.ofStripped =
      (.statement ["jmp".toList, "x".toList] :: List.replicate blanks .blank) ++
        [.label "x".toList] := by
    rw [strippedLines_distant, List.map_cons, List.map_append, List.map_replicate]
    rfl
  have collected : Symbols.ofLines ((strippedLines (distant blanks)).map Line.ofStripped) =
      .ok ⟨[("x".toList, slot (blanks + 1))]⟩ := by
    have unlabelled : ∀ line ∈ Line.statement ["jmp".toList, "x".toList] ::
        List.replicate blanks .blank, ∀ name, line ≠ .label name := by
      intro line member name
      rcases List.mem_cons.1 member with rfl | idle
      · simp
      · simp [List.eq_of_mem_replicate idle]
    -- The label is on the last line, so the table is empty when it is met.
    rw [read, Symbols.ofLines_concat, Symbols.ofLines_of_unlabelled unlabelled, List.length_cons,
      List.length_replicate]
    rfl
  refine ⟨⟨(Instr.jump .always (slot (blanks + 1))).encode ::
    (List.replicate blanks .padding ++ [.padding]), ⟨[("x".toList, slot (blanks + 1))]⟩⟩, ?_⟩
  rw [assemble_eq, assembleLines_eq_ok_iff]
  refine ⟨collected, encodeLines_eq_ok_iff.2 ?_⟩
  simp only [read, List.cons_append, List.map_cons, List.map_append, List.map_replicate, List.map_nil]
  rfl

/-- Not every jump to a label reaches it: the label may be on the first line that has no address of
three bytes. -/
theorem not_forall_label_jump_reaches : ¬∀ (source : List Char) (assembly : Assembly),
    assemble source = .ok assembly → ∀ (line : Nat) (text reference : List Char) (j : Jump),
      (strippedLines source)[line]? = some text → JumpsToLabel text j reference →
        ∃ origin w offset, placeOf? (strippedLines source) reference = some origin ∧
          assembly.words[line]? = some w ∧ assembly.symbols.resolve? reference = some offset ∧
          w.decode? = some (.jump j offset) ∧ offset.toNat = 4 * origin := by
  intro reaches
  -- The number of lines stays a variable, or the source would be written out.
  obtain ⟨blanks, far⟩ : ∃ blanks, blanks + 1 = lineSpace := Nat.exists_add_one_eq.2 (by decide)
  obtain ⟨assembly, assembled⟩ := exists_assemble_distant blanks
  have listed : (strippedLines (distant blanks))[0]? = some "jmp x".toList := by
    rw [strippedLines_distant, List.getElem?_cons_zero]
  have jumps : JumpsToLabel "jmp x".toList .always "x".toList :=
    ⟨"jmp".toList, rfl, rfl, Operand.not_numeral (by decide)⟩
  obtain ⟨line, w, offset, place, found, declared, decoded, whole⟩ :=
    reaches _ assembly assembled 0 _ _ _ listed jumps
  obtain ⟨origin, samePlace, resolved, encoded⟩ := exists_place_of_jumpsToLabel assembled listed jumps
  obtain rfl := Option.some.inj (samePlace.symm.trans place)
  obtain rfl := Option.some.inj (encoded.symm.trans found)
  obtain rfl := Option.some.inj (resolved.symm.trans declared)
  rw [decode?_encode_jump, Option.some.injEq, Instr.jump.injEq] at decoded
  have low := (cut_line_iff origin).1 ⟨decoded.2, whole⟩
  obtain rfl := Option.some.inj ((placeOf?_distant blanks).symm.trans place)
  exact absurd low (by rw [far]; exact Nat.lt_irrefl lineSpace)

end WordMachine
