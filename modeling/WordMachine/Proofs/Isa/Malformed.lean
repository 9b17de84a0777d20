import WordMachine.Proofs.Isa.Decoding

/-! Words that are no instruction. Nothing is decoded to tell them: the opcode is taken for a number, and
the other bytes for what it says they are. -/

namespace WordMachine

namespace Word

def registersNamed (w : Word) : List UInt8 :=
  match w.b0.toNat with
  | 0x00 | 0x02 | 0x04 | 0x06 | 0x08 => [w.b1, w.b2, w.b3]
  | 0x01 | 0x03 | 0x05 | 0x07 | 0x09 => [w.b2, w.b3]
  | 0x0A | 0x0B => [w.b1]
  | 0x0C => [w.b1, w.b2]
  | _ => []

/-- Four bytes that are no instruction: the opcode is none, a register is out of the file, or a word
without operands does not repeat its opcode. -/
def Malformed (w : Word) : Prop :=
  0x12 < w.b0.toNat ∧ w.b0.toNat < 0xFC ∨ (∃ b ∈ w.registersNamed, 16 ≤ b.toNat) ∨
    0xFC ≤ w.b0.toNat ∧ ¬(w.b1 = w.b0 ∧ w.b2 = w.b0 ∧ w.b3 = w.b0)

instance (w : Word) : Decidable w.Malformed :=
  inferInstanceAs (Decidable (_ ∨ _ ∨ _))

end Word

namespace Op

theorem ofOpcode?_eq_none_iff (code : UInt8) :
    ofOpcode? code = none ↔ 0x12 < code.toNat ∧ code.toNat < 0xFD := by
  have every : ∀ n < 256, ofOpcode? (UInt8.ofNat n) = none ↔ 0x12 < n ∧ n < 0xFD := by
    decide +kernel
  have here := every code.toNat code.toNat_lt
  rwa [UInt8.ofNat_toNat] at here

theorem bare_iff (op : Op) : (∃ b, op = .bare b) ↔ 0xFC ≤ op.opcode.toNat := by
  cases op with
  | alu f => cases f <;> simp [opcode]
  | aluImm f => cases f <;> simp [opcode]
  | transfer t => cases t <;> simp [opcode]
  | cmp => simp [opcode]
  | jump j =>
    cases j with
    | always | call => simp [opcode]
    | «when» condition => cases condition <;> simp [opcode]
  | bare b => cases b <;> simp [opcode]

theorem readOperands?_eq_none_iff (op : Op) (w : Word) :
    op.readOperands? w = none ↔ (∃ b ∈ op.registerBytes w, 16 ≤ b.toNat) ∨
      (∃ b, op = .bare b) ∧ w ≠ .fill op.opcode := by
  simp only [← reg?_eq_none_iff]
  cases op with
  | alu f =>
    cases one : reg? w.b1 <;> cases two : reg? w.b2 <;> cases three : reg? w.b3 <;>
      simp [readOperands?, registerBytes, one, two, three]
  | aluImm f =>
    cases two : reg? w.b2 <;> cases three : reg? w.b3 <;>
      simp [readOperands?, registerBytes, two, three]
  | transfer t => cases one : reg? w.b1 <;> simp [readOperands?, registerBytes, one]
  | cmp =>
    cases one : reg? w.b1 <;> cases two : reg? w.b2 <;>
      simp [readOperands?, registerBytes, one, two]
  | jump j => simp [readOperands?, registerBytes]
  | bare b => simp [readOperands?, registerBytes]

end Op

namespace Word

theorem eq_fill_iff {w : Word} : w = .fill w.b0 ↔ w.b1 = w.b0 ∧ w.b2 = w.b0 ∧ w.b3 = w.b0 := by
  obtain ⟨b0, b1, b2, b3⟩ := w
  simp [fill]

theorem registersNamed_eq {w : Word} {op : Op} (coded : w.b0 = op.opcode) :
    w.registersNamed = op.registerBytes w := by
  rw [registersNamed, coded]
  cases op with
  | alu f => cases f <;> rfl
  | aluImm f => cases f <;> rfl
  | transfer t => cases t <;> rfl
  | cmp => rfl
  | jump j =>
    cases j with
    | always | call => rfl
    | «when» condition => cases condition <;> rfl
  | bare b => cases b <;> rfl

theorem malformed_of_opcode {w : Word} {op : Op} (coded : w.b0 = op.opcode) :
    w.Malformed ↔ op.readOperands? w = none := by
  have known : ¬(0x12 < w.b0.toNat ∧ w.b0.toNat < 0xFC) := by
    rintro ⟨above, below⟩
    have unknown := (Op.ofOpcode?_eq_none_iff w.b0).2 ⟨above, Nat.lt_succ_of_lt below⟩
    rw [coded, Op.ofOpcode?_opcode] at unknown
    cases unknown
  have repeated : w = .fill op.opcode ↔ w.b1 = w.b0 ∧ w.b2 = w.b0 ∧ w.b3 = w.b0 := by
    rw [← coded, eq_fill_iff]
  rw [Malformed, registersNamed_eq coded, or_iff_right known, Op.readOperands?_eq_none_iff,
    Op.bare_iff, ne_eq, repeated, coded]

theorem malformed_of_unknown {w : Word} (unknown : Op.ofOpcode? w.b0 = none) :
    w.Malformed ↔ w ≠ .spare := by
  obtain ⟨above, below⟩ := (Op.ofOpcode?_eq_none_iff w.b0).1 unknown
  by_cases spare : w.b0 = 0xFC
  · have repeated : w = .spare ↔ w.b1 = w.b0 ∧ w.b2 = w.b0 ∧ w.b3 = w.b0 := by
      rw [← eq_fill_iff, spare, Word.spare]
    have plain : w.registersNamed = [] := by
      rw [registersNamed, spare]
      rfl
    rw [Malformed, plain, ne_eq, repeated, spare]
    simp
  · have apart : w ≠ .spare := by
      rintro rfl
      exact spare rfl
    have small : w.b0.toNat ≠ 0xFC := fun same => spare (UInt8.toNat_inj.1 same)
    exact iff_of_true (.inl ⟨above, by omega⟩) apart

/-- The bytes that are no instruction are those that do not decode. -/
theorem malformed_iff (w : Word) : w.Malformed ↔ w.decode? = none := by
  cases known : Op.ofOpcode? w.b0 with
  | none => simp [decode?, known, malformed_of_unknown known]
  | some op =>
    have coded := (Op.opcode_of_ofOpcode? known).symm
    have apart : w ≠ .spare := by
      rintro rfl
      exact op.opcode_ne_spare coded.symm
    rw [decode?, if_neg apart, known, Option.bind_some, malformed_of_opcode coded]

end Word

end WordMachine
