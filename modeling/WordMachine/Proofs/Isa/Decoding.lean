import WordMachine.Proofs.Isa.Codec

/-! What a word decodes to. Its registers are bytes of the word that are below sixteen, and its numbers
are no larger than the bytes that hold them. -/

namespace WordMachine

def Op.registerBytes (op : Op) (w : Word) : List UInt8 :=
  match op with
  | .alu _ => [w.b1, w.b2, w.b3]
  | .aluImm _ => [w.b2, w.b3]
  | .transfer _ => [w.b1]
  | .cmp => [w.b1, w.b2]
  | .jump _ | .bare _ => []

def Instr.registers {ρ τ : Type} : Instr ρ τ → List ρ
  | .alu _ left right dst => [left, right, dst]
  | .aluImm _ _ src dst => [src, dst]
  | .transfer _ reg _ => [reg]
  | .cmp left right => [left, right]
  | .jump .. | .bare _ => []

theorem val_of_reg? {b : UInt8} {r : Reg} (named : reg? b = some r) : r.val = b.toNat := by
  rw [reg?] at named
  split at named
  · cases named
    rfl
  · cases named

theorem reg?_eq_none_iff {b : UInt8} : reg? b = none ↔ 16 ≤ b.toNat := by
  rw [reg?]
  split
  · next bound => exact iff_of_false nofun (Nat.not_le_of_lt bound)
  · next beyond => exact iff_of_true rfl (Nat.le_of_not_lt beyond)

namespace Op

/-- How the operands of a word are read: registers off single bytes, numbers off all that are left. -/
inductive Reads (w : Word) : Op → Instr Reg UInt32 → Prop
  | alu {f : AluOp} {left right dst : Reg} (one : reg? w.b1 = some left)
    (two : reg? w.b2 = some right) (three : reg? w.b3 = some dst) :
    Reads w (.alu f) (.alu f left right dst)
  | aluImm {f : AluOp} {src dst : Reg} (two : reg? w.b2 = some src) (three : reg? w.b3 = some dst) :
    Reads w (.aluImm f) (.aluImm f w.b1.toUInt32 src dst)
  | transfer {t : Transfer} {reg : Reg} (one : reg? w.b1 = some reg) :
    Reads w (.transfer t) (.transfer t reg w.addr16)
  | cmp {left right : Reg} (one : reg? w.b1 = some left) (two : reg? w.b2 = some right) :
    Reads w .cmp (.cmp left right)
  | jump {j : Jump} : Reads w (.jump j) (.jump j w.target24)
  | bare {b : Bare} (repeated : w = .fill (Op.bare b).opcode) : Reads w (.bare b) (.bare b)

theorem reads_of_readOperands? {op : Op} {w : Word} {i : Instr Reg UInt32}
    (read : op.readOperands? w = some i) : op.Reads w i := by
  cases op with
  | alu f =>
    simp only [readOperands?, Option.bind_eq_bind, Option.bind_eq_some_iff] at read
    obtain ⟨left, one, right, two, dst, three, same⟩ := read
    obtain rfl := Option.some.inj same
    exact .alu one two three
  | aluImm f =>
    simp only [readOperands?, Option.bind_eq_bind, Option.bind_eq_some_iff] at read
    obtain ⟨src, two, dst, three, same⟩ := read
    obtain rfl := Option.some.inj same
    exact .aluImm two three
  | transfer t =>
    simp only [readOperands?, Option.bind_eq_bind, Option.bind_eq_some_iff] at read
    obtain ⟨reg, one, same⟩ := read
    obtain rfl := Option.some.inj same
    exact .transfer one
  | cmp =>
    simp only [readOperands?, Option.bind_eq_bind, Option.bind_eq_some_iff] at read
    obtain ⟨left, one, right, two, same⟩ := read
    obtain rfl := Option.some.inj same
    exact .cmp one two
  | jump j =>
    obtain rfl := Option.some.inj read
    exact .jump
  | bare b =>
    rw [readOperands?] at read
    split at read
    · next repeated =>
      obtain rfl := Option.some.inj read
      exact .bare repeated
    · cases read

theorem Reads.readOperands? {op : Op} {w : Word} {i : Instr Reg UInt32} (reads : op.Reads w i) :
    op.readOperands? w = some i := by
  cases reads with
  | alu one two three => simp only [Op.readOperands?, one, two, three, Option.bind_eq_bind]; rfl
  | aluImm two three => simp only [Op.readOperands?, two, three, Option.bind_eq_bind]; rfl
  | transfer one => simp only [Op.readOperands?, one, Option.bind_eq_bind]; rfl
  | cmp one two => simp only [Op.readOperands?, one, two, Option.bind_eq_bind]; rfl
  | jump => rfl
  | bare repeated => exact if_pos repeated

theorem Reads.op_eq {op : Op} {w : Word} {i : Instr Reg UInt32} (reads : op.Reads w i) : i.op = op := by
  cases reads <;> rfl

theorem Reads.registers_eq {op : Op} {w : Word} {i : Instr Reg UInt32} (reads : op.Reads w i) :
    i.registers.map Fin.val = (op.registerBytes w).map UInt8.toNat := by
  cases reads with
  | alu one two three =>
    simp only [Instr.registers, registerBytes, List.map_cons, List.map_nil, val_of_reg? one,
      val_of_reg? two, val_of_reg? three]
  | aluImm two three =>
    simp only [Instr.registers, registerBytes, List.map_cons, List.map_nil, val_of_reg? two,
      val_of_reg? three]
  | transfer one =>
    simp only [Instr.registers, registerBytes, List.map_cons, List.map_nil, val_of_reg? one]
  | cmp one two =>
    simp only [Instr.registers, registerBytes, List.map_cons, List.map_nil, val_of_reg? one,
      val_of_reg? two]
  | jump | bare => rfl

theorem Reads.fits {op : Op} {w : Word} {i : Instr Reg UInt32} (reads : op.Reads w i) : i.Fits := by
  have first := w.b1.toNat_lt
  have second := w.b2.toNat_lt
  have third := w.b3.toNat_lt
  cases reads with
  | aluImm => exact first
  | transfer =>
    change w.addr16.toNat < 0x10000
    rw [w.addr16_toNat]
    omega
  | jump =>
    change w.target24.toNat < 0x1000000
    rw [w.target24_toNat]
    omega
  | alu | cmp | bare => exact trivial

end Op

namespace Word

/-- A word that decodes is the spare word, or it has its operation's opcode and operands. -/
theorem spare_or_reads {w : Word} {i : Instr Reg UInt32} (decoded : w.decode? = some i) :
    w = .spare ∧ i = .bare .noop ∨ w.b0 = i.op.opcode ∧ i.op.Reads w i := by
  rw [decode?] at decoded
  split at decoded
  · next spare => exact .inl ⟨spare, (Option.some.inj decoded).symm⟩
  · obtain ⟨op, known, read⟩ := Option.bind_eq_some_iff.1 decoded
    have reads := Op.reads_of_readOperands? read
    obtain rfl := reads.op_eq
    exact .inr ⟨(Op.opcode_of_ofOpcode? known).symm, reads⟩

theorem decode?_of_reads {op : Op} {w : Word} {i : Instr Reg UInt32} (coded : w.b0 = op.opcode)
    (reads : op.Reads w i) : w.decode? = some i := by
  have used : w ≠ .spare := by
    intro spare
    apply op.opcode_ne_spare
    rw [← coded, spare]
    rfl
  rw [decode?, if_neg used, coded, Op.ofOpcode?_opcode]
  exact reads.readOperands?

theorem of_decode? {w : Word} {i : Instr Reg UInt32} (decoded : w.decode? = some i) :
    i.registers.map Fin.val = (i.op.registerBytes w).map UInt8.toNat ∧ i.Fits := by
  rcases spare_or_reads decoded with ⟨-, rfl⟩ | ⟨-, reads⟩
  · exact ⟨rfl, trivial⟩
  · exact ⟨reads.registers_eq, reads.fits⟩

theorem registerBytes_lt {w : Word} {i : Instr Reg UInt32} (decoded : w.decode? = some i) :
    ∀ b ∈ i.op.registerBytes w, b.toNat < 16 := by
  intro b member
  have listed : b.toNat ∈ (i.op.registerBytes w).map UInt8.toNat := List.mem_map_of_mem member
  rw [← (of_decode? decoded).1] at listed
  obtain ⟨r, -, same⟩ := List.mem_map.1 listed
  exact same ▸ r.isLt

end Word

end WordMachine
