import Mathlib
import WordMachine.Isa.Instr

/-! Encoding and decoding. The word of an instruction stands for that instruction again, except that
a number too large for its bytes loses its highest ones. -/

namespace WordMachine

namespace Word

theorem target24_toNat (w : Word) :
    w.target24.toNat = w.b1.toNat * 65536 + w.b2.toNat * 256 + w.b3.toNat := by
  have low : w.b2.toNat <<< 8 ||| w.b3.toNat = w.b2.toNat <<< 8 + w.b3.toNat :=
    (Nat.shiftLeft_add_eq_or_of_lt w.b3.toNat_lt w.b2.toNat).symm
  have two : w.b2.toNat <<< 8 + w.b3.toNat < 2 ^ 16 := by
    have := w.b2.toNat_lt
    have := w.b3.toNat_lt
    rw [Nat.shiftLeft_eq]
    omega
  have high := (Nat.shiftLeft_add_eq_or_of_lt two w.b1.toNat).symm
  have first := w.b1.toNat_lt
  have second := w.b2.toNat_lt
  simp only [target24, UInt32.toNat_or, UInt32.toNat_shiftLeft, UInt8.toNat_toUInt32,
    UInt32.reduceToNat, Nat.reduceMod, Nat.or_assoc]
  rw [Nat.mod_eq_of_lt (by rw [Nat.shiftLeft_eq]; omega),
    Nat.mod_eq_of_lt (by rw [Nat.shiftLeft_eq]; omega), low, high]
  simp only [Nat.shiftLeft_eq]
  omega

theorem target24_eq (w : Word) : w.target24 =
    UInt32.ofNat (65536 * w.b1.toNat + 256 * w.b2.toNat + w.b3.toNat) := by
  rw [← UInt32.ofNat_toNat (x := w.target24), target24_toNat]
  congr 1
  omega

theorem addr16_toNat (w : Word) : w.addr16.toNat = w.b2.toNat * 256 + w.b3.toNat := by
  have low : w.b2.toNat <<< 8 ||| w.b3.toNat = w.b2.toNat <<< 8 + w.b3.toNat :=
    (Nat.shiftLeft_add_eq_or_of_lt w.b3.toNat_lt w.b2.toNat).symm
  have second := w.b2.toNat_lt
  simp only [addr16, UInt32.toNat_or, UInt32.toNat_shiftLeft, UInt8.toNat_toUInt32,
    UInt32.reduceToNat, Nat.reduceMod]
  rw [Nat.mod_eq_of_lt (by rw [Nat.shiftLeft_eq]; omega), low, Nat.shiftLeft_eq]

end Word

namespace Op

theorem opcode_ne_spare (op : Op) : op.opcode ≠ 0xFC := by
  have every : ∀ op ∈ all, op.opcode ≠ 0xFC := by decide
  exact every op (mem_all op)

end Op

theorem reg?_regByte (r : Reg) : reg? (Instr.regByte r) = some r := by
  have every : ∀ r : Reg, reg? (Instr.regByte r) = some r := by decide
  exact every r

namespace Instr

theorem byteOf_toNat (value n : UInt32) (inside : n.toNat < 4) :
    (byteOf value n).toNat = value.toNat / 256 ^ n.toNat % 256 := by
  have shift : 8 * n.toNat % 2 ^ 32 % 32 = 8 * n.toNat := by omega
  simp only [byteOf, UInt32.toNat_toUInt8, UInt32.toNat_shiftRight, UInt32.toNat_mul,
    UInt32.reduceToNat, Nat.shiftRight_eq_div_pow, shift]
  rw [Nat.pow_mul]

theorem byteOf_mod (value n bound : UInt32) (inside : n.toNat < 4)
    (above : 256 ^ n.toNat * 256 ∣ bound.toNat) : byteOf (value % bound) n = byteOf value n := by
  rw [← UInt8.toNat_inj, byteOf_toNat _ _ inside, byteOf_toNat _ _ inside, UInt32.toNat_mod,
    ← Nat.mod_mul_right_div_self, ← Nat.mod_mul_right_div_self, Nat.mod_mod_of_dvd _ above]

/-- The numbers of an instruction have room in its word. -/
def Fits : Instr Reg UInt32 → Prop
  | .aluImm _ imm _ _ => imm.toNat < 0x100
  | .transfer _ _ addr => addr.toNat < 0x10000
  | .jump _ target => target.toNat < 0x1000000
  | _ => True

/-- What the word of an instruction keeps of it. -/
def cut : Instr Reg UInt32 → Instr Reg UInt32
  | .aluImm f imm src dst => .aluImm f (imm % 0x100) src dst
  | .transfer t reg addr => .transfer t reg (addr % 0x10000)
  | .jump j target => .jump j (target % 0x1000000)
  | i => i

theorem cut_eq_self {i : Instr Reg UInt32} (fits : i.Fits) : i.cut = i := by
  have kept : ∀ value bound : UInt32, value.toNat < bound.toNat → value % bound = value := by
    intro value bound below
    rw [← UInt32.toNat_inj, UInt32.toNat_mod, Nat.mod_eq_of_lt below]
  cases i with
  | aluImm f imm src dst => rw [cut, kept imm 0x100 fits]
  | transfer t reg addr => rw [cut, kept addr 0x10000 fits]
  | jump j target => rw [cut, kept target 0x1000000 fits]
  | alu | cmp | bare => rfl

theorem fits_cut (i : Instr Reg UInt32) : i.cut.Fits := by
  cases i with
  | aluImm f imm src dst => exact Nat.mod_lt _ (by decide)
  | transfer t reg addr => exact Nat.mod_lt _ (by decide)
  | jump j target => exact Nat.mod_lt _ (by decide)
  | alu | cmp | bare => trivial

@[simp] theorem op_cut (i : Instr Reg UInt32) : i.cut.op = i.op := by
  cases i <;> rfl

theorem encode_cut (i : Instr Reg UInt32) : i.cut.encode = i.encode := by
  cases i with
  | aluImm f imm src dst =>
    simp only [cut, encode, byteOf_mod imm 0 0x100 (by decide) (by decide)]
    rfl
  | transfer t reg addr =>
    simp only [cut, encode, byteOf_mod addr 0 0x10000 (by decide) (by decide),
      byteOf_mod addr 1 0x10000 (by decide) (by decide)]
    rfl
  | jump j target =>
    simp only [cut, encode, byteOf_mod target 0 0x1000000 (by decide) (by decide),
      byteOf_mod target 1 0x1000000 (by decide) (by decide),
      byteOf_mod target 2 0x1000000 (by decide) (by decide)]
    rfl
  | alu | cmp | bare => rfl

theorem b0_encode (i : Instr Reg UInt32) : i.encode.b0 = i.op.opcode := by
  cases i <;> rfl

theorem readOperands?_encode (i : Instr Reg UInt32) :
    i.op.readOperands? i.encode = some i.cut := by
  cases i with
  | alu f left right dst => simp [op, Op.readOperands?, encode, reg?_regByte, cut]
  | aluImm f imm src dst =>
    have kept : (byteOf imm 0).toUInt32 = imm % 0x100 := by
      rw [← UInt32.toNat_inj, UInt8.toNat_toUInt32, byteOf_toNat _ 0 (by decide), UInt32.toNat_mod]
      simp
    simp [op, Op.readOperands?, encode, reg?_regByte, cut, kept]
  | transfer t reg addr =>
    have kept : (encode (.transfer t reg addr)).addr16 = addr % 0x10000 := by
      rw [← UInt32.toNat_inj, Word.addr16_toNat, UInt32.toNat_mod]
      simp only [encode, byteOf_toNat _ 0 (by decide),
        byteOf_toNat _ 1 (by decide), UInt32.reduceToNat]
      omega
    simp only [op, Op.readOperands?, kept, cut]
    simp [encode, reg?_regByte]
  | cmp left right => simp [op, Op.readOperands?, encode, reg?_regByte, cut]
  | jump j target =>
    have kept : (encode (.jump j target)).target24 = target % 0x1000000 := by
      rw [← UInt32.toNat_inj, Word.target24_toNat, UInt32.toNat_mod]
      simp only [encode, byteOf_toNat _ 0 (by decide),
        byteOf_toNat _ 1 (by decide),
        byteOf_toNat _ 2 (by decide), UInt32.reduceToNat]
      omega
    simp only [op, Op.readOperands?, kept, cut]
  | bare b => simp [op, Op.readOperands?, encode, cut]

theorem decode?_encode (i : Instr Reg UInt32) : i.encode.decode? = some i.cut := by
  have apart : i.encode ≠ .spare := by
    intro same
    apply i.op.opcode_ne_spare
    rw [← b0_encode, same]
    rfl
  rw [Word.decode?, if_neg apart, b0_encode, Op.ofOpcode?_opcode]
  exact readOperands?_encode i

theorem decode?_encode_of_fits {i : Instr Reg UInt32} (fits : i.Fits) :
    i.encode.decode? = some i := by
  rw [decode?_encode, cut_eq_self fits]

theorem encode_inj {i other : Instr Reg UInt32} (fits : i.Fits) (also : other.Fits)
    (same : i.encode = other.encode) : i = other := by
  have decoded := decode?_encode_of_fits fits
  rw [same, decode?_encode_of_fits also] at decoded
  exact (Option.some.inj decoded).symm

end Instr

end WordMachine
