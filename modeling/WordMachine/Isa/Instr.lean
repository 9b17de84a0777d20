import WordMachine.Isa.Op
import WordMachine.Table
import WordMachine.Text.Numeral

/-! Words and instructions: the word that an instruction is encoded as, the instruction that a word stands
for, and the text of an instruction in the form in which the assembler reads it. -/

namespace WordMachine

open Text

structure Word where
  b0 : UInt8
  b1 : UInt8
  b2 : UInt8
  b3 : UInt8
  deriving DecidableEq, Repr

namespace Word

def size : Nat := 4

def fill (b : UInt8) : Word := ⟨b, b, b, b⟩

def toList (w : Word) : List UInt8 := [w.b0, w.b1, w.b2, w.b3]

/-- The last three bytes, the first of them the highest. -/
def target24 (w : Word) : UInt32 :=
  w.b1.toUInt32 <<< 16 ||| w.b2.toUInt32 <<< 8 ||| w.b3.toUInt32

def addr16 (w : Word) : UInt32 := w.b2.toUInt32 <<< 8 ||| w.b3.toUInt32

@[simp] theorem length_toList (w : Word) : w.toList.length = size := rfl

end Word

def Aligned (address : UInt32) : Prop := address.toNat % Word.size = 0

instance (address : UInt32) : Decidable (Aligned address) :=
  inferInstanceAs (Decidable (_ = _))

/-- The address of the next word; the last one is followed by the first. -/
def nextWord (address : UInt32) : UInt32 := address + 4

abbrev Reg := Fin 16

inductive Instr (ρ τ : Type)
  | alu (f : AluOp) (left right dst : ρ)
  | aluImm (f : AluOp) (imm : UInt32) (src dst : ρ)
  | transfer (t : Transfer) (reg : ρ) (addr : UInt32)
  | cmp (left right : ρ)
  | jump (j : Jump) (target : τ)
  | bare (b : Bare)
  deriving DecidableEq, Repr

namespace Instr

variable {ρ τ : Type}

def op : Instr ρ τ → Op
  | .alu f .. => .alu f
  | .aluImm f .. => .aluImm f
  | .transfer t .. => .transfer t
  | .cmp .. => .cmp
  | .jump j _ => .jump j
  | .bare b => .bare b

def mapReg {σ : Type} (rename : ρ → σ) : Instr ρ τ → Instr σ τ
  | .alu f left right dst => .alu f (rename left) (rename right) (rename dst)
  | .aluImm f imm src dst => .aluImm f imm (rename src) (rename dst)
  | .transfer t reg addr => .transfer t (rename reg) addr
  | .cmp left right => .cmp (rename left) (rename right)
  | .jump j target => .jump j target
  | .bare b => .bare b

@[simp] theorem op_mapReg {σ : Type} (rename : ρ → σ) (i : Instr ρ τ) :
    (i.mapReg rename).op = i.op := by
  cases i <;> rfl

def byteOf (value : UInt32) (n : UInt32) : UInt8 := (value >>> (8 * n)).toUInt8

def regByte (reg : Reg) : UInt8 := UInt8.ofNat reg.val

/-- The opcode, then the operands in order; a number of several bytes has its highest first. -/
def encode (i : Instr Reg UInt32) : Word :=
  match i with
  | .alu _ left right dst => ⟨i.op.opcode, regByte left, regByte right, regByte dst⟩
  | .aluImm _ imm src dst => ⟨i.op.opcode, byteOf imm 0, regByte src, regByte dst⟩
  | .transfer _ reg addr => ⟨i.op.opcode, regByte reg, byteOf addr 1, byteOf addr 0⟩
  | .cmp left right => ⟨i.op.opcode, regByte left, regByte right, 0⟩
  | .jump _ target => ⟨i.op.opcode, byteOf target 2, byteOf target 1, byteOf target 0⟩
  | .bare _ => .fill i.op.opcode

end Instr

/-- Fills the slot of a source line that holds no instruction. -/
def Word.padding : Word := .fill 0xFF

/-- Fills an unused slot too, and does nothing when it is executed. -/
def Word.spare : Word := .fill 0xFC

def reg? (b : UInt8) : Option Reg :=
  if bound : b.toNat < 16 then some ⟨b.toNat, bound⟩ else none

/-- The operands of `op` read off a word; none if a register number is out of the file or an
operation without operands does not repeat its opcode. -/
def Op.readOperands? (op : Op) (w : Word) : Option (Instr Reg UInt32) :=
  match op with
  | .alu f => do
    let left ← reg? w.b1
    let right ← reg? w.b2
    let dst ← reg? w.b3
    pure (.alu f left right dst)
  | .aluImm f => do
    let src ← reg? w.b2
    let dst ← reg? w.b3
    pure (.aluImm f w.b1.toUInt32 src dst)
  | .transfer t => do
    let reg ← reg? w.b1
    pure (.transfer t reg w.addr16)
  | .cmp => do
    let left ← reg? w.b1
    let right ← reg? w.b2
    pure (.cmp left right)
  | .jump j => some (.jump j w.target24)
  | .bare b => if w = .fill op.opcode then some (.bare b) else none

def Word.decode? (w : Word) : Option (Instr Reg UInt32) :=
  if w = .spare then some (.bare .noop)
  else (Op.ofOpcode? w.b0).bind fun op => op.readOperands? w

theorem Word.decode?_spare : Word.spare.decode? = some (.bare .noop) := by
  simp [Word.decode?]

theorem Word.decode?_padding : Word.padding.decode? = some (.bare .noop) := by
  decide

/-- At most one name for an address, in ascending order of the addresses. -/
structure Labels where
  entries : List (UInt32 × List Char)
  deriving DecidableEq, Repr

namespace Labels

def empty : Labels := ⟨[]⟩

def name? (labels : Labels) (address : UInt32) : Option (List Char) :=
  labels.entries.lookup address

@[simp] theorem name?_empty (address : UInt32) : empty.name? address = none := rfl

/-- The names by address, taken in the given order: the last name of an address stays. -/
def ofNames (names : List (List Char × UInt32)) : Labels :=
  ⟨Table.ofList (names.map Prod.swap)⟩

end Labels

namespace Instr

/-- The operands as they are written. Registers and immediates are decimal, an address has at
least four hexadecimal digits, and a target goes by its name if it has one. -/
def operandTexts (labels : Labels) : Instr Nat UInt32 → List (List Char)
  | .alu _ left right dst => [decimal left, decimal right, decimal dst]
  | .aluImm _ imm src dst => [decimal imm.toNat, decimal src, decimal dst]
  | .transfer _ reg addr => [decimal reg, hex 4 addr.toNat]
  | .cmp left right => [decimal left, decimal right]
  | .jump _ target => [(labels.name? target).getD (decimal target.toNat)]
  | .bare _ => []

def render (labels : Labels) (i : Instr Nat UInt32) : List Char :=
  [' '].intercalate (i.op.mnemonic.toList :: i.operandTexts labels)

def text (labels : Labels) (i : Instr Reg UInt32) : List Char :=
  (i.mapReg Fin.val).render labels

end Instr

end WordMachine
