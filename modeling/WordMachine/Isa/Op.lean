/-! Operations of the machine: what each is called, the byte that stands for it, and the operands
it takes. -/

namespace WordMachine

inductive AluOp
  | add | sub | and | or | xor
  deriving DecidableEq, Repr

inductive Transfer
  | store | load
  deriving DecidableEq, Repr

inductive Condition
  | equal | notEqual | less | greater
  deriving DecidableEq, Repr

/-- A jump; a call also remembers where it was made. -/
inductive Jump
  | always
  | when (condition : Condition)
  | call
  deriving DecidableEq, Repr

inductive Bare
  | ret | halt | noop
  deriving DecidableEq, Repr

inductive Op
  | alu (f : AluOp)
  | aluImm (f : AluOp)
  | transfer (t : Transfer)
  | cmp
  | jump (j : Jump)
  | bare (b : Bare)
  deriving DecidableEq, Repr

namespace Op

def all : List Op :=
  [.alu .add, .aluImm .add, .alu .sub, .aluImm .sub, .alu .and, .aluImm .and, .alu .or,
    .aluImm .or, .alu .xor, .aluImm .xor, .transfer .store, .transfer .load, .cmp, .jump .always,
    .jump (.when .equal), .jump (.when .notEqual), .jump (.when .less), .jump (.when .greater),
    .jump .call, .bare .ret, .bare .halt, .bare .noop]

theorem mem_all (op : Op) : op ∈ all := by
  rcases op with f | f | t | _ | j | b
  · cases f <;> decide
  · cases f <;> decide
  · cases t <;> decide
  · decide
  · rcases j with _ | c | _
    · decide
    · cases c <;> decide
    · decide
  · cases b <;> decide

def mnemonic : Op → String
  | .alu .add => "add"
  | .alu .sub => "sub"
  | .alu .and => "and"
  | .alu .or => "or"
  | .alu .xor => "xor"
  | .aluImm .add => "addi"
  | .aluImm .sub => "subi"
  | .aluImm .and => "andi"
  | .aluImm .or => "ori"
  | .aluImm .xor => "xori"
  | .transfer .store => "store"
  | .transfer .load => "load"
  | .cmp => "cmp"
  | .jump .always => "jmp"
  | .jump (.when .equal) => "jeq"
  | .jump (.when .notEqual) => "jne"
  | .jump (.when .less) => "jlt"
  | .jump (.when .greater) => "jgt"
  | .jump .call => "jal"
  | .bare .ret => "ret"
  | .bare .halt => "halt"
  | .bare .noop => "noop"

def opcode : Op → UInt8
  | .alu .add => 0x00
  | .aluImm .add => 0x01
  | .alu .sub => 0x02
  | .aluImm .sub => 0x03
  | .alu .and => 0x04
  | .aluImm .and => 0x05
  | .alu .or => 0x06
  | .aluImm .or => 0x07
  | .alu .xor => 0x08
  | .aluImm .xor => 0x09
  | .transfer .store => 0x0A
  | .transfer .load => 0x0B
  | .cmp => 0x0C
  | .jump .always => 0x0D
  | .jump (.when .equal) => 0x0E
  | .jump (.when .notEqual) => 0x0F
  | .jump (.when .less) => 0x10
  | .jump (.when .greater) => 0x11
  | .jump .call => 0x12
  | .bare .ret => 0xFD
  | .bare .halt => 0xFE
  | .bare .noop => 0xFF

/-- Words on a source line, the mnemonic included. -/
def tokens : Op → Nat
  | .alu _ | .aluImm _ => 4
  | .transfer _ | .cmp => 3
  | .jump _ => 2
  | .bare _ => 1

def operands : Op → String
  | .alu _ => "[srcReg1] [srcReg2] [dstReg]"
  | .aluImm _ => "[immediate] [srcReg] [dstReg]"
  | .transfer .store => "[srcReg] [dstAddress]"
  | .transfer .load => "[dstReg] [srcAddress]"
  | .cmp => "[reg1] [reg2]"
  | .jump _ => "[immediate | label]"
  | .bare _ => ""

def usage (op : Op) : String :=
  if op.operands.isEmpty then op.mnemonic else op.mnemonic ++ " " ++ op.operands

def ofMnemonic? (name : List Char) : Option Op :=
  all.find? fun op => op.mnemonic.toList == name

def ofOpcode? (code : UInt8) : Option Op :=
  all.find? fun op => op.opcode == code

theorem ofMnemonic?_mnemonic (op : Op) : ofMnemonic? op.mnemonic.toList = some op := by
  have every : ∀ op ∈ all, ofMnemonic? op.mnemonic.toList = some op := by decide +kernel
  exact every op (mem_all op)

theorem ofOpcode?_opcode (op : Op) : ofOpcode? op.opcode = some op := by
  have every : ∀ op ∈ all, ofOpcode? op.opcode = some op := by decide
  exact every op (mem_all op)

theorem opcode_inj {first second : Op} (same : first.opcode = second.opcode) : first = second := by
  have found := first.ofOpcode?_opcode
  rw [same, second.ofOpcode?_opcode] at found
  exact (Option.some.inj found).symm

theorem opcode_of_ofOpcode? {code : UInt8} {op : Op} (known : ofOpcode? code = some op) :
    op.opcode = code := by
  simpa using List.find?_some known

def isControlFlow : Op → Bool
  | .jump _ | .bare .ret => true
  | _ => false

def endsBlock : Op → Bool
  | .jump .always | .bare .ret | .bare .halt => true
  | _ => false

end Op

end WordMachine
