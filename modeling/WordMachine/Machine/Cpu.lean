import WordMachine.Isa.Instr

/-! The processor: registers, program counter, return stack and step counter. -/

namespace WordMachine

inductive Flag
  | equal | notEqual | less | greater
  deriving DecidableEq, Repr

namespace Flag

/-- Never `notEqual`, which a program can only write by hand. -/
def compare (left right : UInt8) : Flag :=
  if left < right then .less else if left = right then .equal else .greater

def code : Flag → UInt8
  | .equal => 1
  | .notEqual => 2
  | .less => 3
  | .greater => 4

def ofCode? (code : UInt8) : Option Flag :=
  if code = 1 then some .equal
  else if code = 2 then some .notEqual
  else if code = 3 then some .less
  else if code = 4 then some .greater
  else none

theorem ofCode?_code (flag : Flag) : ofCode? flag.code = some flag := by
  cases flag <;> rfl

theorem code_compare (left right : UInt8) : (compare left right).code =
    if left = right then 1 else if left < right then 3 else 4 := by
  by_cases same : left = right
  · subst same
    rw [if_pos rfl, compare, if_neg (UInt8.lt_irrefl left), if_pos rfl]
    rfl
  · by_cases less : left < right
    · rw [if_neg same, if_pos less, compare, if_pos less]
      rfl
    · rw [if_neg same, if_neg less, compare, if_neg less, if_neg same]
      rfl

end Flag

/-- A conditional jump is not taken while the flag register holds no flag. -/
def Condition.holds (condition : Condition) (flag : Option Flag) : Bool :=
  match condition, flag with
  | _, none => false
  | .equal, some flag => flag == .equal
  | .notEqual, some flag => flag != .equal
  | .less, some flag => flag == .less
  | .greater, some flag => flag == .greater

theorem Condition.holds_ofCode? (condition : Condition) (code : UInt8) :
    condition.holds (Flag.ofCode? code) = match condition with
      | .equal => decide (code = 1)
      | .notEqual => decide (code = 2 ∨ code = 3 ∨ code = 4)
      | .less => decide (code = 3)
      | .greater => decide (code = 4) := by
  by_cases one : code = 1
  · subst one
    cases condition <;> rfl
  · by_cases two : code = 2
    · subst two
      cases condition <;> rfl
    · by_cases three : code = 3
      · subst three
        cases condition <;> rfl
      · by_cases four : code = 4
        · subst four
          cases condition <;> rfl
        · have unknown : Flag.ofCode? code = none := by
            rw [Flag.ofCode?, if_neg one, if_neg two, if_neg three, if_neg four]
          cases condition <;> simp [unknown, holds, one, two, three, four]

structure Dump where
  trace : Bool := false
  regsEachStep : Bool := false
  regsAtEnd : Bool := false
  memoryAtEnd : Bool := false
  deriving DecidableEq, Repr

abbrev Registers := Vector UInt8 16

def flagReg : Reg := ⟨1, by decide⟩

structure Cpu where
  pc : UInt32
  regs : Registers
  /-- Where the open calls were made, the innermost first. -/
  returns : List UInt32
  steps : Nat
  /-- Steps after which a run is stopped. -/
  stepLimit : Option Nat
  dump : Dump
  deriving DecidableEq

namespace Cpu

def start (stepLimit : Option Nat) (dump : Dump) : Cpu where
  pc := 0
  regs := Vector.replicate 16 0
  returns := []
  steps := 0
  stepLimit := stepLimit
  dump := dump

def reset (cpu : Cpu) : Cpu := start cpu.stepLimit cpu.dump

def reg (cpu : Cpu) (r : Reg) : UInt8 := cpu.regs[r.val]

def setReg (cpu : Cpu) (r : Reg) (value : UInt8) : Cpu :=
  { cpu with regs := cpu.regs.set r.val value }

@[simp] theorem reg_setReg_self (cpu : Cpu) (r : Reg) (value : UInt8) :
    (cpu.setReg r value).reg r = value := by
  simp [reg, setReg]

theorem reg_setReg_of_ne (cpu : Cpu) {r other : Reg} (value : UInt8) (different : r ≠ other) :
    (cpu.setReg r value).reg other = cpu.reg other := by
  simp [reg, setReg, Vector.getElem_set_ne, Fin.val_ne_of_ne different]

theorem setReg_eq_setIfInBounds (cpu : Cpu) (r : Reg) (value : UInt8) :
    cpu.setReg r value = { cpu with regs := cpu.regs.setIfInBounds r.val value } := by
  simp [setReg, Vector.setIfInBounds, Array.setIfInBounds, Vector.set]

def flag? (cpu : Cpu) : Option Flag := Flag.ofCode? (cpu.reg flagReg)

end Cpu

end WordMachine
