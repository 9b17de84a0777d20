import WordMachine.Machine.Bus
import WordMachine.Machine.Cpu
import WordMachine.Text.Numeral

/-! The effect of one instruction on registers, return stack and memory, and why a machine stops, in order or
out of it. -/

namespace WordMachine

open Text

inductive Exit
  | halted
  | endOfImage
  deriving DecidableEq, Repr

inductive Trap
  | unknownOpcode (pc : UInt32) (opcode : UInt8)
  | stackUnderflow (pc : UInt32)
  | unaligned (pc target : UInt32)
  | bus (address : UInt32) (fault : BusFault)
  | stepLimit (limit : Nat)
  | journalFull
  deriving DecidableEq, Repr

def showCode (address : UInt32) : String := String.ofList (hexLiteral 6 address.toNat)

def showCell (address : UInt32) : String := String.ofList (hexLiteral 4 address.toNat)

def BusFault.message : BusFault → String
  | .outside address cells =>
    "address " ++ showCell address ++ " outside " ++ toString cells ++ " byte memory"
  | .device reason => reason

def Trap.message : Trap → String
  | .unknownOpcode pc opcode =>
    "unknown opcode '" ++ toString opcode.toNat ++ "' at " ++ showCode pc
  | .stackUnderflow pc => "return address stack is empty at " ++ showCode pc
  | .unaligned pc target =>
    "unaligned jump target " ++ showCode target ++ " at " ++ showCode pc
  | .bus address fault => "bus error at " ++ showCell address ++ ": " ++ fault.message
  | .stepLimit limit => "step limit of " ++ toString limit ++ " reached"
  | .journalFull => "failed to write observation output"

/-- Where the processor goes from an instruction. -/
inductive Flow
  | next
  | jump (target : UInt32)
  | halt
  deriving DecidableEq, Repr

def AluOp.apply : AluOp → UInt8 → UInt8 → UInt8
  | .add, left, right => left + right
  | .sub, left, right => left - right
  | .and, left, right => left &&& right
  | .or, left, right => left ||| right
  | .xor, left, right => left ^^^ right

/-- Runs an instruction whose word is at the program counter, which stays as it is. A call
remembers that address and a return goes to the word after it. -/
def execute {β : Type} [Bus β] (i : Instr Reg UInt32) (cpu : Cpu) (bus : β) :
    Except Trap Flow × Cpu × β :=
  match i with
  | .alu f left right dst =>
    (.ok .next, cpu.setReg dst (f.apply (cpu.reg left) (cpu.reg right)), bus)
  | .aluImm f imm src dst =>
    (.ok .next, cpu.setReg dst (f.apply imm.toUInt8 (cpu.reg src)), bus)
  | .transfer .store reg addr =>
    match Bus.write bus addr (cpu.reg reg) with
    | (.ok (), bus) => (.ok .next, cpu, bus)
    | (.error fault, bus) => (.error (.bus addr fault), cpu, bus)
  | .transfer .load reg addr =>
    match Bus.read bus addr with
    | (.ok value, bus) => (.ok .next, cpu.setReg reg value, bus)
    | (.error fault, bus) => (.error (.bus addr fault), cpu, bus)
  | .cmp left right =>
    (.ok .next, cpu.setReg flagReg (Flag.compare (cpu.reg left) (cpu.reg right)).code, bus)
  | .jump .always target => (.ok (.jump target), cpu, bus)
  | .jump (.when condition) target =>
    (.ok (if condition.holds cpu.flag? then .jump target else .next), cpu, bus)
  | .jump .call target => (.ok (.jump target), { cpu with returns := cpu.pc :: cpu.returns }, bus)
  | .bare .ret =>
    match cpu.returns with
    | [] => (.error (.stackUnderflow cpu.pc), cpu, bus)
    | call :: outer => (.ok (.jump (nextWord call)), { cpu with returns := outer }, bus)
  | .bare .halt => (.ok .halt, cpu, bus)
  | .bare .noop => (.ok .next, cpu, bus)

end WordMachine
