import WordMachine.Proofs.Machine.Step
import WordMachine.Source.Operand
import WordMachine.Text.Lines

/-! The machine that a source describes. It works on the stripped lines themselves: every line is a
place to be at, and an instruction is read off its words each time it is come to. -/

namespace WordMachine

open Text Operand

structure LineMachine where
  /-- The current line, the first being 0. -/
  line : Nat
  regs : Registers
  /-- The lines of the open calls, the innermost first. -/
  returns : List Nat
  steps : Nat
  cells : Array UInt8
  deriving DecidableEq

def declaredName? : List Char → Option (List Char)
  | '.' :: rest => some (trim rest)
  | _ => none

def declaringLine? (texts : List (List Char)) (name : List Char) : Option Nat :=
  texts.findIdx? fun text => declaredName? text == some name

/-- The line that a jump refers to: the one that declares the name as it is written, else the one that
declares the name behind its dot. -/
def placeOf? (texts : List (List Char)) (name : List Char) : Option Nat :=
  (declaringLine? texts name).or ((afterDot? name).bind (declaringLine? texts))

namespace LineMachine

def start (cells : Array UInt8) : LineMachine := ⟨0, Vector.replicate 16 0, [], 0, cells⟩

/-- The byte address that stands for the current line. -/
def address (s : LineMachine) : UInt32 := UInt32.ofNat (4 * s.line)

def reg (s : LineMachine) (r : Reg) : UInt8 := s.regs.get r

def goTo (s : LineMachine) (line : Nat) : StepResult × LineMachine :=
  (.ok none, { s with line := line, steps := s.steps + 1 })

def goOn (s : LineMachine) : StepResult × LineMachine := s.goTo (s.line + 1)

def assign (s : LineMachine) (r : Reg) (value : UInt8) : StepResult × LineMachine :=
  { s with regs := s.regs.setIfInBounds r.val value }.goOn

def combine (s : LineMachine) (f : UInt8 → UInt8 → UInt8) (first second third : List Char) :
    Option (StepResult × LineMachine) := do
  let left ← register? first
  let right ← register? second
  let dst ← register? third
  pure (s.assign dst (f (s.reg left) (s.reg right)))

def combineNumber (s : LineMachine) (f : UInt8 → UInt8 → UInt8) (first second third : List Char) :
    Option (StepResult × LineMachine) := do
  let number ← immediate? first
  let src ← register? second
  let dst ← register? third
  pure (s.assign dst (f number.toUInt8 (s.reg src)))

def store (s : LineMachine) (addr : UInt32) (value : UInt8) : StepResult × LineMachine :=
  if inside : addr.toNat < s.cells.size then
    { s with cells := s.cells.set addr.toNat value inside }.goOn
  else (.error (.bus addr (.outside addr s.cells.size)), s)

def load (s : LineMachine) (addr : UInt32) (r : Reg) : StepResult × LineMachine :=
  if inside : addr.toNat < s.cells.size then s.assign r s.cells[addr.toNat]
  else (.error (.bus addr (.outside addr s.cells.size)), s)

def jump (texts : List (List Char)) (s : LineMachine) (token : List Char) :
    Option (StepResult × LineMachine) :=
  match target? token with
  | some (.literal t) =>
    if t.toNat % 4 = 0 then some (s.goTo (t.toNat / 4))
    else some (.error (.unaligned s.address t), { s with steps := s.steps + 1 })
  | some (.label name) => (placeOf? texts name).map s.goTo
  | none => none

def jumpIf (texts : List (List Char)) (s : LineMachine) (taken : Bool) (token : List Char) :
    Option (StepResult × LineMachine) :=
  if taken then s.jump texts token else some s.goOn

/-- Does what a mnemonic in lower case and its operands say; none if they are no instruction. -/
def instruct (texts : List (List Char)) (s : LineMachine) (name : String)
    (operands : List (List Char)) : Option (StepResult × LineMachine) :=
  match name, operands with
  | "add", [first, second, third] => s.combine (· + ·) first second third
  | "sub", [first, second, third] => s.combine (· - ·) first second third
  | "and", [first, second, third] => s.combine (· &&& ·) first second third
  | "or", [first, second, third] => s.combine (· ||| ·) first second third
  | "xor", [first, second, third] => s.combine (· ^^^ ·) first second third
  | "addi", [first, second, third] => s.combineNumber (· + ·) first second third
  | "subi", [first, second, third] => s.combineNumber (· - ·) first second third
  | "andi", [first, second, third] => s.combineNumber (· &&& ·) first second third
  | "ori", [first, second, third] => s.combineNumber (· ||| ·) first second third
  | "xori", [first, second, third] => s.combineNumber (· ^^^ ·) first second third
  | "store", [first, second] => do
    let reg ← register? first
    let addr ← address? second
    pure (s.store addr (s.reg reg))
  | "load", [first, second] => do
    let reg ← register? first
    let addr ← address? second
    pure (s.load addr reg)
  | "cmp", [first, second] => do
    let left ← register? first
    let right ← register? second
    pure (s.assign flagReg (if s.reg left = s.reg right then 1 else if s.reg left < s.reg right then 3 else 4))
  | "jmp", [token] => s.jump texts token
  | "jeq", [token] => s.jumpIf texts (s.reg flagReg = 1) token
  | "jne", [token] => s.jumpIf texts (s.reg flagReg = 2 ∨ s.reg flagReg = 3 ∨ s.reg flagReg = 4) token
  | "jlt", [token] => s.jumpIf texts (s.reg flagReg = 3) token
  | "jgt", [token] => s.jumpIf texts (s.reg flagReg = 4) token
  | "jal", [token] => { s with returns := s.line :: s.returns }.jump texts token
  | "ret", [] =>
    match s.returns with
    | [] => some (.error (.stackUnderflow s.address), s)
    | call :: outer => some ({ s with returns := outer }.goTo (call + 1))
  | "halt", [] => some (.ok (some .halted), { s with steps := s.steps + 1 })
  | "noop", [] => some s.goOn
  | _, _ => none

def obey (texts : List (List Char)) (s : LineMachine) (text : List Char) :
    Option (StepResult × LineMachine) :=
  match text with
  | [] => some s.goOn
  | '.' :: _ => some s.goOn
  | _ =>
    match words text with
    | [] => none
    | name :: operands => s.instruct texts (String.ofList (lowerCase name)) operands

/-- Does what the current line says. Past the last line the program is at its end. -/
def step? (texts : List (List Char)) (s : LineMachine) : Option (StepResult × LineMachine) :=
  match texts[s.line]? with
  | none => some (.ok (some .endOfImage), s)
  | some text => s.obey texts text

def calls? (texts : List (List Char)) :
    (n : Nat) → LineMachine → Option (List StepResult × LineMachine)
  | 0, s => some ([], s)
  | n + 1, s => do
    let (outcome, next) ← s.step? texts
    let (rest, last) ← calls? texts n next
    pure (outcome :: rest, last)

section Rows

variable {texts : List (List Char)} {s : LineMachine} {first second third token : List Char}

theorem combine_of_read {left right dst : Reg} (f : UInt8 → UInt8 → UInt8)
    (one : register? first = some left) (two : register? second = some right)
    (three : register? third = some dst) :
    s.combine f first second third = some (s.assign dst (f (s.reg left) (s.reg right))) := by
  simp only [combine, one, two, three]
  rfl

theorem combineNumber_of_read {imm : UInt32} {src dst : Reg} (f : UInt8 → UInt8 → UInt8)
    (one : immediate? first = some imm) (two : register? second = some src)
    (three : register? third = some dst) :
    s.combineNumber f first second third = some (s.assign dst (f imm.toUInt8 (s.reg src))) := by
  simp only [combineNumber, one, two, three]
  rfl

theorem instruct_alu {left right dst : Reg} (f : AluOp) (one : register? first = some left)
    (two : register? second = some right) (three : register? third = some dst) :
    s.instruct texts (Op.alu f).mnemonic [first, second, third] =
      some (s.assign dst (f.apply (s.reg left) (s.reg right))) := by
  cases f with
  | add => exact combine_of_read (· + ·) one two three
  | sub => exact combine_of_read (· - ·) one two three
  | and => exact combine_of_read (· &&& ·) one two three
  | or => exact combine_of_read (· ||| ·) one two three
  | xor => exact combine_of_read (· ^^^ ·) one two three

theorem instruct_aluImm {imm : UInt32} {src dst : Reg} (f : AluOp)
    (one : immediate? first = some imm) (two : register? second = some src)
    (three : register? third = some dst) :
    s.instruct texts (Op.aluImm f).mnemonic [first, second, third] =
      some (s.assign dst (f.apply imm.toUInt8 (s.reg src))) := by
  cases f with
  | add => exact combineNumber_of_read (· + ·) one two three
  | sub => exact combineNumber_of_read (· - ·) one two three
  | and => exact combineNumber_of_read (· &&& ·) one two three
  | or => exact combineNumber_of_read (· ||| ·) one two three
  | xor => exact combineNumber_of_read (· ^^^ ·) one two three

theorem instruct_store {reg : Reg} {addr : UInt32} (one : register? first = some reg)
    (two : address? second = some addr) :
    s.instruct texts (Op.transfer .store).mnemonic [first, second] =
      some (s.store addr (s.reg reg)) := by
  change ((register? first).bind fun reg => (address? second).bind fun addr =>
    some (s.store addr (s.reg reg))) = _
  rw [one, two]
  rfl

theorem instruct_load {reg : Reg} {addr : UInt32} (one : register? first = some reg)
    (two : address? second = some addr) :
    s.instruct texts (Op.transfer .load).mnemonic [first, second] = some (s.load addr reg) := by
  change ((register? first).bind fun reg => (address? second).bind fun addr =>
    some (s.load addr reg)) = _
  rw [one, two]
  rfl

theorem instruct_cmp {left right : Reg} (one : register? first = some left)
    (two : register? second = some right) :
    s.instruct texts Op.cmp.mnemonic [first, second] =
      some (s.assign flagReg (Flag.compare (s.reg left) (s.reg right)).code) := by
  rw [Flag.code_compare]
  change ((register? first).bind fun left => (register? second).bind fun right =>
    some (s.assign flagReg (if s.reg left = s.reg right then 1
      else if s.reg left < s.reg right then 3 else 4))) = _
  rw [one, two]
  rfl

theorem instruct_when (condition : Condition) :
    s.instruct texts (Op.jump (.when condition)).mnemonic [token] =
      s.jumpIf texts (condition.holds (Flag.ofCode? (s.reg flagReg))) token := by
  rw [Condition.holds_ofCode?]
  cases condition <;> rfl

theorem instruct_ret_nil (closed : s.returns = []) :
    s.instruct texts (Op.bare .ret).mnemonic [] = some (.error (.stackUnderflow s.address), s) := by
  obtain ⟨line, regs, returns, steps, cells⟩ := s
  obtain rfl : returns = [] := closed
  rfl

theorem instruct_ret_cons {call : Nat} {outer : List Nat} (opened : s.returns = call :: outer) :
    s.instruct texts (Op.bare .ret).mnemonic [] =
      some ({ s with returns := outer }.goTo (call + 1)) := by
  obtain ⟨line, regs, returns, steps, cells⟩ := s
  obtain rfl : returns = call :: outer := opened
  rfl

end Rows

end LineMachine

end WordMachine
