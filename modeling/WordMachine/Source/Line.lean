import WordMachine.Isa.Op
import WordMachine.Source.Operand
import WordMachine.Text.Lines

/-! Source lines: nothing, the declaration of a label, or an instruction still in its tokens; and what can be
wrong with one. -/

namespace WordMachine

open Text

inductive Cause
  | unknownMnemonic (token : List Char)
  | operandCount (op : Op)
  | badRegister (token : List Char)
  | badImmediate (token : List Char)
  | badAddress (token : List Char)
  | targetTooLarge (token : List Char)
  | emptyLabel
  | duplicateLabel (name : List Char)
  | undefinedLabel (name : List Char)
  deriving DecidableEq, Repr

inductive Cause.Kind
  | form
  | operand
  | label
  deriving DecidableEq, Repr

namespace Cause

def kind : Cause → Kind
  | .unknownMnemonic _ | .operandCount _ => .form
  | .badRegister _ | .badImmediate _ | .badAddress _ | .targetTooLarge _ => .operand
  | .emptyLabel | .duplicateLabel _ | .undefinedLabel _ => .label

def quoted (text : List Char) : String := "'" ++ String.ofList text ++ "'"

def message : Cause → String
  | .unknownMnemonic token => "unknown instruction " ++ quoted token
  | .operandCount op => "expected " ++ quoted op.usage.toList
  | .badRegister token => "invalid register " ++ quoted token
  | .badImmediate token => "invalid immediate " ++ quoted token
  | .badAddress token => "invalid address " ++ quoted token
  | .targetTooLarge token => "invalid immediate " ++ quoted token
  | .emptyLabel => "label names cannot be empty"
  | .duplicateLabel name => "label " ++ quoted name ++ " already exists"
  | .undefinedLabel name => "undefined label " ++ quoted name

end Cause

/-- A cause and the number of its line, the first line being 1. -/
structure Fault where
  line : Nat
  cause : Cause
  deriving DecidableEq, Repr

def Fault.message (fault : Fault) : String :=
  "error on line " ++ toString fault.line ++ ": " ++ fault.cause.message

inductive Line
  | blank
  | label (name : List Char)
  | statement (tokens : List (List Char))
  deriving DecidableEq, Repr

def strip (text : List Char) : List Char :=
  trim (text.takeWhile (· ≠ ';'))

def Line.ofStripped (text : List Char) : Line :=
  match text with
  | [] => .blank
  | '.' :: name => .label (trim name)
  | _ => .statement (words text)

def Line.ofText (text : List Char) : Line := .ofStripped (strip text)

namespace Statement

def expect {α : Type} (reader : List Char → Option α) (reason : List Char → Cause)
    (token : List Char) : Except Cause α :=
  match reader token with
  | some value => .ok value
  | none => .error (reason token)

def register (token : List Char) : Except Cause Reg :=
  expect Operand.register? .badRegister token

def immediate (token : List Char) : Except Cause UInt32 :=
  expect Operand.immediate? .badImmediate token

def address (token : List Char) : Except Cause UInt32 :=
  expect Operand.address? .badAddress token

def target (token : List Char) : Except Cause Target :=
  expect Operand.target? .targetTooLarge token

def operands (op : Op) (tokens : List (List Char)) : Except Cause (Instr Reg Target) :=
  match op, tokens with
  | .alu f, [first, second, third] => do
    let left ← register first
    let right ← register second
    let dst ← register third
    pure (.alu f left right dst)
  | .aluImm f, [first, second, third] => do
    let imm ← immediate first
    let src ← register second
    let dst ← register third
    pure (.aluImm f imm src dst)
  | .transfer t, [first, second] => do
    let reg ← register first
    let addr ← address second
    pure (.transfer t reg addr)
  | .cmp, [first, second] => do
    let left ← register first
    let right ← register second
    pure (.cmp left right)
  | .jump j, [first] => do
    let goal ← target first
    pure (.jump j goal)
  | .bare b, [] => pure (.bare b)
  | op, _ => .error (.operandCount op)

/-- The instruction that a line of tokens writes; a mnemonic may be in either case. -/
def parse (tokens : List (List Char)) : Except Cause (Instr Reg Target) :=
  let first := tokens.headD []
  match Op.ofMnemonic? (lowerCase first) with
  | none => .error (.unknownMnemonic first)
  | some op => operands op tokens.tail

end Statement

end WordMachine
