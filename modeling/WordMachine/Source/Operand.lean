import WordMachine.Isa.Instr

/-! Operands as they are written on a source line, and the labels that they refer to. -/

namespace WordMachine

open Text

structure Symbols where
  declared : List (List Char × UInt32)
  deriving DecidableEq, Repr

def afterDot? : List Char → Option (List Char)
  | '.' :: rest => some rest
  | _ => none

namespace Symbols

def empty : Symbols := ⟨[]⟩

def offset? (symbols : Symbols) (name : List Char) : Option UInt32 :=
  symbols.declared.lookup name

/-- The address of a reference: the name as written, else the name behind its dot. -/
def resolve? (symbols : Symbols) (reference : List Char) : Option UInt32 :=
  (symbols.offset? reference).or ((afterDot? reference).bind symbols.offset?)

def declare (symbols : Symbols) (name : List Char) (offset : UInt32) : Symbols :=
  ⟨symbols.declared ++ [(name, offset)]⟩

def byName (symbols : Symbols) : List (List Char × UInt32) := Table.ofList symbols.declared

def toLabels (symbols : Symbols) : Labels := .ofNames symbols.byName

end Symbols

inductive Target
  | literal (address : UInt32)
  | label (reference : List Char)
  deriving DecidableEq, Repr

def lowerCase (token : List Char) : List Char := token.map Char.toLower

def maxTarget : Nat := 0xFFFFFF

namespace Operand

def register? (token : List Char) : Option Reg :=
  if lowerCase token = "zero".toList then some 0
  else if lowerCase token = "comp".toList then some 1
  else (numeral? 10 15 token).map (Fin.ofNat 16)

def immediate? (token : List Char) : Option UInt32 :=
  (numeral? 10 0xFF token).map UInt32.ofNat

def address? (token : List Char) : Option UInt32 :=
  (numeral? 16 0xFFFF ((afterHexMark? token).getD token)).map UInt32.ofNat

def afterPlus : List Char → List Char
  | '+' :: rest => rest
  | token => token

def isLiteral (token : List Char) : Bool :=
  !(afterPlus token).isEmpty && (afterPlus token).all Char.isDigit

/-- A literal names an address and is none if it is too large; all else refers to a label. -/
def target? (token : List Char) : Option Target :=
  if isLiteral token then
    (numeral? 10 maxTarget token).map fun address => .literal (UInt32.ofNat address)
  else some (.label token)

end Operand

end WordMachine
