/-! Numerals: reading one under a bound, and writing numbers in decimal and hexadecimal. -/

namespace WordMachine.Text

inductive NumeralFault
  | empty
  | invalidDigit
  | tooLarge
  deriving DecidableEq, Repr

def NumeralFault.message : NumeralFault → String
  | .empty => "cannot parse integer from empty string"
  | .invalidDigit => "invalid digit found in string"
  | .tooLarge => "number too large to fit in target type"

def digitValue (base : Nat) (c : Char) : Option Nat :=
  let value :=
    if '0' ≤ c ∧ c ≤ '9' then some (c.toNat - '0'.toNat)
    else if 'a' ≤ c ∧ c ≤ 'f' then some (c.toNat - 'a'.toNat + 10)
    else if 'A' ≤ c ∧ c ≤ 'F' then some (c.toNat - 'A'.toNat + 10)
    else none
  value.filter (· < base)

/-- Appends digits to a number already read. The first character that is no digit or that takes
the number past the bound decides the fault. -/
def readDigits (base bound : Nat) (value : Nat) : List Char → Except NumeralFault Nat
  | [] => .ok value
  | c :: rest =>
    match digitValue base c with
    | none => .error .invalidDigit
    | some digit =>
      if value * base + digit ≤ bound then readDigits base bound (value * base + digit) rest
      else .error .tooLarge

/-- One or more digits behind at most one plus sign, in value at most `bound`. -/
def readNumeral (base bound : Nat) : List Char → Except NumeralFault Nat
  | [] => .error .empty
  | '+' :: c :: rest => readDigits base bound 0 (c :: rest)
  | text => readDigits base bound 0 text

def numeral? (base bound : Nat) (text : List Char) : Option Nat :=
  (readNumeral base bound text).toOption

def decimal (n : Nat) : List Char := Nat.toDigits 10 n

def hex (width n : Nat) : List Char :=
  let digits := Nat.toDigits 16 n
  List.replicate (width - digits.length) '0' ++ digits

def hexLiteral (width n : Nat) : List Char := '0' :: 'x' :: hex width n

def afterHexMark? : List Char → Option (List Char)
  | '0' :: 'x' :: rest => some rest
  | '0' :: 'X' :: rest => some rest
  | _ => none

end WordMachine.Text
