import WordMachine.Json.Value
import WordMachine.Source.Operand

/-! Symbol files: one JSON object from the names of labels to their addresses. It is read token by token, by
a scanner that takes one character at a time. -/

namespace WordMachine

open Text

namespace Json

inductive Token
  | opening
  | closing
  | colon
  | comma
  | string (text : List Char)
  | number (value : Nat)
  deriving DecidableEq, Repr

/-- Where the scanner stands inside a string. A first half of a surrogate pair is kept until its
second half has come. -/
inductive StringState
  | plain
  | escape
  | digits (count : Nat) (value : Nat) (high : Option Nat)
  | awaitEscape (high : Nat)
  | awaitUnit (high : Nat)
  deriving DecidableEq, Repr

/-- Where the scanner stands. What was read of a string or number is kept in reverse. -/
inductive Mode
  | between
  | number (digits : List Char)
  | string (state : StringState) (found : List Char)
  deriving DecidableEq, Repr

structure Scanner where
  mode : Mode
  newestFirst : List Token
  deriving DecidableEq, Repr

def escaped? (c : Char) : Option Char :=
  if c = '"' then some '"'
  else if c = '\\' then some '\\'
  else if c = '/' then some '/'
  else if c = 'b' then some '\x08'
  else if c = 'f' then some '\x0c'
  else if c = 'n' then some '\n'
  else if c = 'r' then some '\r'
  else if c = 't' then some '\t'
  else none

def isHighSurrogate (unit : Nat) : Bool := decide (0xD800 ≤ unit ∧ unit ≤ 0xDBFF)

def isLowSurrogate (unit : Nat) : Bool := decide (0xDC00 ≤ unit ∧ unit ≤ 0xDFFF)

def pair (high low : Nat) : Char :=
  Char.ofNat (0x10000 + (high - 0xD800) * 0x400 + (low - 0xDC00))

/-- The string mode after the four digits of a unit; none if a surrogate stands alone. -/
def afterUnit? (unit : Nat) (high : Option Nat) (found : List Char) : Option Mode :=
  match high with
  | some first =>
    if isLowSurrogate unit then some (.string .plain (pair first unit :: found)) else none
  | none =>
    if isHighSurrogate unit then some (.string (.awaitEscape unit) found)
    else if isLowSurrogate unit then none
    else some (.string .plain (Char.ofNat unit :: found))

namespace Scanner

def start : Scanner := ⟨.between, []⟩

def emit (scanner : Scanner) (token : Token) : Scanner :=
  ⟨.between, token :: scanner.newestFirst⟩

/-- Ends a number; none if it has a zero in front. -/
def endNumber? (scanner : Scanner) (digits : List Char) : Option Scanner :=
  match digits.reverse with
  | '0' :: _ :: _ => none
  | text => (readDigits 10 0xFFFFFFFF 0 text).toOption.map fun value => scanner.emit (.number value)

def isSpace (c : Char) : Bool := c == ' ' || c == '\t' || c == '\n' || c == '\r'

def stepBetween (scanner : Scanner) (c : Char) : Option Scanner :=
  if isSpace c then some scanner
  else if c = '\x7b' then some (scanner.emit .opening)
  else if c = '\x7d' then some (scanner.emit .closing)
  else if c = ':' then some (scanner.emit .colon)
  else if c = ',' then some (scanner.emit .comma)
  else if c = '"' then some { scanner with mode := .string .plain [] }
  else if c.isDigit then some { scanner with mode := .number [c] }
  else none

def stepString (scanner : Scanner) (state : StringState) (found : List Char) (c : Char) :
    Option Scanner :=
  match state with
  | .plain =>
    if c = '"' then some (scanner.emit (.string found.reverse))
    else if c = '\\' then some { scanner with mode := .string .escape found }
    else if c.toNat < 0x20 then none
    else some { scanner with mode := .string .plain (c :: found) }
  | .escape =>
    if c = 'u' then some { scanner with mode := .string (.digits 4 0 none) found }
    else (escaped? c).map fun plain => { scanner with mode := .string .plain (plain :: found) }
  | .digits count value high =>
    (digitValue 16 c).bind fun digit =>
      if count ≤ 1 then
        (afterUnit? (value * 16 + digit) high found).map fun mode => { scanner with mode }
      else some { scanner with mode := .string (.digits (count - 1) (value * 16 + digit) high) found }
  | .awaitEscape high =>
    if c = '\\' then some { scanner with mode := .string (.awaitUnit high) found } else none
  | .awaitUnit high =>
    if c = 'u' then some { scanner with mode := .string (.digits 4 0 (some high)) found } else none

def step (scanner : Scanner) (c : Char) : Option Scanner :=
  match scanner.mode with
  | .between => scanner.stepBetween c
  | .string state found => scanner.stepString state found c
  | .number digits =>
    if c.isDigit then some { scanner with mode := .number (c :: digits) }
    else (scanner.endNumber? digits).bind fun ended => ended.stepBetween c

def finish? (scanner : Scanner) : Option (List Token) :=
  match scanner.mode with
  | .between => some scanner.newestFirst.reverse
  | .number digits => (scanner.endNumber? digits).map fun ended => ended.newestFirst.reverse
  | .string _ _ => none

end Scanner

def tokens? (text : List Char) : Option (List Token) :=
  (text.foldlM Scanner.step Scanner.start).bind Scanner.finish?

end Json

open Json

def Symbols.toJson (symbols : Symbols) : Json :=
  .object (symbols.byName.map fun entry => (entry.1, Json.word entry.2))

def members? : List Token → Option (List (List Char × UInt32))
  | [.string name, .colon, .number value, .closing] => some [(name, UInt32.ofNat value)]
  | .string name :: .colon :: .number value :: .comma :: rest =>
    (members? rest).map fun more => (name, UInt32.ofNat value) :: more
  | _ => none

def object? : List Token → Option (List (List Char × UInt32))
  | [.opening, .closing] => some []
  | .opening :: rest => members? rest
  | _ => none

/-- The names by address of a symbol file. A name that is given twice has its last address, and of
the names of one address the greatest stays. -/
def Labels.ofSymbolFile? (text : List Char) : Option Labels :=
  ((tokens? text).bind object?).map fun members => .ofNames (Table.ofList members)

end WordMachine
