import WordMachine.Text.Numeral

/-! JSON documents and their two written forms, on one line and indented. -/

namespace WordMachine

open Text

inductive Json
  | null
  | number (value : Nat)
  | string (text : List Char)
  | array (items : List Json)
  | object (fields : List (List Char × Json))

namespace Json

/-- A character inside a string. Quotes, backslashes and control characters are escaped, the
latter by a letter where there is one. -/
def escape (c : Char) : List Char :=
  if c = '"' then ['\\', '"']
  else if c = '\\' then ['\\', '\\']
  else if c = '\x08' then ['\\', 'b']
  else if c = '\t' then ['\\', 't']
  else if c = '\n' then ['\\', 'n']
  else if c = '\x0c' then ['\\', 'f']
  else if c = '\r' then ['\\', 'r']
  else if c.toNat < 0x20 then '\\' :: 'u' :: hex 4 c.toNat
  else [c]

def quote (text : List Char) : List Char := '"' :: (text.flatMap escape ++ ['"'])

theorem sizeOf_snd_lt (field : List Char × Json) : sizeOf field.2 < sizeOf field := by
  cases field
  simp only [Prod.mk.sizeOf_spec]
  omega

def compact : Json → List Char
  | .null => "null".toList
  | .number value => decimal value
  | .string text => quote text
  | .array items =>
    '[' :: ([','].intercalate (items.map fun item => item.compact) ++ [']'])
  | .object fields =>
    '\x7b' :: ([','].intercalate
      (fields.map fun field => quote field.1 ++ ':' :: field.2.compact)
        ++ ['\x7d'])
termination_by json => sizeOf json
decreasing_by
  · have smaller := List.sizeOf_lt_of_mem ‹_›
    simp only [array.sizeOf_spec]
    omega
  · have smaller := List.sizeOf_lt_of_mem ‹_›
    have part := sizeOf_snd_lt field
    simp only [object.sizeOf_spec]
    omega

def newLine (depth : Nat) : List Char := '\n' :: List.replicate (2 * depth) ' '

/-- Items one below the other between two brackets, which stay together if there are none. -/
def frame (opening closing : Char) (depth : Nat) (items : List (List Char)) : List Char :=
  if items.isEmpty then [opening, closing]
  else
    opening :: ([','].intercalate (items.map fun item => newLine (depth + 1) ++ item)
      ++ newLine depth ++ [closing])

def indented (depth : Nat) : Json → List Char
  | .null => "null".toList
  | .number value => decimal value
  | .string text => quote text
  | .array items =>
    frame '[' ']' depth (items.map fun item => item.indented (depth + 1))
  | .object fields =>
    frame '\x7b' '\x7d' depth
      (fields.map fun field => quote field.1 ++ ':' :: ' ' :: field.2.indented (depth + 1))
termination_by json => sizeOf json
decreasing_by
  · have smaller := List.sizeOf_lt_of_mem ‹_›
    simp only [array.sizeOf_spec]
    omega
  · have smaller := List.sizeOf_lt_of_mem ‹_›
    have part := sizeOf_snd_lt field
    simp only [object.sizeOf_spec]
    omega

def pretty (json : Json) : List Char := json.indented 0

def word (value : UInt32) : Json := .number value.toNat

def bytes (values : List UInt8) : Json := .array (values.map fun b => .number b.toNat)

def text (chars : String) : Json := .string chars.toList

def member (name : String) (value : Json) : List Char × Json := (name.toList, value)

end Json

end WordMachine
