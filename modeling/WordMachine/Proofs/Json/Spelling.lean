import WordMachine.Json.SymbolFile
import WordMachine.Proofs.Source.Operand

/-! Objects of whole numbers in all the ways that they may be written: with blanks around every part, and
with each character of a name as itself, by an escape or by its units. The scanner reads each of them, and
the indented form is one of them. -/

namespace WordMachine.Json

open Text

def letterEscapes : List (Char × Char) :=
  [('"', '"'), ('\\', '\\'), ('/', '/'), ('b', '\x08'), ('f', '\x0c'), ('n', '\n'), ('r', '\r'),
    ('t', '\t')]

/-- Four hexadecimal digits and the number that they write. -/
structure CodeUnit (text : List Char) (n : Nat) : Prop where
  four : text.length = 4
  digits : Digits 16 text n

/-- The ways to write a character of a string. -/
inductive WritesChar (c : Char) : List Char → Prop
  | plain (printable : 0x20 ≤ c.toNat) (unquoted : c ≠ '"') (unescaped : c ≠ '\\') : WritesChar c [c]
  | letter {letter : Char} (listed : (letter, c) ∈ letterEscapes) : WritesChar c ['\\', letter]
  | unit {text : List Char} (unit : CodeUnit text c.toNat) : WritesChar c ('\\' :: 'u' :: text)
  | pair {first second : List Char} {high low : Nat} (leading : CodeUnit first high)
    (trailing : CodeUnit second low) (upper : 0xD800 ≤ high ∧ high ≤ 0xDBFF)
    (lower : 0xDC00 ≤ low ∧ low ≤ 0xDFFF)
    (same : c.toNat = 0x10000 + (high - 0xD800) * 0x400 + (low - 0xDC00)) :
    WritesChar c (('\\' :: 'u' :: first) ++ '\\' :: 'u' :: second)

def WritesString (text spelled : List Char) : Prop :=
  ∃ parts, List.Forall₂ WritesChar text parts ∧ spelled = '"' :: (parts.flatten ++ ['"'])

structure WritesNumber (n : Nat) (text : List Char) : Prop where
  digits : Digits 10 text n
  unpadded : text.head? = some '0' → text = ['0']

def Blanks (text : List Char) : Prop := ∀ c ∈ text, c ∈ [' ', '\t', '\n', '\r']

inductive WritesMember : List Char × UInt32 → List Char → Prop
  | member {name quoted digits before between behind after : List Char} {value : UInt32}
    (string : WritesString name quoted) (number : WritesNumber value.toNat digits)
    (ahead : Blanks before) (inside : Blanks between) (next : Blanks behind) (last : Blanks after) :
    WritesMember (name, value)
      (before ++ quoted ++ between ++ ':' :: (behind ++ (digits ++ after)))

inductive WritesMembers : List (List Char × UInt32) → List Char → Prop
  | one {member : List Char × UInt32} {text : List Char} (only : WritesMember member text) :
    WritesMembers [member] text
  | more {member : List Char × UInt32} {members : List (List Char × UInt32)}
    {text others : List Char} (first : WritesMember member text)
    (rest : WritesMembers members others) : WritesMembers (member :: members) (text ++ ',' :: others)

/-- An object of whole numbers. -/
inductive WritesObject : List (List Char × UInt32) → List Char → Prop
  | empty {before inside behind : List Char} (ahead : Blanks before) (between : Blanks inside)
    (after : Blanks behind) : WritesObject [] (before ++ '\x7b' :: (inside ++ '\x7d' :: behind))
  | filled {members : List (List Char × UInt32)} {before inside behind : List Char}
    (ahead : Blanks before) (listed : WritesMembers members inside) (after : Blanks behind) :
    WritesObject members (before ++ '\x7b' :: (inside ++ '\x7d' :: behind))

namespace Scanner

def run (scanner : Scanner) (text : List Char) : Option Scanner := text.foldlM step scanner

theorem run_append (scanner : Scanner) (first rest : List Char) :
    scanner.run (first ++ rest) = (scanner.run first).bind fun between => between.run rest :=
  List.foldlM_append

theorem run_cons (scanner : Scanner) (c : Char) (rest : List Char) :
    scanner.run (c :: rest) = (scanner.step c).bind fun between => between.run rest := rfl

section Strings

variable {seen : List Token} {found : List Char} {high : Option Nat}

theorem run_digits {text : List Char} {n : Nat} (digits : Digits 16 text n) {count : Nat}
    (room : text.length < count) :
    (⟨.string (.digits count 0 high) found, seen⟩ : Scanner).run text =
      some ⟨.string (.digits (count - text.length) n high) found, seen⟩ := by
  induction digits with
  | @one c digit last =>
    have more : ¬count ≤ 1 := by simpa using room
    simp [run, step, stepString, last, more]
  | @more init n digit c before last ih =>
    rw [List.length_append, List.length_singleton] at room
    have more : ¬count - init.length ≤ 1 := by omega
    have left : count - (init ++ [c]).length = count - init.length - 1 := by
      rw [List.length_append, List.length_singleton]
      omega
    rw [run_append, ih (by omega), left]
    simp [run, step, stepString, last, more]

theorem run_codeUnit {text : List Char} {n : Nat} (unit : CodeUnit text n) :
    (⟨.string (.digits 4 0 high) found, seen⟩ : Scanner).run text =
      (afterUnit? n high found).map fun mode => ⟨mode, seen⟩ := by
  obtain ⟨four, digits⟩ := unit
  cases digits with
  | one => simp at four
  | @more init n digit c before last =>
    have three : init.length = 3 := by simpa using four
    rw [run_append, run_digits before (by omega), three]
    cases ended : afterUnit? (n * 16 + digit) high found <;>
      simp [run, step, stepString, last, ended]

theorem afterUnit?_toNat (c : Char) :
    afterUnit? c.toNat none found = some (.string .plain (c :: found)) := by
  have outside : c.toNat < 0xD800 ∨ 0xDFFF < c.toNat := c.valid.imp_right And.left
  have notHigh : isHighSurrogate c.toNat = false := by
    simp only [isHighSurrogate, decide_eq_false_iff_not]
    omega
  have notLow : isLowSurrogate c.toNat = false := by
    simp only [isLowSurrogate, decide_eq_false_iff_not]
    omega
  simp [afterUnit?, notHigh, notLow]

theorem run_writesChar {c : Char} {part : List Char} (writes : WritesChar c part) :
    (⟨.string .plain found, seen⟩ : Scanner).run part =
      some ⟨.string .plain (c :: found), seen⟩ := by
  cases writes with
  | plain printable unquoted unescaped =>
    have shown : ¬c.toNat < 0x20 := Nat.not_lt_of_le printable
    simp [run, step, stepString, unquoted, unescaped, shown]
  | letter listed =>
    simp only [letterEscapes, List.mem_cons, Prod.mk.injEq, List.not_mem_nil, or_false] at listed
    rcases listed with ⟨rfl, rfl⟩ | ⟨rfl, rfl⟩ | ⟨rfl, rfl⟩ | ⟨rfl, rfl⟩ | ⟨rfl, rfl⟩ | ⟨rfl, rfl⟩ |
      ⟨rfl, rfl⟩ | ⟨rfl, rfl⟩ <;> rfl
  | @unit text unit =>
    calc (⟨.string .plain found, seen⟩ : Scanner).run ('\\' :: 'u' :: text)
      _ = (⟨.string (.digits 4 0 none) found, seen⟩ : Scanner).run text := rfl
      _ = some ⟨.string .plain (c :: found), seen⟩ := by
        rw [run_codeUnit unit, afterUnit?_toNat, Option.map_some]
  | @pair first second high low leading trailing upper lower same =>
    have opened : afterUnit? high none found = some (.string (.awaitEscape high) found) := by
      simp [afterUnit?, isHighSurrogate, upper]
    have closed : afterUnit? low (some high) found = some (.string .plain (c :: found)) := by
      simp [afterUnit?, isLowSurrogate, lower, pair, ← same]
    calc (⟨.string .plain found, seen⟩ : Scanner).run (('\\' :: 'u' :: first) ++ '\\' :: 'u' :: second)
      _ = (⟨.string (.digits 4 0 none) found, seen⟩ : Scanner).run (first ++ '\\' :: 'u' :: second) := rfl
      _ = (⟨.string (.awaitEscape high) found, seen⟩ : Scanner).run ('\\' :: 'u' :: second) := by
        rw [run_append, run_codeUnit leading, opened]
        rfl
      _ = (⟨.string (.digits 4 0 (some high)) found, seen⟩ : Scanner).run second := rfl
      _ = some ⟨.string .plain (c :: found), seen⟩ := by
        rw [run_codeUnit trailing, closed, Option.map_some]

theorem run_parts {text : List Char} {parts : List (List Char)}
    (writes : List.Forall₂ WritesChar text parts) (found : List Char) :
    (⟨.string .plain found, seen⟩ : Scanner).run parts.flatten =
      some ⟨.string .plain (text.reverse ++ found), seen⟩ := by
  induction writes generalizing found with
  | nil => rfl
  | cons first rest ih =>
    rw [List.flatten_cons, run_append, run_writesChar first, Option.bind_some, ih]
    simp

theorem run_string {text spelled : List Char} (writes : WritesString text spelled) :
    (⟨.between, seen⟩ : Scanner).run spelled = some ⟨.between, .string text :: seen⟩ := by
  obtain ⟨parts, characters, rfl⟩ := writes
  calc (⟨.between, seen⟩ : Scanner).run ('"' :: (parts.flatten ++ ['"']))
    _ = (⟨.string .plain [], seen⟩ : Scanner).run (parts.flatten ++ ['"']) := rfl
    _ = (⟨.string .plain (text.reverse ++ []), seen⟩ : Scanner).run ['"'] := by
      rw [run_append, run_parts characters, Option.bind_some]
    _ = some ⟨.between, .string text :: seen⟩ := by
      simp [run, step, stepString, emit]

end Strings

section Parts

variable {seen : List Token}

theorem run_blanks {text : List Char} (blanks : Blanks text) :
    (⟨.between, seen⟩ : Scanner).run text = some ⟨.between, seen⟩ := by
  induction text with
  | nil => rfl
  | cons c rest ih =>
    obtain ⟨first, others⟩ := List.forall_mem_cons.1 blanks
    have skipped : (⟨.between, seen⟩ : Scanner).step c = some ⟨.between, seen⟩ := by
      simp only [List.mem_cons, List.not_mem_nil, or_false] at first
      rcases first with rfl | rfl | rfl | rfl <;> rfl
    rw [run_cons, skipped, Option.bind_some, ih others]

theorem step_digit {c : Char} (digit : c.isDigit) :
    (⟨.between, seen⟩ : Scanner).step c = some ⟨.number [c], seen⟩ := by
  have listed : c ∈ ['0', '1', '2', '3', '4', '5', '6', '7', '8', '9'] :=
    Operand.mem_digits_of_isDigit digit
  simp only [List.mem_cons, List.not_mem_nil, or_false] at listed
  rcases listed with rfl | rfl | rfl | rfl | rfl | rfl | rfl | rfl | rfl | rfl <;> rfl

theorem run_number {text : List Char} {n : Nat} (digits : Digits 10 text n) :
    (⟨.between, seen⟩ : Scanner).run text = some ⟨.number text.reverse, seen⟩ := by
  induction digits with
  | @one c digit last =>
    rw [run_cons, step_digit (Operand.isDigit_of_digitValue last)]
    rfl
  | @more init n digit c before last ih =>
    rw [run_append, ih, Option.bind_some]
    simp [run, step, Operand.isDigit_of_digitValue last]

theorem run_writesNumber {n : Nat} {text : List Char} (writes : WritesNumber n text)
    (low : n ≤ 0xFFFFFFFF) {c : Char} (other : c.isDigit = false) (rest : List Char) :
    (⟨.between, seen⟩ : Scanner).run (text ++ c :: rest) =
      (⟨.between, .number n :: seen⟩ : Scanner).run (c :: rest) := by
  obtain ⟨digits, unpadded⟩ := writes
  have read : readDigits 10 0xFFFFFFFF 0 text = .ok n :=
    (readDigits_eq_ok_iff digits.ne_nil).2 ⟨digits, low⟩
  have ended : (⟨.number text.reverse, seen⟩ : Scanner).endNumber? text.reverse =
      some ⟨.between, .number n :: seen⟩ := by
    unfold endNumber?
    rw [List.reverse_reverse]
    split
    · exact absurd (unpadded rfl) (by simp)
    · rw [read]
      rfl
  rw [run_append, run_number digits, Option.bind_some, run_cons, run_cons]
  simp only [step, other, ended]
  rfl

theorem run_member {member : List Char × UInt32} {text : List Char}
    (writes : WritesMember member text) {c : Char} (other : c.isDigit = false) (rest : List Char) :
    (⟨.between, seen⟩ : Scanner).run (text ++ c :: rest) =
      (⟨.between, .number member.2.toNat :: .colon :: .string member.1 :: seen⟩ : Scanner).run
        (c :: rest) := by
  cases writes with
  | @member name quoted digits before between behind after value string number ahead inside next last =>
    have low : value.toNat ≤ 0xFFFFFFFF := Nat.le_of_lt_succ value.toNat_lt
    have read (seen : List Token) : (⟨.between, seen⟩ : Scanner).run (digits ++ (after ++ c :: rest)) =
        (⟨.between, .number value.toNat :: seen⟩ : Scanner).run (c :: rest) := by
      cases after with
      | nil => exact run_writesNumber number low other rest
      | cons blank more =>
        have spaced : blank.isDigit = false := by
          have listed := last blank List.mem_cons_self
          simp only [List.mem_cons, List.not_mem_nil, or_false] at listed
          rcases listed with rfl | rfl | rfl | rfl <;> rfl
        rw [List.cons_append, run_writesNumber number low spaced, ← List.cons_append, run_append,
          run_blanks last, Option.bind_some]
    let tail := after ++ c :: rest
    calc
      (⟨.between, seen⟩ : Scanner).run
          (before ++ quoted ++ between ++ ':' :: (behind ++ (digits ++ after)) ++ c :: rest)
      _ = (⟨.between, seen⟩ : Scanner).run
          (before ++ (quoted ++ (between ++ ':' :: (behind ++ (digits ++ tail))))) := by
        simp only [tail, List.append_assoc, List.cons_append]
      _ = (⟨.between, .string name :: seen⟩ : Scanner).run
          (between ++ ':' :: (behind ++ (digits ++ tail))) := by
        rw [run_append, run_blanks ahead, Option.bind_some, run_append, run_string string,
          Option.bind_some]
      _ = (⟨.between, .string name :: seen⟩ : Scanner).run (':' :: (behind ++ (digits ++ tail))) := by
        rw [run_append, run_blanks inside, Option.bind_some]
      _ = (⟨.between, .colon :: .string name :: seen⟩ : Scanner).run (behind ++ (digits ++ tail)) := rfl
      _ = (⟨.between, .colon :: .string name :: seen⟩ : Scanner).run (digits ++ tail) := by
        rw [run_append, run_blanks next, Option.bind_some]
      _ = (⟨.between, .number value.toNat :: .colon :: .string name :: seen⟩ : Scanner).run
          (c :: rest) := read _

end Parts

end Scanner

def memberTokens : List (List Char × UInt32) → List Token
  | [] => [.closing]
  | [member] => [.string member.1, .colon, .number member.2.toNat, .closing]
  | member :: rest =>
    .string member.1 :: .colon :: .number member.2.toNat :: .comma :: memberTokens rest

theorem WritesMembers.ne_nil {members : List (List Char × UInt32)} {text : List Char}
    (writes : WritesMembers members text) : members ≠ [] := by
  cases writes <;> exact List.cons_ne_nil _ _

theorem memberTokens_cons {members : List (List Char × UInt32)} (filled : members ≠ [])
    (member : List Char × UInt32) : memberTokens (member :: members) =
      .string member.1 :: .colon :: .number member.2.toNat :: .comma :: memberTokens members := by
  cases members with
  | nil => exact absurd rfl filled
  | cons next rest => rfl

theorem members?_memberTokens {members : List (List Char × UInt32)} (filled : members ≠ []) :
    members? (memberTokens members) = some members := by
  induction members with
  | nil => exact absurd rfl filled
  | cons member rest ih =>
    cases rest with
    | nil => simp [memberTokens, members?]
    | cons next more =>
      rw [memberTokens_cons (List.cons_ne_nil next more), members?, ih (List.cons_ne_nil next more)]
      simp

theorem run_members {members : List (List Char × UInt32)} {text : List Char}
    (writes : WritesMembers members text) (seen : List Token) (rest : List Char) :
    (⟨.between, seen⟩ : Scanner).run (text ++ '\x7d' :: rest) =
      (⟨.between, (memberTokens members).reverse ++ seen⟩ : Scanner).run rest := by
  induction writes generalizing seen with
  | one only =>
    rw [Scanner.run_member only (by decide)]
    simp [memberTokens]
    rfl
  | more first others ih =>
    rw [List.append_assoc, List.cons_append, Scanner.run_member first (by decide)]
    change (⟨.between, .comma :: _⟩ : Scanner).run _ = _
    rw [ih, memberTokens_cons others.ne_nil]
    simp

theorem tokens?_of_writesObject {members : List (List Char × UInt32)} {text : List Char}
    (writes : WritesObject members text) : tokens? text = some (.opening :: memberTokens members) := by
  have opened {before : List Char} (ahead : Blanks before) (rest : List Char) :
      Scanner.start.run (before ++ '\x7b' :: rest) = (⟨.between, [.opening]⟩ : Scanner).run rest := by
    rw [Scanner.run_append, Scanner.start, Scanner.run_blanks ahead]
    rfl
  have read : Scanner.start.run text =
      some ⟨.between, (memberTokens members).reverse ++ [.opening]⟩ := by
    cases writes with
    | empty ahead between after =>
      rw [opened ahead, Scanner.run_append, Scanner.run_blanks between]
      exact Scanner.run_blanks after
    | filled ahead listed after => rw [opened ahead, run_members listed, Scanner.run_blanks after]
  change (Scanner.start.run text).bind Scanner.finish? = _
  rw [read, Option.bind_some, Scanner.finish?]
  simp

theorem object?_memberTokens (members : List (List Char × UInt32)) :
    object? (.opening :: memberTokens members) = some members := by
  cases members with
  | nil => rfl
  | cons member rest =>
    rw [← members?_memberTokens (List.cons_ne_nil member rest)]
    cases rest <;> rfl

/-- Every way to write an object is read as its members. -/
theorem object?_of_writesObject {members : List (List Char × UInt32)} {text : List Char}
    (writes : WritesObject members text) : (tokens? text).bind object? = some members := by
  rw [tokens?_of_writesObject writes, Option.bind_some, object?_memberTokens]

section Writing

theorem writesNumber_decimal (n : Nat) : WritesNumber n (decimal n) :=
  ⟨digits_decimal n, decimal_unpadded n⟩

theorem codeUnit_hex {n : Nat} (small : n < 0x20) : CodeUnit (hex 4 n) n :=
  ⟨length_hex (by decide) (Nat.lt_trans small (by decide)), digits_hex 4 n⟩

theorem writesChar_escape (c : Char) : WritesChar c (escape c) := by
  unfold escape
  split_ifs with quote backslash backspace tab newline feed carriage control
  · exact .letter (by simp [letterEscapes, quote])
  · exact .letter (by simp [letterEscapes, backslash])
  · exact .letter (by simp [letterEscapes, backspace])
  · exact .letter (by simp [letterEscapes, tab])
  · exact .letter (by simp [letterEscapes, newline])
  · exact .letter (by simp [letterEscapes, feed])
  · exact .letter (by simp [letterEscapes, carriage])
  · exact .unit (codeUnit_hex control)
  · exact .plain (Nat.le_of_not_lt control) quote backslash

theorem writesString_quote (text : List Char) : WritesString text (quote text) := by
  refine ⟨text.map escape, ?_, by rw [quote, List.flatMap_def]⟩
  rw [List.forall₂_map_right_iff, List.forall₂_same]
  exact fun c _ => writesChar_escape c

theorem blanks_newLine (depth : Nat) : Blanks (newLine depth) := by
  intro c member
  rcases List.mem_cons.1 member with rfl | later
  · decide
  · rw [List.eq_of_mem_replicate later]
    decide

def memberLine (member : List Char × UInt32) : List Char :=
  newLine 1 ++ (quote member.1 ++ ':' :: ' ' :: decimal member.2.toNat)

theorem writesMember_memberLine (member : List Char × UInt32) {after : List Char}
    (last : Blanks after) : WritesMember member (memberLine member ++ after) := by
  have space : Blanks [' '] := List.forall_mem_singleton.2 (by decide)
  have written := WritesMember.member (writesString_quote member.1)
    (writesNumber_decimal member.2.toNat) (blanks_newLine 1) (List.forall_mem_nil _) space last
  simpa [memberLine] using written

theorem writesMembers_lines {members : List (List Char × UInt32)} (filled : members ≠ []) :
    WritesMembers members ([','].intercalate (members.map memberLine) ++ newLine 0) := by
  induction members with
  | nil => exact absurd rfl filled
  | cons member rest ih =>
    cases rest with
    | nil =>
      rw [List.map_singleton, List.intercalate_singleton]
      exact .one (writesMember_memberLine member (blanks_newLine 0))
    | cons next more =>
      have first := writesMember_memberLine member (List.forall_mem_nil _)
      rw [List.append_nil] at first
      have written := WritesMembers.more first (ih (List.cons_ne_nil next more))
      simpa [List.intercalate_cons_cons] using written

theorem writesObject_pretty (members : List (List Char × UInt32)) :
    WritesObject members (object (members.map fun member => (member.1, word member.2))).pretty := by
  have idle : Blanks [] := List.forall_mem_nil _
  cases members with
  | nil =>
    rw [List.map_nil, pretty, indented]
    exact .empty idle idle idle
  | cons member rest =>
    have written := WritesObject.filled idle (writesMembers_lines (List.cons_ne_nil member rest)) idle
    have items : ((member :: rest).map fun member => (member.1, word member.2)).map
        (fun field => quote field.1 ++ ':' :: ' ' :: field.2.indented (0 + 1)) =
          (member :: rest).map fun member => quote member.1 ++ ':' :: ' ' :: decimal member.2.toNat := by
      rw [List.map_map]
      exact List.map_congr_left fun _ _ => by simp [word, indented]
    have lined : (object ((member :: rest).map fun member => (member.1, word member.2))).pretty =
        '\x7b' :: ([','].intercalate ((member :: rest).map memberLine) ++ newLine 0 ++ ['\x7d']) := by
      rw [pretty, indented, items, frame, if_neg (by simp), List.map_map]
      rfl
    rw [lined]
    exact written

end Writing

end WordMachine.Json
