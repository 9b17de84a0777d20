import WordMachine.Proofs.Source.Listing
import WordMachine.Proofs.Text.Positional

/-! The grammars of the operands. Each place for an operand takes the tokens of its grammar and no others,
with any zeros in front of a number, and what a listing writes in a place is one of them. -/

namespace WordMachine

open Text Operand

def InAnyCase (name token : List Char) : Prop :=
  List.Forall₂ (fun letter c => c = letter ∨ c = letter.toUpper) name token

def Signed (base : Nat) (token : List Char) (n : Nat) : Prop :=
  ∃ digits, (token = digits ∨ token = '+' :: digits) ∧ Positional base digits n

def hexMarks : List (List Char) := [[], "0x".toList, "0X".toList]

/-- A token stands for a number in a place. -/
def Slot.Takes : Slot → List Char → Nat → Prop
  | .register, token, n => InAnyCase "zero".toList token ∧ n = 0 ∨
      InAnyCase "comp".toList token ∧ n = 1 ∨ Signed 10 token n ∧ n ≤ 15
  | .immediate, token, n => Signed 10 token n ∧ n ≤ 255
  | .address, token, n =>
      (∃ mark ∈ hexMarks, ∃ rest, token = mark ++ rest ∧ Signed 16 rest n) ∧ n ≤ 0xFFFF
  | .target, token, n => Signed 10 token n ∧ n ≤ 0xFFFFFF

def PlainDecimal (text : List Char) : Prop :=
  (∀ c ∈ text, c.isDigit) ∧ (text.head? = some '0' → text = ['0'])

/-- How a listing writes a number in a place: an address in four digits of base sixteen, of which no letter
is a capital, and any other number in decimal. -/
def Slot.Shows : Slot → List Char → Prop
  | .address, text => text.length = 4 ∧ ∀ c ∈ text, c ∈ smallDigits
  | .register, text | .immediate, text | .target, text => PlainDecimal text

/-- Zeros in front of its digits do not change what a number is read as. -/
def IgnoresZeros {α : Type} (reader : List Char → Option α) (base : Nat) (front : List Char) : Prop :=
  ∀ count digits n, Positional base digits n →
    reader (front ++ (List.replicate count '0' ++ digits)) = reader (front ++ digits)

section Grammar

theorem toLower_eq_iff {letter c : Char} (small : letter.isLower) :
    c.toLower = letter ↔ c = letter ∨ c = letter.toUpper := by
  simp only [Char.isLower, Bool.and_eq_true, decide_eq_true_eq, ge_iff_le] at small
  simp only [← Char.val_inj, Char.toLower, Char.toUpper]
  -- A letter is as far from its capital as the capital is from it.
  split_ifs <;> grind

theorem inAnyCase_iff {name token : List Char} (small : name.all Char.isLower) :
    InAnyCase name token ↔ lowerCase token = name := by
  induction name generalizing token with
  | nil => simp [InAnyCase, lowerCase]
  | cons letter more ih =>
    obtain ⟨first, others⟩ := Bool.and_eq_true_iff.1 small
    cases token with
    | nil => simp [InAnyCase, lowerCase]
    | cons c rest =>
      have later : InAnyCase more rest ↔ lowerCase rest = more := ih others
      rw [InAnyCase, List.forall₂_cons, ← toLower_eq_iff first, lowerCase, List.map_cons,
        List.cons.injEq]
      exact and_congr_right fun _ => later

theorem signed_iff {base n : Nat} {token : List Char} : Signed base token n ↔ Numeral base token n := by
  simp only [Signed, Numeral, positional_iff]
  constructor
  · rintro ⟨digits, rfl | rfl, written⟩
    · exact .inl written
    · exact .inr ⟨digits, rfl, written⟩
  · rintro (written | ⟨digits, rfl, written⟩)
    · exact ⟨token, .inl rfl, written⟩
    · exact ⟨digits, .inr rfl, written⟩

theorem takes_register_iff {token : List Char} {r : Reg} :
    Slot.register.Takes token r.val ↔ NamesRegister token r := by
  have zero := @inAnyCase_iff "zero".toList token (by decide)
  have comp := @inAnyCase_iff "comp".toList token (by decide)
  have low : r.val ≤ 15 := Nat.le_of_lt_succ r.isLt
  rw [Slot.Takes, zero, comp, signed_iff, and_iff_left low]
  rfl

theorem takes_address_iff {token : List Char} {n : Nat} :
    Slot.address.Takes token n ↔ WritesAddress token n := by
  rw [Slot.Takes, WritesAddress, and_comm]
  apply and_congr_right
  intro _
  simp only [signed_iff]
  constructor
  · rintro ⟨mark, listed, rest, rfl, numeral⟩
    rcases List.mem_cons.1 listed with rfl | marked
    · exact .inl numeral
    · refine .inr ⟨rest, ?_, numeral⟩
      rcases List.mem_pair.1 marked with rfl | rfl
      · exact .inl rfl
      · exact .inr rfl
  · rintro (numeral | ⟨digits, rfl | rfl, numeral⟩)
    · exact ⟨[], by decide, token, rfl, numeral⟩
    · exact ⟨"0x".toList, by decide, digits, rfl, numeral⟩
    · exact ⟨"0X".toList, by decide, digits, rfl, numeral⟩

end Grammar

section Zeros

variable {base n : Nat} {token : List Char}

theorem ignoresZeros_of_numeral {α : Type} {reader : List Char → Option α} {front sign : List Char}
    (signs : sign ∈ [[], ['+']]) (read : Nat → Option α)
    (every : ∀ token n, Numeral base token n → reader (front ++ token) = read n) :
    IgnoresZeros reader base (front ++ sign) := by
  intro count digits n positional
  have signed {text : List Char} (written : Digits base text n) : Numeral base (sign ++ text) n := by
    rcases List.mem_pair.1 signs with rfl | rfl
    · exact .inl written
    · exact .inr ⟨text, rfl, written⟩
  have plain := positional_iff.1 positional
  rw [List.append_assoc, List.append_assoc, every _ n (signed (plain.zeros_append count)),
    every _ n (signed plain)]

theorem register?_of_numeral (numeral : Numeral 10 token n) :
    register? token = (if n ≤ 15 then some n else none).map (Fin.ofNat 16) := by
  have unnamed (name : List Char) (c : Char) (member : c ∈ name) (letter : c.isLower) :
      lowerCase token ≠ name := by
    rintro rfl
    exact not_numeral_of_lowerCase member letter n numeral
  rw [register?, if_neg (unnamed _ 'z' (by decide) (by decide)),
    if_neg (unnamed _ 'c' (by decide) (by decide)), numeral?_of_numeral numeral]

theorem immediate?_of_numeral (numeral : Numeral 10 token n) :
    immediate? token = (if n ≤ 0xFF then some n else none).map UInt32.ofNat := by
  rw [immediate?, numeral?_of_numeral numeral]

theorem target?_of_numeral (numeral : Numeral 10 token n) : target? token =
    (if n ≤ maxTarget then some n else none).map fun address => .literal (UInt32.ofNat address) := by
  rw [target?, if_pos (isLiteral_iff.2 ⟨n, numeral⟩), numeral?_of_numeral numeral]

theorem afterHexMark?_getD {mark : List Char} (listed : mark ∈ hexMarks)
    (numeral : Numeral 16 token n) :
    (afterHexMark? (mark ++ token)).getD (mark ++ token) = token := by
  rcases List.mem_cons.1 listed with rfl | marked
  · have unmarked : afterHexMark? token = none := by
      apply Option.eq_none_iff_forall_ne_some.2
      intro digits found
      exact not_numeral_of_hexMark (afterHexMark?_eq_some_iff.1 found) n numeral
    rw [List.nil_append, unmarked, Option.getD_none]
  · rcases List.mem_pair.1 marked with rfl | rfl <;> rfl

theorem address?_of_numeral {mark : List Char} (listed : mark ∈ hexMarks)
    (numeral : Numeral 16 token n) :
    address? (mark ++ token) = (if n ≤ 0xFFFF then some n else none).map UInt32.ofNat := by
  rw [address?, afterHexMark?_getD listed numeral, numeral?_of_numeral numeral]

end Zeros

section Listing

theorem plainDecimal (n : Nat) : PlainDecimal (decimal n) :=
  ⟨List.all_eq_true.1 (all_isDigit (digits_decimal n)), decimal_unpadded n⟩

theorem shows_hex {addr : UInt32} (fits : addr.toNat < 0x10000) :
    Slot.address.Shows (hex 4 addr.toNat) :=
  ⟨length_hex (by decide) fits, mem_smallDigits_of_hex 4 addr.toNat⟩

theorem shows_numberTexts {i : Instr Reg UInt32} (fits : i.Fits) :
    List.Forall₂ Slot.Shows i.op.slots i.numberTexts := by
  cases i with
  | alu f left right dst =>
    exact .cons (plainDecimal _) (.cons (plainDecimal _) (.cons (plainDecimal _) .nil))
  | aluImm f imm src dst =>
    exact .cons (plainDecimal _) (.cons (plainDecimal _) (.cons (plainDecimal _) .nil))
  | transfer t reg addr => exact .cons (plainDecimal _) (.cons (shows_hex fits) .nil)
  | cmp left right => exact .cons (plainDecimal _) (.cons (plainDecimal _) .nil)
  | jump j target => exact .cons (plainDecimal _) .nil
  | bare b => exact .nil

end Listing

/-- A token is read in a place if and only if it is in the grammar of the place, as the number that it stands
for there. A target is refused if and only if it is too large a number, and refers to a label if and only if
it is no number at all. Zeros in front of the digits change nothing, and the text of an instruction has a
token for each place, in the form of a listing, that is read as what the instruction has there. -/
theorem operands_read_by_grammar :
    (∀ token : List Char,
      (∀ r, register? token = some r ↔ Slot.register.Takes token r.val) ∧
      (∀ imm, immediate? token = some imm ↔ Slot.immediate.Takes token imm.toNat) ∧
      (∀ addr, address? token = some addr ↔ Slot.address.Takes token addr.toNat) ∧
      (∀ goal, target? token = some (.literal goal) ↔ Slot.target.Takes token goal.toNat) ∧
      (target? token = none ↔ ∃ n, Signed 10 token n ∧ 0xFFFFFF < n) ∧
      (∀ name, target? token = some (.label name) ↔ name = token ∧ ∀ n, ¬Signed 10 token n)) ∧
    (∀ sign ∈ [[], ['+']], IgnoresZeros register? 10 sign ∧ IgnoresZeros immediate? 10 sign ∧
      IgnoresZeros target? 10 sign ∧
      ∀ mark ∈ hexMarks, IgnoresZeros address? 16 (mark ++ sign)) ∧
    ∀ i : Instr Reg UInt32, i.Fits → ∃ tokens,
      words (i.text .empty) = i.op.mnemonic.toList :: tokens ∧
        List.Forall₂ Slot.Shows i.op.slots tokens ∧ Spells i.literal tokens := by
  refine ⟨fun token => ⟨?_, ?_, ?_, ?_, ?_, ?_⟩, ?_, ?_⟩
  · intro r
    rw [takes_register_iff, register?_eq_some_iff]
  · intro imm
    rw [Slot.Takes, signed_iff, immediate?_eq_some_iff]
  · intro addr
    rw [takes_address_iff, address?_eq_some_iff]
  · intro goal
    rw [Slot.Takes, signed_iff, target?_eq_literal_iff, maxTarget]
  · simp only [signed_iff, target?_eq_none_iff, maxTarget]
  · intro name
    simp only [signed_iff, target?_eq_label_iff]
  · intro sign signs
    have plain {α : Type} {reader : List Char → Option α} (read : Nat → Option α)
        (every : ∀ token n, Numeral 10 token n → reader token = read n) :
        IgnoresZeros reader 10 ([] ++ sign) :=
      ignoresZeros_of_numeral signs read every
    refine ⟨plain _ fun _ _ => register?_of_numeral, plain _ fun _ _ => immediate?_of_numeral,
      plain _ fun _ _ => target?_of_numeral, fun mark listed => ?_⟩
    exact ignoresZeros_of_numeral signs _ fun _ _ => address?_of_numeral listed
  · intro i fits
    exact ⟨i.numberTexts, Instr.words_text (Labels.readable_empty .empty) i, shows_numberTexts fits,
      (Statement.spells_of_operands (Instr.operands_numberTexts fits)).2⟩

theorem operands_read_by_grammar_store :
    address? "0X+000fF".toList = some 0xFF ∧ Signed 10 "+0016777216".toList 0x1000000 ∧
      target? "+0016777216".toList = none ∧ ∃ tokens,
        words ((Instr.transfer .store 3 0xFF).text .empty) = "store".toList :: tokens ∧
          List.Forall₂ Slot.Shows [.register, .address] tokens ∧
            Spells (.transfer .store 3 0xFF) tokens := by
  obtain ⟨grammar, zeros, listing⟩ := operands_read_by_grammar
  have digits : Positional 16 "fF".toList 0xFF :=
    ⟨[15, 15], .cons ⟨by decide, .inr rfl⟩ (.cons ⟨by decide, .inl rfl⟩ .nil), by decide, rfl⟩
  have fits : (255 : UInt32).toNat < 0x10000 := by decide
  obtain ⟨-, -, -, marked⟩ := zeros ['+'] (by decide)
  have padded := marked "0X".toList (by decide) 3 "fF".toList 0xFF digits
  have bare : address? "0X+fF".toList = some 0xFF :=
    ((grammar _).2.2.1 0xFF).2 ⟨⟨"0X".toList, by decide, "+fF".toList, rfl, "fF".toList, .inr rfl, digits⟩,
      by decide⟩
  have large : Signed 10 "+0016777216".toList 0x1000000 :=
    signed_iff.2 (.inr ⟨_, rfl, (digits_decimal 16777216).zeros_append 2⟩)
  exact ⟨padded.trans bare, large, (grammar _).2.2.2.2.1.2 ⟨_, large, by decide⟩,
    listing (.transfer .store 3 0xFF) fits⟩

end WordMachine
