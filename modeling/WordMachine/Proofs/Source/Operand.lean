import Mathlib
import WordMachine.Proofs.Text.Numeral
import WordMachine.Source.Operand

/-! What may stand for an operand. Each reader accepts exactly its own spellings, among them the one
in which a listing writes the operand. -/

namespace WordMachine.Operand

open Text

/-- A decimal number, or one of the two names in any case. -/
def NamesRegister (token : List Char) (r : Reg) : Prop :=
  lowerCase token = "zero".toList ∧ r.val = 0 ∨ lowerCase token = "comp".toList ∧ r.val = 1 ∨
    Numeral 10 token r.val

def WritesAddress (token : List Char) (n : Nat) : Prop :=
  n ≤ 0xFFFF ∧ (Numeral 16 token n ∨ ∃ digits,
    (token = '0' :: 'x' :: digits ∨ token = '0' :: 'X' :: digits) ∧ Numeral 16 digits n)

theorem mem_digits_of_isDigit {c : Char} (digit : c.isDigit) : c ∈ "0123456789".toList := by
  have bounds : 48 ≤ c.toNat ∧ c.toNat ≤ 57 := by
    simpa [Char.isDigit, UInt32.le_iff_toNat_le, ← Char.toNat_val] using digit
  have every : ∀ n < 10, Char.ofNat (48 + n) ∈ "0123456789".toList := by decide
  have found := every (c.toNat - 48) (by omega)
  rwa [Nat.add_sub_cancel' bounds.1, Char.ofNat_toNat] at found

theorem digitValue_isSome_of_isDigit {c : Char} (digit : c.isDigit) :
    (digitValue 10 c).isSome := by
  have every : "0123456789".toList.all fun c => (digitValue 10 c).isSome := by decide
  exact List.all_eq_true.1 every c (mem_digits_of_isDigit digit)

theorem isDigit_of_digitValue {c : Char} {digit : Nat} (found : digitValue 10 c = some digit) :
    c.isDigit := by
  obtain ⟨listed, below⟩ := Option.filter_eq_some_iff.1 found
  simp only [decide_eq_true_eq] at below
  simp only [Char.isDigit, Bool.and_eq_true, decide_eq_true_eq, ge_iff_le]
  simp only [Char.le_def, UInt32.le_iff_toNat_le] at listed ⊢
  grind

theorem not_numeral_of_lowerCase {token : List Char} {c : Char} (member : c ∈ lowerCase token)
    (letter : c.isLower) (n : Nat) : ¬Numeral 10 token n := by
  obtain ⟨d, inside, lowered⟩ := List.mem_map.1 member
  have none : ('+' :: "0123456789".toList).all fun e => !e.toLower.isLower := by decide
  have plain := List.all_eq_true.1 none
  have spelled (text : List Char) (digits : Digits 10 text n) :
      ∀ e ∈ text, e ∈ "0123456789".toList := by
    intro e within
    obtain ⟨digit, found⟩ := digits.exists_digit e within
    exact mem_digits_of_isDigit (isDigit_of_digitValue found)
  intro numeral
  rcases numeral with digits | ⟨rest, rfl, digits⟩
  · have clash := plain d (List.mem_cons_of_mem _ (spelled _ digits d inside))
    simp [lowered, letter] at clash
  · have clash := plain d (List.mem_cons.2 ((List.mem_cons.1 inside).imp id (spelled _ digits d)))
    simp [lowered, letter] at clash

theorem register?_eq_some_iff {token : List Char} {r : Reg} :
    register? token = some r ↔ NamesRegister token r := by
  unfold register? NamesRegister
  split
  · next zero =>
    have letter : 'z' ∈ lowerCase token := by rw [zero]; decide
    have named : some 0 = some r ↔ r.val = 0 := by
      rw [Option.some.injEq, eq_comm, Fin.ext_iff]
      rfl
    simp [named, zero, not_numeral_of_lowerCase letter (by decide)]
  · next notZero =>
    split
    · next comp =>
      have letter : 'c' ∈ lowerCase token := by rw [comp]; decide
      have named : some 1 = some r ↔ r.val = 1 := by
        rw [Option.some.injEq, eq_comm, Fin.ext_iff]
        rfl
      simp [named, comp, not_numeral_of_lowerCase letter (by decide)]
    · next notComp =>
      simp only [notZero, notComp, false_and, false_or, Option.map_eq_some_iff,
        numeral?_eq_some_iff]
      constructor
      · intro written
        obtain ⟨n, ⟨numeral, within⟩, rfl⟩ := written
        have kept : (Fin.ofNat 16 n).val = n := Nat.mod_eq_of_lt (by omega)
        rwa [kept]
      · intro numeral
        exact ⟨r.val, ⟨numeral, by omega⟩, Fin.ext (Nat.mod_eq_of_lt r.isLt)⟩

theorem register?_eq_none_iff {token : List Char} :
    register? token = none ↔ ∀ r, ¬NamesRegister token r := by
  simp only [Option.eq_none_iff_forall_ne_some, ne_eq, register?_eq_some_iff]

theorem map_numeral?_eq_some_iff {base bound : Nat} (small : bound < 2 ^ 32) {text : List Char}
    {value : UInt32} : (numeral? base bound text).map UInt32.ofNat = some value ↔
      Numeral base text value.toNat ∧ value.toNat ≤ bound := by
  rw [Option.map_eq_some_iff]
  constructor
  · intro written
    obtain ⟨n, read, rfl⟩ := written
    obtain ⟨numeral, within⟩ := numeral?_eq_some_iff.1 read
    rw [UInt32.toNat_ofNat_of_lt' (Nat.lt_of_le_of_lt within small)]
    exact ⟨numeral, within⟩
  · intro spelled
    exact ⟨value.toNat, numeral?_eq_some_iff.2 spelled, UInt32.ofNat_toNat⟩

theorem immediate?_eq_some_iff {token : List Char} {imm : UInt32} :
    immediate? token = some imm ↔ Numeral 10 token imm.toNat ∧ imm.toNat ≤ 0xFF :=
  map_numeral?_eq_some_iff (by decide)

theorem immediate?_eq_none_iff {token : List Char} :
    immediate? token = none ↔ ∀ n ≤ 0xFF, ¬Numeral 10 token n := by
  rw [immediate?, Option.map_eq_none_iff]
  simp only [Option.eq_none_iff_forall_ne_some, ne_eq, numeral?_eq_some_iff, not_and]
  exact forall_congr' fun n => imp_not_comm

theorem afterHexMark?_eq_some_iff {token digits : List Char} :
    afterHexMark? token = some digits ↔ token = '0' :: 'x' :: digits ∨ token = '0' :: 'X' :: digits := by
  unfold afterHexMark?
  split <;> simp_all

theorem not_numeral_of_hexMark {base : Nat} {token digits : List Char}
    (marked : token = '0' :: 'x' :: digits ∨ token = '0' :: 'X' :: digits) (n : Nat) :
    ¬Numeral base token n := by
  have unread : digitValue base 'x' = none ∧ digitValue base 'X' = none := ⟨rfl, rfl⟩
  have letters : 'x' ∈ token ∨ 'X' ∈ token := by
    rcases marked with rfl | rfl <;> simp
  have clash (digits : Digits base token n) : False := by
    rcases letters with small | capital
    · obtain ⟨digit, found⟩ := digits.exists_digit _ small
      simp [unread.1] at found
    · obtain ⟨digit, found⟩ := digits.exists_digit _ capital
      simp [unread.2] at found
  intro numeral
  rcases numeral with digits | ⟨rest, shape, -⟩
  · exact clash digits
  · rcases marked with rfl | rfl <;> cases shape

theorem address?_eq_some_iff {token : List Char} {addr : UInt32} :
    address? token = some addr ↔ WritesAddress token addr.toNat := by
  have read : address? token = some addr ↔
      Numeral 16 ((afterHexMark? token).getD token) addr.toNat ∧ addr.toNat ≤ 0xFFFF :=
    map_numeral?_eq_some_iff (by decide)
  rw [read, WritesAddress, and_comm]
  apply and_congr_right
  intro small
  cases marked : afterHexMark? token with
  | some digits =>
    have shape := afterHexMark?_eq_some_iff.1 marked
    rw [Option.getD_some]
    constructor
    · intro numeral
      exact .inr ⟨digits, shape, numeral⟩
    · intro written
      rcases written with numeral | ⟨others, same, numeral⟩
      · exact absurd numeral (not_numeral_of_hexMark shape _)
      · have again := afterHexMark?_eq_some_iff.2 same
        rw [marked, Option.some.injEq] at again
        exact again ▸ numeral
  | none =>
    rw [Option.getD_none]
    constructor
    · exact .inl
    · intro written
      rcases written with numeral | ⟨others, same, -⟩
      · exact numeral
      · simp [afterHexMark?_eq_some_iff.2 same] at marked

theorem address?_eq_none_iff {token : List Char} :
    address? token = none ↔ ∀ n, ¬WritesAddress token n := by
  simp only [Option.eq_none_iff_forall_ne_some, ne_eq, address?_eq_some_iff]
  constructor
  · intro never n writes
    have kept : (UInt32.ofNat n).toNat = n :=
      UInt32.toNat_ofNat_of_lt' (Nat.lt_of_le_of_lt writes.1 (by decide))
    exact never (UInt32.ofNat n) (kept.symm ▸ writes)
  · intro never addr
    exact never addr.toNat

theorem exists_digits {text : List Char} (filled : text ≠ []) (every : text.all Char.isDigit) :
    ∃ n, Digits 10 text n := by
  induction text using List.reverseRecOn with
  | nil => exact absurd rfl filled
  | append_singleton init c ih =>
    rw [List.all_append, Bool.and_eq_true] at every
    obtain ⟨earlier, final⟩ := every
    obtain ⟨digit, last⟩ := Option.isSome_iff_exists.1
      (digitValue_isSome_of_isDigit (by simpa using final))
    by_cases empty : init = []
    · exact ⟨digit, by simpa [empty] using Digits.one last⟩
    · obtain ⟨n, digits⟩ := ih empty earlier
      exact ⟨_, digits.more last⟩

theorem all_isDigit {text : List Char} {n : Nat} (digits : Digits 10 text n) :
    text.all Char.isDigit := by
  apply List.all_eq_true.2
  intro c member
  obtain ⟨digit, found⟩ := digits.exists_digit c member
  exact isDigit_of_digitValue found

theorem isLiteral_iff {token : List Char} : isLiteral token ↔ ∃ n, Numeral 10 token n := by
  simp only [isLiteral, Bool.and_eq_true, Bool.not_eq_true', List.isEmpty_eq_false_iff]
  constructor
  · intro literal
    obtain ⟨filled, every⟩ := literal
    obtain ⟨n, digits⟩ := exists_digits filled every
    unfold afterPlus at digits
    split at digits
    · exact ⟨n, .inr ⟨_, rfl, digits⟩⟩
    · exact ⟨n, .inl digits⟩
  · intro numeral
    rcases numeral with ⟨n, digits | ⟨rest, rfl, digits⟩⟩
    · have bare : afterPlus token = token := by
        unfold afterPlus
        split
        · exact absurd List.mem_cons_self digits.plus_notMem
        · rfl
      exact bare.symm ▸ ⟨digits.ne_nil, all_isDigit digits⟩
    · exact ⟨digits.ne_nil, all_isDigit digits⟩

theorem not_numeral {token : List Char} (other : ¬isLiteral token) (n : Nat) : ¬Numeral 10 token n :=
  fun numeral => other (isLiteral_iff.2 ⟨n, numeral⟩)

theorem map_literal_eq_some_iff {token : List Char} {address : UInt32} :
    (numeral? 10 maxTarget token).map (fun n => Target.literal (UInt32.ofNat n)) =
      some (.literal address) ↔ Numeral 10 token address.toNat ∧ address.toNat ≤ maxTarget := by
  rw [← map_numeral?_eq_some_iff (by decide), Option.map_eq_some_iff, Option.map_eq_some_iff]
  simp only [Target.literal.injEq]

theorem target?_eq_literal_iff {token : List Char} {address : UInt32} :
    target? token = some (.literal address) ↔
      Numeral 10 token address.toNat ∧ address.toNat ≤ maxTarget := by
  unfold target?
  split
  · exact map_literal_eq_some_iff
  · next other =>
    simp only [Option.some.injEq, reduceCtorEq, false_iff, not_and]
    intro numeral
    exact absurd numeral (not_numeral other _)

theorem target?_eq_label_iff {token reference : List Char} :
    target? token = some (.label reference) ↔
      reference = token ∧ ∀ n, ¬Numeral 10 token n := by
  unfold target?
  split
  · next literal =>
    obtain ⟨n, numeral⟩ := isLiteral_iff.1 literal
    have counted : ¬∀ n, ¬Numeral 10 token n := fun never => never n numeral
    simp [Option.map_eq_some_iff, counted]
  · next other =>
    simp [not_numeral other, eq_comm]

/-- A target is refused only for its size. -/
theorem target?_eq_none_iff {token : List Char} :
    target? token = none ↔ ∃ n, Numeral 10 token n ∧ maxTarget < n := by
  unfold target?
  split
  · next literal =>
    obtain ⟨n, numeral⟩ := isLiteral_iff.1 literal
    rw [Option.map_eq_none_iff, numeral?_of_numeral numeral]
    simp [numeral.iff_eq]
  · next other =>
    simp only [reduceCtorEq, false_iff, not_exists, not_and]
    intro n numeral
    exact absurd numeral (not_numeral other n)

theorem register?_decimal (r : Reg) : register? (decimal r.val) = some r :=
  register?_eq_some_iff.2 (.inr (.inr (.inl (digits_decimal r.val))))

theorem immediate?_decimal {imm : UInt32} (fits : imm.toNat ≤ 0xFF) :
    immediate? (decimal imm.toNat) = some imm :=
  immediate?_eq_some_iff.2 ⟨.inl (digits_decimal _), fits⟩

theorem address?_hex {addr : UInt32} (fits : addr.toNat ≤ 0xFFFF) (width : Nat) :
    address? (hex width addr.toNat) = some addr :=
  address?_eq_some_iff.2 ⟨fits, .inl (.inl (digits_hex width _))⟩

theorem target?_decimal {target : UInt32} (fits : target.toNat ≤ maxTarget) :
    target? (decimal target.toNat) = some (.literal target) :=
  target?_eq_literal_iff.2 ⟨.inl (digits_decimal _), fits⟩

end WordMachine.Operand
