import Mathlib
import WordMachine.Text.Numeral

/-! The numbers that digits write. Reading under a bound accepts exactly the numerals in value at
most that bound, and a printed number is a numeral of its own value. -/

namespace WordMachine.Text

/-- One or more digits, the highest first, with the number that they write. -/
inductive Digits (base : Nat) : List Char → Nat → Prop
  | one {c : Char} {digit : Nat} (last : digitValue base c = some digit) : Digits base [c] digit
  | more {text : List Char} {value digit : Nat} {c : Char} (init : Digits base text value)
      (last : digitValue base c = some digit) : Digits base (text ++ [c]) (value * base + digit)

/-- Digits behind at most one plus sign. -/
def Numeral (base : Nat) (text : List Char) (value : Nat) : Prop :=
  Digits base text value ∨ ∃ digits, text = '+' :: digits ∧ Digits base digits value

theorem digitValue_lt {base digit : Nat} {c : Char} (found : digitValue base c = some digit) :
    digit < base := by
  have kept := (Option.filter_eq_some_iff.1 found).2
  simpa using kept

theorem digitValue_plus (base : Nat) : digitValue base '+' = none := by
  simp [digitValue]

theorem Digits.ne_nil {base value : Nat} {text : List Char} (digits : Digits base text value) :
    text ≠ [] := by
  cases digits <;> simp

theorem Digits.exists_digit {base value : Nat} {text : List Char}
    (digits : Digits base text value) : ∀ c ∈ text, ∃ digit, digitValue base c = some digit := by
  induction digits with
  | one last =>
    intro c member
    obtain rfl := List.mem_singleton.1 member
    exact ⟨_, last⟩
  | more init last ih =>
    intro c member
    rcases List.mem_append.1 member with earlier | final
    · exact ih c earlier
    · obtain rfl := List.mem_singleton.1 final
      exact ⟨_, last⟩

theorem Digits.plus_notMem {base value : Nat} {text : List Char}
    (digits : Digits base text value) : '+' ∉ text := by
  intro member
  obtain ⟨digit, found⟩ := digits.exists_digit '+' member
  simp [digitValue_plus] at found

theorem Digits.zero_cons {base value : Nat} {text : List Char} (digits : Digits base text value) :
    Digits base ('0' :: text) value := by
  have zero (positive : 0 < base) : digitValue base '0' = some 0 := by
    simp [digitValue, Option.filter, positive]
  induction digits with
  | one last =>
    have positive : 0 < base := Nat.zero_lt_of_lt (digitValue_lt last)
    simpa using Digits.more (.one (zero positive)) last
  | more init last ih => simpa using Digits.more ih last

theorem readDigits_append (base bound value : Nat) (first rest : List Char) :
    readDigits base bound value (first ++ rest) =
      (readDigits base bound value first).bind fun read => readDigits base bound read rest := by
  induction first generalizing value with
  | nil => rfl
  | cons c more ih =>
    simp only [List.cons_append, readDigits]
    cases digitValue base c with
    | none => rfl
    | some digit =>
      by_cases within : value * base + digit ≤ bound
      · simp only [if_pos within, ih]
      · simp only [if_neg within]
        rfl

theorem readDigits_singleton_eq_ok_iff {base bound value read : Nat} {c : Char} :
    readDigits base bound value [c] = .ok read ↔
      ∃ digit, digitValue base c = some digit ∧ read = value * base + digit ∧ read ≤ bound := by
  cases found : digitValue base c with
  | none => simp [readDigits, found]
  | some digit =>
    by_cases within : value * base + digit ≤ bound
    · simp only [readDigits, found, if_pos within, Except.ok.injEq, Option.some.injEq,
        exists_eq_left']
      constructor
      · intro same
        subst same
        exact ⟨rfl, within⟩
      · intro read
        obtain ⟨rfl, -⟩ := read
        rfl
    · simp only [readDigits, found, if_neg within, reduceCtorEq, Option.some.injEq,
        exists_eq_left', false_iff, not_and]
      intro same
      subst same
      exact within

theorem readDigits_eq_ok_iff {base bound value : Nat} {text : List Char} (filled : text ≠ []) :
    readDigits base bound 0 text = .ok value ↔ Digits base text value ∧ value ≤ bound := by
  constructor
  · intro read
    induction text using List.reverseRecOn generalizing value with
    | nil => exact absurd rfl filled
    | append_singleton init c ih =>
      rw [readDigits_append] at read
      by_cases empty : init = []
      · subst empty
        obtain ⟨digit, found, rfl, within⟩ := readDigits_singleton_eq_ok_iff.1 read
        simpa using And.intro (Digits.one found) within
      · cases before : readDigits base bound 0 init with
        | error fault => simp [before, Except.bind] at read
        | ok earlier =>
          simp only [before, Except.bind] at read
          obtain ⟨digit, found, rfl, within⟩ := readDigits_singleton_eq_ok_iff.1 read
          exact ⟨.more (ih empty before).1 found, within⟩
  · intro written
    obtain ⟨digits, within⟩ := written
    clear filled
    induction digits with
    | one last =>
      exact readDigits_singleton_eq_ok_iff.2 ⟨_, last, by omega, within⟩
    | @more text value digit c init last ih =>
      have positive : 0 < base := Nat.zero_lt_of_lt (digitValue_lt last)
      have below : value ≤ value * base := Nat.le_mul_of_pos_right value positive
      rw [readDigits_append, ih (by omega)]
      exact readDigits_singleton_eq_ok_iff.2 ⟨digit, last, rfl, within⟩

theorem readNumeral_of_ne_plus {c : Char} (different : c ≠ '+') (base bound : Nat)
    (rest : List Char) : readNumeral base bound (c :: rest) = readDigits base bound 0 (c :: rest) := by
  unfold readNumeral
  split
  · contradiction
  · next shape => exact absurd (List.cons.inj shape).1 different
  · rfl

/-- A text that is read under a bound is a numeral within the bound, and each such numeral is. -/
theorem readNumeral_eq_ok_iff {base bound value : Nat} {text : List Char} :
    readNumeral base bound text = .ok value ↔ Numeral base text value ∧ value ≤ bound := by
  cases text with
  | nil =>
    simp only [readNumeral, reduceCtorEq, false_iff, not_and]
    intro numeral
    rcases numeral with digits | ⟨rest, shape, -⟩
    · exact absurd rfl digits.ne_nil
    · cases shape
  | cons c rest =>
    by_cases plus : c = '+'
    · subst plus
      cases rest with
      | nil =>
        have unreadable : readNumeral base bound ['+'] = .error .invalidDigit := by
          simp [readNumeral, readDigits, digitValue_plus]
        simp only [unreadable, reduceCtorEq, false_iff, not_and]
        intro numeral
        rcases numeral with digits | ⟨rest, shape, digits⟩
        · exact absurd List.mem_cons_self digits.plus_notMem
        · obtain rfl := (List.cons.inj shape).2
          exact absurd rfl digits.ne_nil
      | cons d more =>
        rw [readNumeral, readDigits_eq_ok_iff (by simp)]
        refine and_congr_left fun _ => ⟨fun digits => .inr ⟨_, rfl, digits⟩, ?_⟩
        intro numeral
        rcases numeral with digits | ⟨rest, shape, digits⟩
        · exact absurd List.mem_cons_self digits.plus_notMem
        · exact (List.cons.inj shape).2 ▸ digits
    · rw [readNumeral_of_ne_plus plus, readDigits_eq_ok_iff (by simp)]
      refine and_congr_left fun _ => ⟨.inl, ?_⟩
      intro numeral
      rcases numeral with digits | ⟨rest, shape, -⟩
      · exact digits
      · exact absurd (List.cons.inj shape).1 plus

theorem numeral?_eq_some_iff {base bound value : Nat} {text : List Char} :
    numeral? base bound text = some value ↔ Numeral base text value ∧ value ≤ bound := by
  rw [← readNumeral_eq_ok_iff, numeral?]
  cases readNumeral base bound text <;> simp [Except.toOption]

theorem Digits.unique {base first second : Nat} {text : List Char}
    (digits : Digits base text first) (others : Digits base text second) : first = second := by
  have one := (readDigits_eq_ok_iff digits.ne_nil).2 ⟨digits, Nat.le_max_left first second⟩
  have two := (readDigits_eq_ok_iff digits.ne_nil).2 ⟨others, Nat.le_max_right first second⟩
  exact Except.ok.inj (one.symm.trans two)

theorem Numeral.unique {base first second : Nat} {text : List Char}
    (numeral : Numeral base text first) (other : Numeral base text second) : first = second := by
  have one := numeral?_eq_some_iff.2 ⟨numeral, Nat.le_max_left first second⟩
  have two := numeral?_eq_some_iff.2 ⟨other, Nat.le_max_right first second⟩
  exact Option.some.inj (one.symm.trans two)

theorem Numeral.iff_eq {base value other : Nat} {text : List Char} (numeral : Numeral base text value) :
    Numeral base text other ↔ other = value := by
  constructor
  · exact fun again => again.unique numeral
  · rintro rfl
    exact numeral

theorem numeral?_of_numeral {base value : Nat} {text : List Char} (numeral : Numeral base text value)
    (bound : Nat) : numeral? base bound text = if value ≤ bound then some value else none := by
  apply Option.ext
  intro other
  rw [numeral?_eq_some_iff, numeral.iff_eq]
  split <;> grind

theorem digitValue_narrow {base wider value : Nat} {c : Char} (below : value < base)
    (found : digitValue wider c = some value) : digitValue base c = some value := by
  unfold digitValue at found ⊢
  rw [(Option.filter_eq_some_iff.1 found).1]
  simp [below]

theorem digitValue_digitChar {base digit : Nat} (below : digit < base) (small : base ≤ 16) :
    digitValue base digit.digitChar = some digit := by
  have every : ∀ digit : Fin 16, digitValue 16 (Nat.digitChar digit) = some digit.val := by decide
  exact digitValue_narrow below (every ⟨digit, by omega⟩)

theorem digits_toDigits {base : Nat} (large : 1 < base) (small : base ≤ 16) (n : Nat) :
    Digits base (Nat.toDigits base n) n := by
  induction n using Nat.strongRecOn with
  | ind n ih =>
    rw [Nat.toDigits_eq_if large]
    split
    · next below => exact .one (digitValue_digitChar below small)
    · next above =>
      have fewer : n / base < n := Nat.div_lt_self (by omega) large
      have last := digitValue_digitChar (Nat.mod_lt n (by omega)) small
      simpa [Nat.div_add_mod'] using (ih (n / base) fewer).more last

theorem digits_decimal (n : Nat) : Digits 10 (decimal n) n :=
  digits_toDigits (by decide) (by decide) n

theorem decimal_unpadded (n : Nat) (zero : (decimal n).head? = some '0') : decimal n = ['0'] := by
  induction n using Nat.strongRecOn with
  | ind n ih =>
    rw [decimal, Nat.toDigits_eq_if (by decide)] at zero ⊢
    split at zero
    · next below =>
      rw [if_pos below, Option.some.inj zero]
    · next above =>
      have filled : Nat.toDigits 10 (n / 10) ≠ [] := (digits_decimal (n / 10)).ne_nil
      rw [List.head?_append_of_ne_nil _ filled] at zero
      -- Only zero itself has a zero in front, and here there are more digits in front of the last.
      have front := ih (n / 10) (Nat.div_lt_self (by omega) (by decide)) zero
      have least : n / 10 = 0 := (front ▸ digits_decimal (n / 10)).unique (.one rfl)
      omega

theorem Digits.zeros_append {base value : Nat} {text : List Char} (digits : Digits base text value)
    (count : Nat) : Digits base (List.replicate count '0' ++ text) value := by
  induction count with
  | zero => exact digits
  | succ count ih => exact ih.zero_cons

theorem digits_hex (width n : Nat) : Digits 16 (hex width n) n :=
  (digits_toDigits (by decide) (by decide) n).zeros_append _

theorem length_hex {width n : Nat} (wide : 0 < width) (room : n < 16 ^ width) :
    (hex width n).length = width := by
  have fits := (Nat.length_toDigits_le_iff (by decide) wide).2 room
  rw [hex, List.length_append, List.length_replicate]
  exact Nat.sub_add_cancel fits

theorem isAlphanum_of_digitValue {base digit : Nat} {c : Char}
    (found : digitValue base c = some digit) : c.isAlphanum := by
  have listed := (Option.filter_eq_some_iff.1 found).1
  simp only [Char.isAlphanum, Char.isAlpha, Char.isUpper, Char.isLower, Char.isDigit,
    Bool.or_eq_true, Bool.and_eq_true, decide_eq_true_eq]
  simp only [Char.le_def, UInt32.le_iff_toNat_le, ge_iff_le] at listed ⊢
  grind

end WordMachine.Text
