import WordMachine.Proofs.Text.Numeral

/-! Numbers in positional notation. What a reader takes for digits, one after the other, is what a text of
digits stands for as a whole, and a number is printed in such a text. -/

namespace WordMachine.Text

def smallDigits : List Char := "0123456789abcdef".toList

def capitalDigits : List Char := "0123456789ABCDEF".toList

/-- A digit of a base, of which a letter may be a capital, and its value. -/
def DigitOf (base : Nat) (c : Char) (value : Nat) : Prop :=
  value < base ∧ (smallDigits[value]? = some c ∨ capitalDigits[value]? = some c)

/-- One or more digits, the lowest of them last, and the number that they stand for. -/
def Positional (base : Nat) (text : List Char) (n : Nat) : Prop :=
  ∃ values, List.Forall₂ (DigitOf base) text.reverse values ∧ values ≠ [] ∧ Nat.ofDigits base values = n

theorem getElem?_of_run {table : List Char} {first count place : Nat}
    (run : ∀ d < count, table[d + place]? = some (Char.ofNat (first + d))) {c : Char}
    (from_first : first ≤ c.toNat) (inside : c.toNat < first + count) :
    table[c.toNat - first + place]? = some c := by
  have listed := run (c.toNat - first) (by omega)
  rwa [Nat.add_sub_cancel' from_first, Char.ofNat_toNat] at listed

theorem digitOf_of_digitValue {base value : Nat} {c : Char} (found : digitValue base c = some value) :
    DigitOf base c value := by
  refine ⟨digitValue_lt found, ?_⟩
  have numbers : ∀ d < 10, smallDigits[d + 0]? = some (Char.ofNat (48 + d)) := by decide
  have letters : ∀ d < 6, smallDigits[d + 10]? = some (Char.ofNat (97 + d)) := by decide
  have capitals : ∀ d < 6, capitalDigits[d + 10]? = some (Char.ofNat (65 + d)) := by decide
  have listed := (Option.filter_eq_some_iff.1 found).1
  simp only [Char.le_def, UInt32.le_iff_toNat_le, Char.toNat_val, Char.reduceToNat] at listed
  split_ifs at listed with number letter capital
  · rw [← Option.some.inj listed]
    exact .inl (getElem?_of_run numbers number.1 (by omega))
  · rw [← Option.some.inj listed]
    exact .inl (getElem?_of_run letters letter.1 (by omega))
  · rw [← Option.some.inj listed]
    exact .inr (getElem?_of_run capitals capital.1 (by omega))

theorem digitValue_of_listed {table : List Char} (sixteen : table.length = 16)
    (ordered : ∀ value < 16, table[value]?.bind (digitValue 16) = some value) {value : Nat} {c : Char}
    (listed : table[value]? = some c) : digitValue 16 c = some value := by
  obtain ⟨inside, -⟩ := List.getElem?_eq_some_iff.1 listed
  have found := ordered value (sixteen ▸ inside)
  rwa [listed, Option.bind_some] at found

theorem digitValue_of_digitOf {base value : Nat} {c : Char} (digit : DigitOf base c value) :
    digitValue base c = some value := by
  obtain ⟨below, small | capital⟩ := digit
  · exact digitValue_narrow below (digitValue_of_listed rfl (by decide) small)
  · exact digitValue_narrow below (digitValue_of_listed rfl (by decide) capital)

theorem ofDigits_cons_eq (base digit : Nat) (values : List Nat) :
    Nat.ofDigits base (digit :: values) = Nat.ofDigits base values * base + digit := by
  rw [Nat.ofDigits_cons, Nat.add_comm, Nat.mul_comm]

theorem Digits.positional {base n : Nat} {text : List Char} (digits : Digits base text n) :
    Positional base text n := by
  induction digits with
  | @one c digit last =>
    refine ⟨[digit], .cons (digitOf_of_digitValue last) .nil, List.cons_ne_nil _ _, ?_⟩
    exact Nat.ofDigits_singleton
  | @more text n digit c init last ih =>
    obtain ⟨values, each, -, rfl⟩ := ih
    refine ⟨digit :: values, ?_, List.cons_ne_nil _ _, ofDigits_cons_eq base digit values⟩
    rw [List.reverse_append]
    exact .cons (digitOf_of_digitValue last) each

theorem digits_of_forall₂ {base : Nat} {low : List Char} {values : List Nat}
    (each : List.Forall₂ (DigitOf base) low values) (filled : values ≠ []) :
    Digits base low.reverse (Nat.ofDigits base values) := by
  induction each with
  | nil => exact absurd rfl filled
  | @cons c digit low values first rest ih =>
    have last := digitValue_of_digitOf first
    -- The first of the values is that of the last digit, which the others make room for.
    rw [List.reverse_cons, ofDigits_cons_eq]
    by_cases only : values = []
    · subst only
      obtain rfl := List.forall₂_nil_right_iff.1 rest
      simpa using Digits.one last
    · exact (ih only).more last

theorem positional_iff {base n : Nat} {text : List Char} : Positional base text n ↔ Digits base text n := by
  constructor
  · rintro ⟨values, each, filled, rfl⟩
    simpa using digits_of_forall₂ each filled
  · exact Digits.positional

theorem mem_smallDigits_of_toDigits (n : Nat) : ∀ c ∈ Nat.toDigits 16 n, c ∈ smallDigits := by
  have every : ∀ digit < 16, Nat.digitChar digit ∈ smallDigits := by decide
  induction n using Nat.strongRecOn with
  | ind n ih =>
    intro c member
    rw [Nat.toDigits_eq_if (by decide)] at member
    split at member
    · next below =>
      rw [List.mem_singleton.1 member]
      exact every n below
    · next above =>
      rcases List.mem_append.1 member with front | last
      · exact ih (n / 16) (Nat.div_lt_self (by omega) (by decide)) c front
      · rw [List.mem_singleton.1 last]
        exact every (n % 16) (Nat.mod_lt n (by decide))

theorem mem_smallDigits_of_hex (width n : Nat) : ∀ c ∈ hex width n, c ∈ smallDigits := by
  intro c member
  rcases List.mem_append.1 member with zeros | digits
  · rw [List.eq_of_mem_replicate zeros]
    decide
  · exact mem_smallDigits_of_toDigits n c digits

end WordMachine.Text
