import Mathlib
import WordMachine.Text.Lines

/-! Words of a line: what is left of words that are written with single spaces between them, and
where a trimmed line begins. -/

namespace WordMachine.Text

structure Solid (word : List Char) : Prop where
  filled : word ≠ []
  unbroken : ∀ c ∈ word, isBlank c = false

theorem isBlank_of_isAlphanum {c : Char} (alphanum : c.isAlphanum) : isBlank c = false := by
  simp only [Char.isAlphanum, Char.isAlpha, Char.isUpper, Char.isLower, Char.isDigit,
    Bool.or_eq_true, Bool.and_eq_true, decide_eq_true_eq, ge_iff_le, UInt32.le_iff_toNat_le]
    at alphanum
  simp only [isBlank, blankRuns, List.any_cons, List.any_nil, Bool.or_false, Bool.or_eq_false_iff,
    Bool.and_eq_false_iff, decide_eq_false_iff_not, Char.toNat]
  grind

theorem Solid.of_isAlphanum {word : List Char} (filled : word ≠ [])
    (alphanum : ∀ c ∈ word, c.isAlphanum) : Solid word :=
  ⟨filled, fun c member => isBlank_of_isAlphanum (alphanum c member)⟩

theorem pieces_of_forall_not {separates : Char → Bool} {text : List Char}
    (whole : ∀ c ∈ text, separates c = false) : pieces separates text = [text] := by
  induction text with
  | nil => rfl
  | cons c rest ih =>
    have inner := ih fun d member => whole d (List.mem_cons_of_mem c member)
    simp only [pieces, List.foldr_cons] at inner ⊢
    simp [inner, whole c List.mem_cons_self]

theorem words_nil : words [] = [] := rfl

theorem words_of_solid {word : List Char} (solid : Solid word) : words word = [word] := by
  rw [words, pieces_of_forall_not solid.unbroken]
  simp [solid.filled]

theorem words_intercalate {found : List (List Char)} (solid : ∀ word ∈ found, Solid word) :
    words ([' '].intercalate found) = found := by
  induction found with
  | nil => rfl
  | cons word more ih =>
    have first := words_of_solid (solid word List.mem_cons_self)
    have rest := ih fun other member => solid other (List.mem_cons_of_mem word member)
    cases more with
    | nil => simpa using first
    | cons next others =>
      rw [List.intercalate_cons_cons, List.append_assoc, List.singleton_append,
        words_append_blank (by decide), first, rest]
      rfl

theorem words_cons {c : Char} (solid : isBlank c = false) (rest : List Char) :
    ∃ tail more, words (c :: rest) = (c :: tail) :: more := by
  have opened : ∃ piece more, pieces isBlank (c :: rest) = (c :: piece) :: more := by
    simp only [pieces, List.foldr_cons, solid, Bool.false_eq_true, ↓reduceIte]
    split
    · exact ⟨[], [], rfl⟩
    · exact ⟨_, _, rfl⟩
  obtain ⟨piece, more, shape⟩ := opened
  exact ⟨piece, more.filter fun piece => !piece.isEmpty, by rw [words, shape]; rfl⟩

theorem words_cons_ne_nil {c : Char} (solid : isBlank c = false) (rest : List Char) :
    words (c :: rest) ≠ [] := by
  obtain ⟨tail, more, shape⟩ := words_cons solid rest
  simp [shape]

theorem exists_mem_pieces {separates : Char → Bool} {text : List Char} {c : Char}
    (member : c ∈ text) (kept : separates c = false) :
    ∃ piece ∈ pieces separates text, c ∈ piece := by
  induction text with
  | nil => cases member
  | cons d rest ih =>
    simp only [pieces, List.foldr_cons] at ih ⊢
    split
    · next separator =>
      have later : c ∈ rest := by
        rcases List.mem_cons.1 member with rfl | later
        · exact absurd separator (Bool.eq_false_iff.1 kept)
        · exact later
      obtain ⟨piece, listed, inside⟩ := ih later
      exact ⟨piece, List.mem_cons_of_mem [] listed, inside⟩
    · cases found : List.foldr _ _ rest with
      | nil => exact absurd found (pieces_ne_nil separates rest)
      | cons first more =>
        rcases List.mem_cons.1 member with rfl | later
        · exact ⟨c :: first, List.mem_cons_self, List.mem_cons_self⟩
        · rw [found] at ih
          obtain ⟨piece, listed, inside⟩ := ih later
          rcases List.mem_cons.1 listed with rfl | other
          · exact ⟨d :: piece, List.mem_cons_self, List.mem_cons_of_mem d inside⟩
          · exact ⟨piece, List.mem_cons_of_mem _ other, inside⟩

theorem words_ne_nil_of_mem {text : List Char} {c : Char} (member : c ∈ text)
    (solid : isBlank c = false) : words text ≠ [] := by
  obtain ⟨piece, listed, inside⟩ := exists_mem_pieces member solid
  have filled : !piece.isEmpty := by
    cases piece with
    | nil => cases inside
    | cons => rfl
  exact List.ne_nil_of_mem (List.mem_filter.2 ⟨listed, filled⟩)

theorem trim_eq_self {text : List Char} (front : ∀ c ∈ text.head?, isBlank c = false)
    (back : ∀ c ∈ text.getLast?, isBlank c = false) : trim text = text := by
  have start : trimStart text = text := by
    cases text with
    | nil => rfl
    | cons c rest => exact List.dropWhile_cons_of_neg (by simpa using front)
  rw [trim, start]
  apply List.rdropWhile_eq_self_iff.2
  intro filled
  simpa using back _ (List.getLast?_eq_some_getLast filled)

theorem isBlank_head_trim {text rest : List Char} {c : Char} (trimmed : trim text = c :: rest) :
    isBlank c = false := by
  have kept : trim text <+: trimStart text := List.rdropWhile_prefix isBlank _
  rw [trimmed] at kept
  obtain ⟨more, shape⟩ := kept
  have first := List.head?_dropWhile_not isBlank text
  rw [show text.dropWhile isBlank = c :: (rest ++ more) from shape.symm] at first
  simpa using first

theorem isBlank_last_trim {text : List Char} : ∀ c ∈ (trim text).getLast?, isBlank c = false := by
  intro c last
  have filled : (trimStart text).rdropWhile isBlank ≠ [] := by
    intro empty
    rw [show trim text = [] from empty] at last
    cases last
  have kept := List.rdropWhile_last_not isBlank (trimStart text) filled
  have same : (trim text).getLast? = some (((trimStart text).rdropWhile isBlank).getLast filled) :=
    List.getLast?_eq_some_getLast filled
  obtain rfl := Option.some.inj (same.symm.trans last)
  simpa using kept

structure Trimmed (text : List Char) : Prop where
  filled : text ≠ []
  front : ∀ c ∈ text.head?, isBlank c = false
  back : ∀ c ∈ text.getLast?, isBlank c = false

theorem trimmed_trim {text : List Char} (filled : trim text ≠ []) : Trimmed (trim text) where
  filled := filled
  front := by
    intro c first
    obtain ⟨rest, shape⟩ := List.head?_eq_some_iff.1 first
    exact isBlank_head_trim shape
  back := isBlank_last_trim

theorem Trimmed.append {text : List Char} (trimmed : Trimmed text) {c : Char}
    (solid : isBlank c = false) (rest : List Char) : Trimmed (c :: rest ++ text) where
  filled := List.cons_ne_nil c (rest ++ text)
  front := by simpa using solid
  back := by
    rw [List.getLast?_append_of_ne_nil _ trimmed.filled]
    exact trimmed.back

/-- A trimmed text is a single word just if there is no blank in it. -/
theorem Trimmed.words_eq_singleton_iff {text word : List Char} (trimmed : Trimmed text) :
    words text = [word] ↔ word = text ∧ ∀ c ∈ text, isBlank c = false := by
  constructor
  · intro single
    have unbroken : ∀ c ∈ text, isBlank c = false := by
      intro c member
      by_contra blank
      obtain ⟨before, after, rfl⟩ := List.append_of_mem member
      have parted := words_append_blank (by simpa using blank) before after
      have ahead : words before ≠ [] := by
        cases before with
        | nil => exact absurd (trimmed.front c rfl) blank
        | cons d more => exact words_cons_ne_nil (trimmed.front d rfl) more
      have behind : words after ≠ [] := by
        cases ended : after.getLast? with
        | none =>
          obtain rfl := List.getLast?_eq_none_iff.1 ended
          exact absurd (trimmed.back c (by simp)) blank
        | some d =>
          have last : d ∈ (before ++ c :: after).getLast? := by
            rw [List.getLast?_append_cons, List.getLast?_cons, ended]
            rfl
          exact words_ne_nil_of_mem (List.mem_of_getLast? ended) (trimmed.back d last)
      have counted := congrArg List.length (parted.symm.trans single)
      rw [List.length_append, List.length_singleton] at counted
      have first := List.length_pos_of_ne_nil ahead
      have second := List.length_pos_of_ne_nil behind
      omega
    have whole := words_of_solid ⟨trimmed.filled, unbroken⟩
    exact ⟨(List.cons.inj (single.symm.trans whole)).1, unbroken⟩
  · intro solid
    obtain ⟨rfl, unbroken⟩ := solid
    exact words_of_solid ⟨trimmed.filled, unbroken⟩

theorem trim_of_forall_not {text : List Char} (unbroken : ∀ c ∈ text, isBlank c = false) :
    trim text = text :=
  trim_eq_self (fun c first => unbroken c (List.mem_of_mem_head? first))
    fun c last => unbroken c (List.mem_of_getLast? last)

theorem trim_sublist (text : List Char) : (trim text).Sublist text := by
  have ended : (trim text).Sublist (trimStart text) := (List.rdropWhile_prefix isBlank _).sublist
  exact ended.trans (List.dropWhile_sublist isBlank)

theorem mem_intercalate {separator : List Char} {found : List (List Char)} {c : Char}
    (member : c ∈ separator.intercalate found) : c ∈ separator ∨ ∃ word ∈ found, c ∈ word := by
  induction found with
  | nil => simp at member
  | cons word more ih =>
    cases more with
    | nil =>
      rw [List.intercalate_singleton] at member
      exact .inr ⟨word, List.mem_cons_self, member⟩
    | cons next others =>
      rw [List.intercalate_cons_cons, List.mem_append, List.mem_append] at member
      rcases member with (inside | between) | later
      · exact .inr ⟨word, List.mem_cons_self, inside⟩
      · exact .inl between
      · exact (ih later).imp_right fun ⟨other, listed, inside⟩ =>
          ⟨other, List.mem_cons_of_mem word listed, inside⟩

theorem head_intercalate {found : List (List Char)} (solid : ∀ word ∈ found, Solid word) :
    ∀ c ∈ ([' '].intercalate found).head?, isBlank c = false := by
  cases found with
  | nil => simp
  | cons word more =>
    obtain ⟨filled, unbroken⟩ := solid word List.mem_cons_self
    obtain ⟨c, tail, rfl⟩ := List.exists_cons_of_ne_nil filled
    have plain := unbroken c List.mem_cons_self
    cases more <;> simpa [List.intercalate_cons_cons] using plain

theorem last_intercalate {found : List (List Char)} (solid : ∀ word ∈ found, Solid word) :
    ∀ c ∈ ([' '].intercalate found).getLast?, isBlank c = false := by
  induction found with
  | nil => simp
  | cons word more ih =>
    have rest := ih fun other member => solid other (List.mem_cons_of_mem word member)
    cases more with
    | nil =>
      intro c final
      rw [List.intercalate_singleton] at final
      exact (solid word List.mem_cons_self).unbroken c (List.mem_of_getLast? final)
    | cons next others =>
      have filled : [' '].intercalate (next :: others) ≠ [] := by
        obtain ⟨nonempty, -⟩ := solid next (by simp)
        cases others <;> simp [List.intercalate_cons_cons, nonempty]
      intro c final
      rw [List.intercalate_cons_cons, List.getLast?_append_of_ne_nil _ filled] at final
      exact rest c final

theorem trim_intercalate {found : List (List Char)} (solid : ∀ word ∈ found, Solid word) :
    trim ([' '].intercalate found) = [' '].intercalate found :=
  trim_eq_self (head_intercalate solid) (last_intercalate solid)

section Blanks

variable {blanks : List Char} (blank : ∀ c ∈ blanks, isBlank c)

include blank

theorem trim_blanks_append (text : List Char) : trim (blanks ++ text) = trim text := by
  rw [trim, trim, trimStart, List.dropWhile_append_of_pos blank]
  rfl

theorem trimEnd_append_blanks (text : List Char) : trimEnd (text ++ blanks) = trimEnd text := by
  rw [trimEnd, trimEnd, List.reverse_append,
    List.dropWhile_append_of_pos fun c member => blank c (List.mem_reverse.1 member)]

theorem trim_append_blanks (text : List Char) : trim (text ++ blanks) = trim text := by
  rw [trim, trim, trimStart, List.dropWhile_append]
  split
  · next empty =>
    have all : blanks.dropWhile isBlank = [] := List.dropWhile_eq_nil_iff.2 blank
    rw [all, trimStart, List.isEmpty_iff.1 empty]
  · exact trimEnd_append_blanks blank _

theorem words_blanks_append (text : List Char) : words (blanks ++ text) = words text := by
  induction blanks with
  | nil => rfl
  | cons c rest ih =>
    obtain ⟨first, others⟩ := List.forall_mem_cons.1 blank
    have step := words_append_blank first [] (rest ++ text)
    rw [ih others] at step
    exact step

theorem words_append_blanks (filled : blanks ≠ []) (first rest : List Char) :
    words (first ++ (blanks ++ rest)) = words first ++ words rest := by
  obtain ⟨c, more, rfl⟩ := List.exists_cons_of_ne_nil filled
  obtain ⟨here, others⟩ := List.forall_mem_cons.1 blank
  rw [List.cons_append, words_append_blank here, words_blanks_append others]

end Blanks

/-- Behind a blank the words begin anew. -/
theorem words_append {first : List Char} (parted : ∀ c ∈ first.getLast?, isBlank c) (rest : List Char) :
    words (first ++ rest) = words first ++ words rest := by
  rcases List.eq_nil_or_concat first with rfl | ⟨before, c, rfl⟩
  · rfl
  · have blank : isBlank c := parted c (by simp)
    have whole := words_append_blank blank before []
    rw [words_nil, List.append_nil] at whole
    rw [List.concat_eq_append, List.append_assoc, List.singleton_append, words_append_blank blank, whole]

theorem words_trimEnd (text : List Char) : words (trimEnd text) = words text := by
  have parted : trimEnd text ++ (text.reverse.takeWhile isBlank).reverse = text := by
    rw [trimEnd, ← List.reverse_append, List.takeWhile_append_dropWhile, List.reverse_reverse]
  have blank : ∀ c ∈ (text.reverse.takeWhile isBlank).reverse, isBlank c :=
    fun c member => List.mem_takeWhile_imp (List.mem_reverse.1 member)
  by_cases ended : (text.reverse.takeWhile isBlank).reverse = []
  · rw [ended, List.append_nil] at parted
    rw [parted]
  · have whole := words_append_blanks blank ended (trimEnd text) []
    rw [List.append_nil, parted, words_nil, List.append_nil] at whole
    exact whole.symm

theorem words_trim (text : List Char) : words (trim text) = words text := by
  have blank : ∀ c ∈ text.takeWhile isBlank, isBlank c := fun c member => List.mem_takeWhile_imp member
  calc words (trim text)
    _ = words (trimStart text) := words_trimEnd _
    _ = words (text.takeWhile isBlank ++ trimStart text) := (words_blanks_append blank _).symm
    _ = words text := by rw [trimStart, List.takeWhile_append_dropWhile]

theorem words_solid_append {word rest : List Char} (solid : Solid word)
    (ended : ∀ c ∈ rest.head?, isBlank c) : words (word ++ rest) = word :: words rest := by
  cases rest with
  | nil => rw [List.append_nil, words_of_solid solid, words_nil]
  | cons c more =>
    have blank : isBlank c := ended c rfl
    have behind := words_append_blank blank [] more
    rw [words_append_blank blank, words_of_solid solid, List.singleton_append]
    exact congrArg (word :: ·) behind.symm

end WordMachine.Text
