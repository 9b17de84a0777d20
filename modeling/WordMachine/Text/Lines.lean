/-! The words of a line, with the blanks between them, and the lines of a text. A newline ends its line, so a
text that ends in one has no empty last line. -/

namespace WordMachine.Text

/-- First and last code point of every run of characters with the `White_Space` property. -/
def blankRuns : List (Nat × Nat) :=
  [(0x9, 0xD), (0x20, 0x20), (0x85, 0x85), (0xA0, 0xA0), (0x1680, 0x1680), (0x2000, 0x200A),
    (0x2028, 0x2029), (0x202F, 0x202F), (0x205F, 0x205F), (0x3000, 0x3000)]

def isBlank (c : Char) : Bool :=
  blankRuns.any fun run => decide (run.1 ≤ c.toNat) && decide (c.toNat ≤ run.2)

theorem isBlank_of_isWhitespace (c : Char) (white : c.isWhitespace) : isBlank c := by
  simp only [Char.isWhitespace, Bool.or_eq_true, decide_eq_true_eq] at white
  rcases white with ((rfl | rfl) | rfl) | rfl <;> decide

def trimStart (text : List Char) : List Char := text.dropWhile isBlank

def trimEnd (text : List Char) : List Char := (text.reverse.dropWhile isBlank).reverse

def trim (text : List Char) : List Char := trimEnd (trimStart text)

/-- The stretches between separators; one more than there are separators. -/
def pieces (separates : Char → Bool) (text : List Char) : List (List Char) :=
  text.foldr
    (fun c found =>
      if separates c then [] :: found
      else match found with
        | [] => [[c]]
        | piece :: more => (c :: piece) :: more)
    [[]]

theorem pieces_ne_nil (separates : Char → Bool) (text : List Char) :
    pieces separates text ≠ [] := by
  cases text with
  | nil => simp [pieces]
  | cons c rest =>
    simp only [pieces, List.foldr_cons]
    split
    · simp
    · split <;> simp

theorem pieces_append_separator (separates : Char → Bool) {c : Char} (separator : separates c)
    (first rest : List Char) :
    pieces separates (first ++ c :: rest) = pieces separates first ++ pieces separates rest := by
  induction first with
  | nil => simp [pieces, separator]
  | cons d more ih =>
    simp only [pieces, List.cons_append, List.foldr_cons] at ih ⊢
    rw [ih]
    by_cases separating : separates d
    · simp [separating]
    · simp only [separating]
      cases found : List.foldr _ _ more with
      | nil => exact absurd found (pieces_ne_nil separates more)
      | cons piece others => rfl

/-- The longest stretches without a blank, in order. -/
def words (text : List Char) : List (List Char) :=
  (pieces isBlank text).filter fun piece => !piece.isEmpty

theorem words_append_blank {c : Char} (blank : isBlank c) (first rest : List Char) :
    words (first ++ c :: rest) = words first ++ words rest := by
  rw [words, pieces_append_separator isBlank blank, List.filter_append]
  rfl

def lines (text : List Char) : List (List Char) :=
  text.foldr
    (fun c found =>
      if c = '\n' then [] :: found
      else match found with
        | [] => [[c]]
        | line :: more => (c :: line) :: more)
    []

def unlines (found : List (List Char)) : List Char :=
  found.flatMap fun line => line ++ ['\n']

def joinLines (found : List (List Char)) : List Char :=
  ['\n'].intercalate found

theorem lines_append_newline (line rest : List Char) (fresh : '\n' ∉ line) :
    lines (line ++ '\n' :: rest) = line :: lines rest := by
  induction line with
  | nil => rfl
  | cons c tail ih =>
    simp only [List.mem_cons, not_or] at fresh
    have step := ih fresh.2
    simp only [lines, List.cons_append, List.foldr_cons, Ne.symm fresh.1, ↓reduceIte] at step ⊢
    rw [step]

theorem lines_last (c : Char) (line : List Char) (fresh : '\n' ∉ c :: line) :
    lines (c :: line) = [c :: line] := by
  induction line generalizing c with
  | nil => simp_all [lines, Ne.symm]
  | cons d tail ih =>
    simp only [List.mem_cons, not_or] at fresh
    have step := ih d (by simpa using fresh.2)
    simp only [lines, List.foldr_cons, Ne.symm fresh.1, Ne.symm fresh.2.1, ↓reduceIte] at step ⊢
    rw [step]

theorem lines_single {line : List Char} (filled : line ≠ []) (fresh : '\n' ∉ line) : lines line = [line] := by
  obtain ⟨c, rest, rfl⟩ := List.exists_cons_of_ne_nil filled
  exact lines_last c rest fresh

theorem lines_cons_of_ne {c : Char} (other : c ≠ '\n') (rest : List Char) :
    lines (c :: rest) = match lines rest with
      | [] => [[c]]
      | line :: more => (c :: line) :: more := by
  rw [lines, List.foldr_cons, if_neg other]
  rfl

theorem newline_notMem_lines {text line : List Char} (member : line ∈ lines text) : '\n' ∉ line := by
  induction text generalizing line with
  | nil => cases member
  | cons c rest ih =>
    simp only [lines, List.foldr_cons] at ih member
    split at member
    · rcases List.mem_cons.1 member with rfl | later
      · exact List.not_mem_nil
      · exact ih later
    · next different =>
      split at member
      · obtain rfl := List.mem_singleton.1 member
        simpa using Ne.symm different
      · next first more found =>
        rw [found] at ih
        rcases List.mem_cons.1 member with rfl | later
        · intro broken
          rcases List.mem_cons.1 broken with same | inside
          · exact different same.symm
          · exact ih List.mem_cons_self inside
        · exact ih (List.mem_cons_of_mem first later)

theorem lines_unlines_append {found : List (List Char)} (whole : ∀ line ∈ found, '\n' ∉ line)
    (rest : List Char) : lines (unlines found ++ rest) = found ++ lines rest := by
  induction found with
  | nil => rfl
  | cons line more ih =>
    obtain ⟨first, others⟩ := List.forall_mem_cons.1 whole
    have step := lines_append_newline line (unlines more ++ rest) first
    rw [ih others] at step
    simpa [unlines] using step

theorem lines_joinLines (found : List (List Char)) (filled : ∀ line ∈ found, line ≠ [])
    (whole : ∀ line ∈ found, '\n' ∉ line) : lines (joinLines found) = found := by
  induction found with
  | nil => rfl
  | cons line more ih =>
    have rest := ih (fun other member => filled other (List.mem_cons_of_mem _ member))
      (fun other member => whole other (List.mem_cons_of_mem _ member))
    have fresh := whole line List.mem_cons_self
    cases more with
    | nil =>
      cases line with
      | nil => exact absurd rfl (filled [] List.mem_cons_self)
      | cons c tail => simpa [joinLines] using lines_last c tail fresh
    | cons next others =>
      have step := lines_append_newline line (joinLines (next :: others)) fresh
      rw [rest] at step
      simpa [joinLines] using step

end WordMachine.Text
