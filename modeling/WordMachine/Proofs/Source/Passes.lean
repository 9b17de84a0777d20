import Mathlib.Data.List.Induction
import WordMachine.Source.Assembly

/-! The two passes over the lines of a source. Each either gets through all lines or stops at the
first line that is wrong, and says what is wrong with it. -/

namespace WordMachine

theorem slot_eq (index : Nat) : slot index = UInt32.ofNat (4 * index) := by
  rw [slot, Nat.mul_comm, UInt32.ofNat_mul]
  rfl

theorem aligned_ofNat_line (line : Nat) : Aligned (UInt32.ofNat (4 * line)) := by
  have whole : 4 * line % 2 ^ 32 % 4 = 0 := by omega
  exact whole

def lineSpace : Nat := 0x400000

theorem ofNat_succ_line (line : Nat) :
    UInt32.ofNat (4 * (line + 1)) = nextWord (UInt32.ofNat (4 * line)) := by
  rw [Nat.mul_succ, UInt32.ofNat_add]
  rfl

theorem toNat_ofNat_line {line : Nat} (low : line ≤ lineSpace) :
    (UInt32.ofNat (4 * line)).toNat = 4 * line := by
  unfold lineSpace at low
  exact Nat.mod_eq_of_lt (by omega)

/-- The fault of the first line with anything wrong, the first line being number 1. -/
def FirstFault (wrong : Nat → Cause → Prop) (fault : Fault) : Prop :=
  ∃ index, fault.line = index + 1 ∧ wrong index fault.cause ∧
    ∀ earlier < index, ∀ cause, ¬wrong earlier cause

theorem FirstFault.congr {wrong amiss : Nat → Cause → Prop} {fault : Fault}
    (first : FirstFault wrong fault) (size : Nat) (same : ∀ i < size, ∀ c, wrong i c ↔ amiss i c)
    (inside : ∀ i c, wrong i c → i < size) : FirstFault amiss fault := by
  obtain ⟨index, line, here, before⟩ := first
  have below := inside index _ here
  refine ⟨index, line, (same index below _).1 here, ?_⟩
  intro earlier less cause there
  exact before earlier less cause ((same earlier (Nat.lt_trans less below) cause).2 there)

theorem FirstFault.unique {wrong : Nat → Cause → Prop} {fault other : Fault}
    (functional : ∀ i c d, wrong i c → wrong i d → c = d) (first : FirstFault wrong fault)
    (second : FirstFault wrong other) : fault = other := by
  obtain ⟨i, line, here, before⟩ := first
  obtain ⟨j, otherLine, there, earlier⟩ := second
  have noLess : ¬i < j := fun less => earlier i less _ here
  have noMore : ¬j < i := fun more => before j more _ there
  obtain rfl : i = j := by omega
  cases fault
  cases other
  simp_all only [Fault.mk.injEq, true_and]
  exact functional i _ _ here there

/-- A declaration that cannot stand: it has no name, or an earlier line declared the name. -/
def Misdeclared (lines : List Line) (index : Nat) (cause : Cause) : Prop :=
  ∃ name, lines[index]? = some (.label name) ∧
    (name = [] ∧ cause = .emptyLabel ∨
      name ≠ [] ∧ cause = .duplicateLabel name ∧
        ∃ earlier < index, lines[earlier]? = some (.label name))

theorem Misdeclared.lt_length {lines : List Line} {index : Nat} {cause : Cause}
    (wrong : Misdeclared lines index cause) : index < lines.length := by
  obtain ⟨name, found, -⟩ := wrong
  exact (List.getElem?_eq_some_iff.1 found).1

theorem Misdeclared.unique {lines : List Line} {index : Nat} {cause other : Cause}
    (wrong : Misdeclared lines index cause) (again : Misdeclared lines index other) :
    cause = other := by
  obtain ⟨name, here, reason⟩ := wrong
  obtain ⟨same, there, otherReason⟩ := again
  rw [here, Option.some.injEq, Line.label.injEq] at there
  subst there
  rcases reason with ⟨empty, rfl⟩ | ⟨filled, rfl, -⟩
  · rcases otherReason with ⟨-, rfl⟩ | ⟨filled, -⟩
    · rfl
    · exact absurd empty filled
  · rcases otherReason with ⟨empty, -⟩ | ⟨-, rfl, -⟩
    · exact absurd empty filled
    · rfl

theorem misdeclared_append_iff (lines rest : List Line) {index : Nat} (inside : index < lines.length)
    (cause : Cause) : Misdeclared (lines ++ rest) index cause ↔ Misdeclared lines index cause := by
  have same : ∀ i ≤ index, (lines ++ rest)[i]? = lines[i]? := fun i below =>
    List.getElem?_append_left (Nat.lt_of_le_of_lt below inside)
  have earlier : ∀ name, (∃ i < index, (lines ++ rest)[i]? = some (.label name)) ↔
      ∃ i < index, lines[i]? = some (.label name) := by
    intro name
    apply exists_congr
    intro i
    apply and_congr_right
    intro less
    rw [same i (Nat.le_of_lt less)]
  simp only [Misdeclared, same index (Nat.le_refl index), earlier]

theorem FirstFault.misdeclared_append {lines : List Line} {fault : Fault}
    (first : FirstFault (Misdeclared lines) fault) (rest : List Line) :
    FirstFault (Misdeclared (lines ++ rest)) fault :=
  first.congr lines.length (fun _ inside cause => (misdeclared_append_iff lines rest inside cause).symm)
    fun _ _ wrong => wrong.lt_length

def Line.name? : Line → Option (List Char)
  | .label name => some name
  | .blank | .statement _ => none

theorem Line.name?_eq_some_iff {line : Line} {name : List Char} :
    line.name? = some name ↔ line = .label name := by
  cases line <;> simp [name?]

def Line.ofName? : Option (List Char) → Line
  | some name => .label name
  | none => .blank

namespace Symbols

theorem ofLines_concat (lines : List Line) (line : Line) :
    ofLines (lines ++ [line]) = (ofLines lines).bind fun symbols =>
      (symbols.addLine lines.length line).mapError (Fault.mk (lines.length + 1)) := by
  simp only [ofLines, List.zipIdx_append, List.foldlM_append, List.zipIdx_cons, List.zipIdx_nil,
    List.foldlM_cons, List.foldlM_nil, Nat.zero_add]
  change Except.bind _ _ = _
  congr 1
  funext symbols
  cases symbols.addLine lines.length line <;> rfl

theorem offset?_declare (symbols : Symbols) (name other : List Char) (offset : UInt32) :
    (symbols.declare name offset).offset? other =
      (symbols.offset? other).or (if other = name then some offset else none) := by
  simp only [offset?, declare, List.lookup_append, List.lookup_cons, List.lookup_nil]
  congr 1
  by_cases same : other = name
  · simp [same]
  · simp [same, beq_eq_false_iff_ne.2 same]

def lineOf? (lines : List Line) (name : List Char) : Option Nat :=
  lines.findIdx? fun line => line = .label name

theorem lineOf?_concat (lines : List Line) (line : Line) (name : List Char) :
    lineOf? (lines ++ [line]) name =
      (lineOf? lines name).or (if line = .label name then some lines.length else none) := by
  by_cases declares : line = .label name
  · simp [lineOf?, List.findIdx?_append, List.findIdx?_cons, declares]
  · simp [lineOf?, List.findIdx?_append, List.findIdx?_cons, declares]

theorem lineOf?_isSome_iff {lines : List Line} {name : List Char} :
    (lineOf? lines name).isSome ↔ ∃ index < lines.length, lines[index]? = some (.label name) := by
  simp only [lineOf?, List.findIdx?_isSome, List.any_eq_true, decide_eq_true_eq, exists_eq_right]
  rw [List.mem_iff_getElem?]
  constructor
  · intro listed
    obtain ⟨index, found⟩ := listed
    exact ⟨index, (List.getElem?_eq_some_iff.1 found).1, found⟩
  · intro listed
    obtain ⟨index, -, found⟩ := listed
    exact ⟨index, found⟩

theorem lineOf?_lt {lines : List Line} {name : List Char} {index : Nat}
    (declares : lineOf? lines name = some index) : index < lines.length :=
  (List.findIdx?_eq_some_iff_getElem.1 declares).1

theorem misdeclared_last_iff {lines : List Line} {line : Line} {cause : Cause} :
    Misdeclared (lines ++ [line]) lines.length cause ↔
      line = .label [] ∧ cause = .emptyLabel ∨ ∃ name, name ≠ [] ∧ line = .label name ∧
        cause = .duplicateLabel name ∧ (lineOf? lines name).isSome := by
  have last : (lines ++ [line])[lines.length]? = some line := by simp
  have earlier : ∀ name, (∃ i < lines.length, (lines ++ [line])[i]? = some (.label name)) ↔
      (lineOf? lines name).isSome := by
    intro name
    rw [lineOf?_isSome_iff]
    apply exists_congr
    intro i
    apply and_congr_right
    intro less
    rw [List.getElem?_append_left less]
  simp only [Misdeclared, last, earlier, Option.some.injEq]
  constructor
  · intro wrong
    rcases wrong with ⟨name, rfl, ⟨rfl, rfl⟩ | ⟨filled, rfl, known⟩⟩
    · exact .inl ⟨rfl, rfl⟩
    · exact .inr ⟨name, filled, rfl, rfl, known⟩
  · intro wrong
    rcases wrong with ⟨rfl, rfl⟩ | ⟨name, filled, rfl, rfl, known⟩
    · exact ⟨[], rfl, .inl ⟨rfl, rfl⟩⟩
    · exact ⟨name, rfl, .inr ⟨filled, rfl, known⟩⟩

theorem addLine_label (symbols : Symbols) (index : Nat) (name : List Char) :
    symbols.addLine index (.label name) =
      if name = [] then .error .emptyLabel
      else if (symbols.offset? name).isSome then .error (.duplicateLabel name)
      else .ok (symbols.declare name (slot index)) := by
  cases name <;> rfl

theorem addLine_eq_error_iff {symbols : Symbols} {index : Nat} {line : Line} {cause : Cause} :
    symbols.addLine index line = .error cause ↔
      line = .label [] ∧ cause = .emptyLabel ∨ ∃ name, name ≠ [] ∧ line = .label name ∧
        cause = .duplicateLabel name ∧ (symbols.offset? name).isSome := by
  cases line with
  | blank | statement tokens => simp [addLine]
  | label name =>
    rw [addLine_label]
    by_cases empty : name = []
    · simp [empty, eq_comm (a := cause)]
    · by_cases known : (symbols.offset? name).isSome
      · simp [empty, known, eq_comm (a := cause)]
      · simp [empty, known]

theorem offset?_addLine {symbols after : Symbols} {index : Nat} {line : Line}
    (added : symbols.addLine index line = .ok after) (name : List Char) :
    after.offset? name =
      (symbols.offset? name).or (if line = .label name then some (slot index) else none) := by
  cases line with
  | blank | statement tokens =>
    obtain rfl := Except.ok.inj added
    simp
  | label own =>
    rw [addLine_label] at added
    split at added
    · cases added
    · split at added
      · cases added
      · obtain rfl := Except.ok.inj added
        rw [offset?_declare]
        simp only [Line.label.injEq, eq_comm]

/-- The first pass: a table of all declarations if all of them can stand. -/
theorem ofLines_cases (lines : List Line) :
    (∃ symbols, ofLines lines = .ok symbols ∧ (∀ index cause, ¬Misdeclared lines index cause) ∧
      ∀ name, symbols.offset? name = (lineOf? lines name).map slot) ∨
    ∃ fault, ofLines lines = .error fault ∧ FirstFault (Misdeclared lines) fault := by
  induction lines using List.reverseRecOn with
  | nil =>
    refine .inl ⟨empty, rfl, ?_, fun name => rfl⟩
    intro index cause wrong
    obtain ⟨name, found, -⟩ := wrong
    simp at found
  | append_singleton lines line ih =>
    rw [ofLines_concat]
    obtain ⟨symbols, collected, stands, table⟩ | ⟨fault, collected, first⟩ := ih
    · rw [collected, Except.bind]
      have before : ∀ earlier < lines.length, ∀ cause,
          ¬Misdeclared (lines ++ [line]) earlier cause := by
        intro earlier inside cause wrong
        exact stands earlier cause ((misdeclared_append_iff lines [line] inside cause).1 wrong)
      have last : ∀ cause, symbols.addLine lines.length line = .error cause ↔
          Misdeclared (lines ++ [line]) lines.length cause := by
        intro cause
        simp only [addLine_eq_error_iff, misdeclared_last_iff, table, Option.isSome_map]
      cases added : symbols.addLine lines.length line with
      | error cause =>
        exact .inr ⟨⟨lines.length + 1, cause⟩, rfl, lines.length, rfl, (last cause).1 added, before⟩
      | ok after =>
        refine .inl ⟨after, rfl, ?_, ?_⟩
        · intro index cause wrong
          have inside := wrong.lt_length
          rw [List.length_append, List.length_singleton] at inside
          rcases Nat.lt_succ_iff_lt_or_eq.1 inside with less | rfl
          · exact before index less cause wrong
          · simp [(last cause).2 wrong] at added
        · intro name
          rw [offset?_addLine added, table, lineOf?_concat]
          split <;> cases lineOf? lines name <;> rfl
    · exact .inr ⟨fault, by rw [collected]; rfl, first.misdeclared_append [line]⟩

theorem lineOf?_eq_some_iff {lines : List Line} (stands : ∀ index cause, ¬Misdeclared lines index cause)
    {name : List Char} {index : Nat} :
    lineOf? lines name = some index ↔ lines[index]? = some (.label name) := by
  rw [lineOf?, List.findIdx?_eq_some_iff_getElem]
  constructor
  · intro declares
    obtain ⟨inside, found, -⟩ := declares
    rw [List.getElem?_eq_getElem inside, of_decide_eq_true found]
  · intro found
    obtain ⟨inside, here⟩ := List.getElem?_eq_some_iff.1 found
    refine ⟨inside, decide_eq_true here, ?_⟩
    intro earlier less again
    have before : lines[earlier]? = some (.label name) := by
      rw [List.getElem?_eq_getElem (Nat.lt_trans less inside), of_decide_eq_true again]
    by_cases empty : name = []
    · exact stands index _ ⟨name, found, .inl ⟨empty, rfl⟩⟩
    · exact stands index _ ⟨name, found, .inr ⟨empty, rfl, earlier, less, before⟩⟩

theorem ofLines_of_unlabelled {lines : List Line}
    (unlabelled : ∀ line ∈ lines, ∀ name, line ≠ .label name) : ofLines lines = .ok empty := by
  induction lines using List.reverseRecOn with
  | nil => rfl
  | append_singleton lines line ih =>
    have last := unlabelled line (by simp)
    rw [ofLines_concat, ih fun other member => unlabelled other (List.mem_append_left _ member)]
    cases line with
    | blank | statement tokens => rfl
    | label name => exact absurd rfl (last name)

theorem ofLines_names (lines : List Line) :
    ofLines ((lines.map Line.name?).map Line.ofName?) = ofLines lines := by
  induction lines using List.reverseRecOn with
  | nil => rfl
  | append_singleton lines line ih =>
    have last (symbols : Symbols) (index : Nat) :
        symbols.addLine index (.ofName? line.name?) = symbols.addLine index line := by
      cases line <;> rfl
    simp only [List.map_append, List.map_cons, List.map_nil]
    rw [ofLines_concat, ofLines_concat, ih, List.length_map, List.length_map]
    congr 1
    funext symbols
    rw [last]

theorem ofLines_congr {lines others : List Line}
    (same : lines.map Line.name? = others.map Line.name?) : ofLines lines = ofLines others := by
  rw [← ofLines_names lines, same, ofLines_names]

/-- Every entry is the one that is found under its name. -/
def Findable (symbols : Symbols) : Prop :=
  ∀ entry ∈ symbols.declared, symbols.offset? entry.1 = some entry.2

theorem Findable.addLine {symbols after : Symbols} (findable : symbols.Findable) {index : Nat}
    {line : Line} (added : symbols.addLine index line = .ok after) : after.Findable := by
  cases line with
  | blank | statement tokens =>
    obtain rfl := Except.ok.inj added
    exact findable
  | label name =>
    rw [addLine_label] at added
    split at added
    · cases added
    · split at added
      · cases added
      · next fresh =>
        obtain rfl := Except.ok.inj added
        intro entry member
        rw [offset?_declare]
        rcases List.mem_append.1 member with earlier | last
        · rw [findable entry earlier, Option.some_or]
        · obtain rfl := List.mem_singleton.1 last
          rw [Option.not_isSome_iff_eq_none.1 fresh, if_pos rfl, Option.none_or]

theorem ofLines_induction {kept : Symbols → Prop} (start : kept empty)
    (step : ∀ {symbols after : Symbols} {index : Nat} {line : Line}, kept symbols →
      symbols.addLine index line = .ok after → kept after)
    {lines : List Line} {symbols : Symbols} (collected : ofLines lines = .ok symbols) :
    kept symbols := by
  induction lines using List.reverseRecOn generalizing symbols with
  | nil =>
    obtain rfl := Except.ok.inj collected
    exact start
  | append_singleton lines line ih =>
    rw [ofLines_concat] at collected
    cases before : ofLines lines with
    | error fault => simp [before, Except.bind] at collected
    | ok earlier =>
      rw [before, Except.bind] at collected
      cases added : earlier.addLine lines.length line with
      | error cause => simp [added, Except.mapError] at collected
      | ok after =>
        rw [added] at collected
        obtain rfl := Except.ok.inj collected
        exact step (ih before) added

theorem findable_of_ofLines {lines : List Line} {symbols : Symbols}
    (collected : ofLines lines = .ok symbols) : symbols.Findable :=
  ofLines_induction (fun _ member => absurd member List.not_mem_nil)
    (fun findable added => findable.addLine added) collected

theorem nodup_addLine {symbols after : Symbols} {index : Nat} {line : Line}
    (distinct : (symbols.declared.map Prod.fst).Nodup)
    (added : symbols.addLine index line = .ok after) : (after.declared.map Prod.fst).Nodup := by
  cases line with
  | blank | statement tokens =>
    obtain rfl := Except.ok.inj added
    exact distinct
  | label name =>
    rw [addLine_label] at added
    split at added
    · cases added
    · split at added
      · cases added
      · next fresh =>
        obtain rfl := Except.ok.inj added
        rw [Option.not_isSome_iff_eq_none, offset?, List.lookup_eq_none_iff] at fresh
        have unlisted : ∀ other ∈ symbols.declared.map Prod.fst, ∀ last ∈ [name], other ≠ last := by
          intro other member last single same
          obtain rfl := List.mem_singleton.1 single
          obtain ⟨entry, listed, rfl⟩ := List.mem_map.1 member
          exact absurd (fresh entry listed) (by simp [same])
        rw [declare, List.map_append, List.map_singleton]
        exact List.nodup_append.2 ⟨distinct, List.pairwise_singleton _ _, unlisted⟩

theorem nodup_of_ofLines {lines : List Line} {symbols : Symbols}
    (collected : ofLines lines = .ok symbols) : (symbols.declared.map Prod.fst).Nodup :=
  ofLines_induction List.nodup_nil nodup_addLine collected

end Symbols

def Unwritable (symbols : Symbols) (lines : List Line) (index : Nat) (cause : Cause) : Prop :=
  ∃ line, lines[index]? = some line ∧ line.word symbols = .error cause

theorem Unwritable.unique {symbols : Symbols} {lines : List Line} {index : Nat}
    {cause other : Cause} (wrong : Unwritable symbols lines index cause)
    (again : Unwritable symbols lines index other) : cause = other := by
  obtain ⟨line, here, refused⟩ := wrong
  obtain ⟨same, there, reason⟩ := again
  rw [here, Option.some.injEq] at there
  subst there
  exact Except.error.inj (refused.symm.trans reason)

theorem not_unwritable_of_words {symbols : Symbols} {lines : List Line} {words : List Word}
    (written : lines.map (Line.word symbols) = words.map .ok) (index : Nat) (cause : Cause) :
    ¬Unwritable symbols lines index cause := by
  intro wrong
  obtain ⟨line, here, wrong⟩ := wrong
  have entry : (lines.map (Line.word symbols))[index]? = some (.error cause) := by
    rw [List.getElem?_map, here, Option.map_some, wrong]
  rw [written, List.getElem?_map, Option.map_eq_some_iff] at entry
  obtain ⟨word, -, clash⟩ := entry
  cases clash

theorem encodeLines_concat (symbols : Symbols) (lines : List Line) (line : Line) :
    encodeLines symbols (lines ++ [line]) = (encodeLines symbols lines).bind fun words =>
      ((line.word symbols).mapError (Fault.mk (lines.length + 1))).map fun word =>
        words ++ [word] := by
  simp only [encodeLines, List.zipIdx_append, List.mapM_append, List.zipIdx_cons, List.zipIdx_nil,
    List.mapM_cons, List.mapM_nil, Nat.zero_add]
  change Except.bind _ _ = _
  congr 1
  funext words
  cases line.word symbols <;> rfl

/-- The second pass: a word for every line if every line has one. -/
theorem encodeLines_cases (symbols : Symbols) (lines : List Line) :
    (∃ words, encodeLines symbols lines = .ok words ∧
      lines.map (Line.word symbols) = words.map .ok) ∨
    ∃ fault, encodeLines symbols lines = .error fault ∧
      FirstFault (Unwritable symbols lines) fault := by
  induction lines using List.reverseRecOn with
  | nil => exact .inl ⟨[], rfl, rfl⟩
  | append_singleton lines line ih =>
    have same : ∀ i < lines.length, ∀ cause,
        Unwritable symbols lines i cause ↔ Unwritable symbols (lines ++ [line]) i cause := by
      intro i inside cause
      simp only [Unwritable, List.getElem?_append_left inside]
    rw [encodeLines_concat]
    obtain ⟨words, encoded, written⟩ | ⟨fault, encoded, first⟩ := ih
    · rw [encoded, Except.bind]
      cases last : line.word symbols with
      | ok word => exact .inl ⟨words ++ [word], rfl, by simp [written, last]⟩
      | error cause =>
        refine .inr ⟨⟨lines.length + 1, cause⟩, rfl, lines.length, rfl, ⟨line, by simp, last⟩, ?_⟩
        intro earlier inside other wrong
        exact not_unwritable_of_words written earlier other ((same earlier inside other).2 wrong)
    · refine .inr ⟨fault, by rw [encoded]; rfl, first.congr lines.length same ?_⟩
      intro i cause wrong
      obtain ⟨found, here, -⟩ := wrong
      exact (List.getElem?_eq_some_iff.1 here).1

theorem encodeLines_eq_ok_iff {symbols : Symbols} {lines : List Line} {words : List Word} :
    encodeLines symbols lines = .ok words ↔ lines.map (Line.word symbols) = words.map .ok := by
  obtain ⟨found, encoded, written⟩ | ⟨fault, encoded, index, -, wrong, -⟩ :=
    encodeLines_cases symbols lines
  · rw [encoded, written, Except.ok.injEq, List.map_inj_right fun _ _ => Except.ok.inj]
  · rw [encoded]
    simp only [reduceCtorEq, false_iff]
    intro written
    exact not_unwritable_of_words written index fault.cause wrong

theorem assembleLines_eq (lines : List Line) :
    assembleLines lines = (Symbols.ofLines lines).bind fun symbols =>
      (encodeLines symbols lines).map fun words => Assembly.mk words symbols := rfl

theorem assembleLines_eq_ok_iff {lines : List Line} {assembly : Assembly} :
    assembleLines lines = .ok assembly ↔ Symbols.ofLines lines = .ok assembly.symbols ∧
      encodeLines assembly.symbols lines = .ok assembly.words := by
  rw [assembleLines_eq]
  cases collected : Symbols.ofLines lines with
  | error fault => simp [Except.bind]
  | ok symbols =>
    simp only [Except.bind, Except.ok.injEq]
    constructor
    · intro assembled
      cases encoded : encodeLines symbols lines with
      | error fault => simp [encoded, Except.map] at assembled
      | ok words =>
        rw [encoded] at assembled
        obtain rfl := Except.ok.inj assembled
        exact ⟨rfl, encoded⟩
    · intro equal
      obtain ⟨rfl, encoded⟩ := equal
      rw [encoded]
      rfl

theorem assembleLines_eq_error_of_misdeclared {lines : List Line} {fault : Fault}
    (first : FirstFault (Misdeclared lines) fault) : assembleLines lines = .error fault := by
  rw [assembleLines_eq]
  obtain ⟨symbols, -, stands, -⟩ | ⟨found, collected, other⟩ := Symbols.ofLines_cases lines
  · obtain ⟨index, -, wrong, -⟩ := first
    exact absurd wrong (stands index _)
  · obtain rfl := first.unique (fun _ _ _ wrong again => wrong.unique again) other
    rw [collected]
    rfl

theorem assembleLines_eq_error_of_unwritable {lines : List Line} {symbols : Symbols} {fault : Fault}
    (collected : Symbols.ofLines lines = .ok symbols)
    (first : FirstFault (Unwritable symbols lines) fault) : assembleLines lines = .error fault := by
  rw [assembleLines_eq, collected, Except.bind]
  obtain ⟨words, -, written⟩ | ⟨found, encoded, other⟩ := encodeLines_cases symbols lines
  · obtain ⟨index, -, wrong, -⟩ := first
    exact absurd wrong (not_unwritable_of_words written index _)
  · obtain rfl := first.unique (fun _ _ _ wrong again => wrong.unique again) other
    rw [encoded]
    rfl

theorem exists_assembleLines_eq_ok {lines : List Line} {symbols : Symbols}
    (collected : Symbols.ofLines lines = .ok symbols)
    (writable : ∀ index cause, ¬Unwritable symbols lines index cause) :
    ∃ words, assembleLines lines = .ok ⟨words, symbols⟩ := by
  rw [assembleLines_eq, collected, Except.bind]
  obtain ⟨words, encoded, -⟩ | ⟨fault, -, index, -, wrong, -⟩ := encodeLines_cases symbols lines
  · exact ⟨words, by rw [encoded]; rfl⟩
  · exact absurd wrong (writable index _)

/-- What an assembly is: a word for every line and a table of the lines that declare a name. -/
theorem assembleLines_ok {lines : List Line} {assembly : Assembly}
    (assembled : assembleLines lines = .ok assembly) :
    lines.map (Line.word assembly.symbols) = assembly.words.map .ok ∧
      ∀ name, assembly.symbols.offset? name = (Symbols.lineOf? lines name).map slot := by
  obtain ⟨collected, encoded⟩ := assembleLines_eq_ok_iff.1 assembled
  refine ⟨encodeLines_eq_ok_iff.1 encoded, ?_⟩
  obtain ⟨symbols, again, -, table⟩ | ⟨fault, failed, -⟩ := Symbols.ofLines_cases lines
  · rw [collected, Except.ok.injEq] at again
    rw [again]
    exact table
  · simp [collected] at failed

theorem not_misdeclared_of_assembleLines {lines : List Line} {assembly : Assembly}
    (assembled : assembleLines lines = .ok assembly) (index : Nat) (cause : Cause) :
    ¬Misdeclared lines index cause := by
  obtain ⟨symbols, -, stands, -⟩ | ⟨fault, failed, -⟩ := Symbols.ofLines_cases lines
  · exact stands index cause
  · rw [(assembleLines_eq_ok_iff.1 assembled).1] at failed
    cases failed

theorem exists_line_of_offset? {lines : List Line} {assembly : Assembly}
    (assembled : assembleLines lines = .ok assembly) {name : List Char} {address : UInt32}
    (found : assembly.symbols.offset? name = some address) :
    ∃ index, lines[index]? = some (.label name) ∧ slot index = address := by
  rw [(assembleLines_ok assembled).2, Option.map_eq_some_iff] at found
  obtain ⟨index, declares, place⟩ := found
  have stands := not_misdeclared_of_assembleLines assembled
  exact ⟨index, (Symbols.lineOf?_eq_some_iff stands).1 declares, place⟩

theorem getElem?_word {lines : List Line} {assembly : Assembly}
    (assembled : assembleLines lines = .ok assembly) (index : Nat) :
    lines[index]?.map (Line.word assembly.symbols) = assembly.words[index]?.map .ok := by
  rw [← List.getElem?_map, ← List.getElem?_map, (assembleLines_ok assembled).1]

theorem exists_word_of_line {lines : List Line} {assembly : Assembly}
    (assembled : assembleLines lines = .ok assembly) {index : Nat} {line : Line}
    (here : lines[index]? = some line) :
    ∃ w, assembly.words[index]? = some w ∧ line.word assembly.symbols = .ok w := by
  have entry := getElem?_word assembled index
  rw [here, Option.map_some] at entry
  obtain ⟨w, found, encoded⟩ := Option.map_eq_some_iff.1 entry.symm
  exact ⟨w, found, encoded.symm⟩

theorem exists_line_of_word {lines : List Line} {assembly : Assembly}
    (assembled : assembleLines lines = .ok assembly) {index : Nat} {w : Word}
    (found : assembly.words[index]? = some w) :
    ∃ line, lines[index]? = some line ∧ line.word assembly.symbols = .ok w := by
  have entry := getElem?_word assembled index
  rw [found, Option.map_some] at entry
  exact Option.map_eq_some_iff.1 entry

namespace Symbols

def Reachable (symbols : Symbols) : Prop :=
  ∀ name address, symbols.offset? name = some address → address.toNat < 0x1000000

theorem Reachable.resolve? {symbols : Symbols} (reachable : symbols.Reachable) {reference : List Char}
    {address : UInt32} (found : symbols.resolve? reference = some address) : address.toNat < 0x1000000 := by
  rw [Symbols.resolve?, Option.or_eq_some_iff] at found
  rcases found with written | ⟨-, behind⟩
  · exact reachable _ _ written
  · obtain ⟨rest, -, known⟩ := Option.bind_eq_some_iff.1 behind
    exact reachable _ _ known

theorem reachable_of_ofLines {lines : List Line} {symbols : Symbols} (short : lines.length ≤ lineSpace)
    (table : ∀ name, symbols.offset? name = (lineOf? lines name).map slot) : symbols.Reachable := by
  intro name address known
  rw [table, Option.map_eq_some_iff] at known
  obtain ⟨index, declares, rfl⟩ := known
  have inside := lineOf?_lt declares
  rw [slot_eq, toNat_ofNat_line (by omega)]
  unfold lineSpace at short
  omega

end Symbols

end WordMachine
