import WordMachine.Proofs.Source.Passes
import WordMachine.Proofs.Source.Statement

/-! Sources with a line put in that holds no instruction. The lines after it move by one, every name stays
with the line that declares it, and the source can still be assembled. -/

namespace WordMachine

open Text

/-- Where a line is once another has been put in at `spot`. -/
def displace (spot line : Nat) : Nat := if line < spot then line else line + 1

section Displace

variable {spot line other : Nat}

theorem displace_of_lt (before : line < spot) : displace spot line = line := if_pos before

theorem displace_of_le (behind : spot ≤ line) : displace spot line = line + 1 :=
  if_neg (Nat.not_lt_of_le behind)

theorem displace_lt_iff : displace spot line < displace spot other ↔ line < other := by
  unfold displace
  split <;> split <;> omega

theorem displace_succ (spot line : Nat) : displace spot line + 1 = displace spot (line + 1) ∨
    line + 1 = spot ∧ displace spot line + 1 = spot := by
  rcases Nat.lt_trichotomy (line + 1) spot with before | here | behind
  · rw [displace_of_lt before, displace_of_lt (by omega)]
    exact .inl rfl
  · rw [displace_of_lt (by omega)]
    exact .inr ⟨here, here⟩
  · rw [displace_of_le (by omega), displace_of_le (by omega)]
    exact .inl rfl

theorem exists_displace (elsewhere : line ≠ spot) : ∃ origin, displace spot origin = line := by
  rcases Nat.lt_or_gt_of_ne elsewhere with before | behind
  · exact ⟨line, displace_of_lt before⟩
  · refine ⟨line - 1, ?_⟩
    rw [displace_of_le (by omega)]
    omega

variable {α : Type}

theorem getElem?_insertIdx_displace (found : List α) (spot line : Nat) (x : α) :
    (found.insertIdx spot x)[displace spot line]? = found[line]? := by
  by_cases before : line < spot
  · rw [displace_of_lt before, List.getElem?_insertIdx_of_lt before]
  · rw [displace_of_le (Nat.le_of_not_lt before), List.getElem?_insertIdx_of_gt (by omega),
      Nat.add_sub_cancel]

theorem of_getElem?_insertIdx {found : List α} {x y : α}
    (here : (found.insertIdx spot x)[line]? = some y) :
    y = x ∨ ∃ origin, displace spot origin = line ∧ found[origin]? = some y := by
  by_cases put : line = spot
  · rw [put, List.getElem?_insertIdx_self] at here
    split at here
    · exact .inl (Option.some.inj here).symm
    · cases here
  · obtain ⟨origin, rfl⟩ := exists_displace put
    rw [getElem?_insertIdx_displace] at here
    exact .inr ⟨origin, rfl, here⟩

theorem findIdx?_insertIdx (p : α → Bool) {x : α} (passed : p x = false) (found : List α) (spot : Nat) :
    (found.insertIdx spot x).findIdx? p = (found.findIdx? p).map (displace spot) := by
  induction found generalizing spot with
  | nil =>
    cases spot with
    | zero => simp [passed]
    | succ spot => rfl
  | cons y rest ih =>
    cases spot with
    | zero =>
      rw [List.insertIdx_zero, List.findIdx?_cons, passed]
      rfl
    | succ spot =>
      rw [List.insertIdx_succ_cons, List.findIdx?_cons, List.findIdx?_cons, ih]
      split
      · rfl
      · have moved : ∀ n, displace spot n + 1 = displace (spot + 1) (n + 1) := by
          intro n
          unfold displace
          split <;> split <;> omega
        rw [Option.map_map, Option.map_map]
        exact congrArg₂ Option.map (funext moved) rfl

end Displace

section Blank

variable {lines : List Line} {spot : Nat}

theorem lineOf?_insertIdx (lines : List Line) (spot : Nat) (name : List Char) :
    Symbols.lineOf? (lines.insertIdx spot .blank) name =
      (Symbols.lineOf? lines name).map (displace spot) :=
  findIdx?_insertIdx _ (by simp) lines spot

theorem misdeclared_insertIdx_iff {index : Nat} {cause : Cause} :
    Misdeclared (lines.insertIdx spot .blank) index cause ↔
      ∃ origin, displace spot origin = index ∧ Misdeclared lines origin cause := by
  have declared : ∀ {index name}, (lines.insertIdx spot .blank)[index]? = some (.label name) →
      ∃ origin, displace spot origin = index ∧ lines[origin]? = some (.label name) := by
    intro index name here
    rcases of_getElem?_insertIdx here with put | before
    · cases put
    · exact before
  constructor
  · rintro ⟨name, here, reason⟩
    obtain ⟨origin, rfl, before⟩ := declared here
    refine ⟨origin, rfl, name, before, ?_⟩
    rcases reason with unnamed | ⟨filled, same, earlier, less, there⟩
    · exact .inl unnamed
    · obtain ⟨first, rfl, known⟩ := declared there
      exact .inr ⟨filled, same, first, displace_lt_iff.1 less, known⟩
  · rintro ⟨origin, rfl, name, before, reason⟩
    refine ⟨name, (getElem?_insertIdx_displace lines spot origin .blank).trans before, ?_⟩
    rcases reason with unnamed | ⟨filled, same, earlier, less, there⟩
    · exact .inl unnamed
    · exact .inr ⟨filled, same, displace spot earlier, displace_lt_iff.2 less,
        (getElem?_insertIdx_displace lines spot earlier .blank).trans there⟩

theorem unwritable_insertIdx_iff {symbols others : Symbols}
    (same : ∀ line ∈ lines, ∀ cause, line.word others = .error cause ↔ line.word symbols = .error cause)
    {index : Nat} {cause : Cause} : Unwritable others (lines.insertIdx spot .blank) index cause ↔
      ∃ origin, displace spot origin = index ∧ Unwritable symbols lines origin cause := by
  constructor
  · rintro ⟨line, here, refused⟩
    rcases of_getElem?_insertIdx here with rfl | ⟨origin, rfl, before⟩
    · cases refused
    · exact ⟨origin, rfl, line, before, (same line (List.mem_of_getElem? before) cause).1 refused⟩
  · rintro ⟨origin, rfl, line, before, refused⟩
    exact ⟨line, (getElem?_insertIdx_displace lines spot origin .blank).trans before,
      (same line (List.mem_of_getElem? before) cause).2 refused⟩

end Blank

def Fault.displaced (spot : Nat) (fault : Fault) : Fault :=
  { fault with line := if fault.line ≤ spot then fault.line else fault.line + 1 }

/-- What is wrong with a displaced line is wrong first if it was so before. -/
theorem FirstFault.displaced {wrong amiss : Nat → Cause → Prop} {fault : Fault} {spot : Nat}
    (first : FirstFault wrong fault)
    (moved : ∀ index cause, amiss index cause ↔ ∃ origin, displace spot origin = index ∧ wrong origin cause) :
    FirstFault amiss (fault.displaced spot) := by
  obtain ⟨index, line, here, before⟩ := first
  refine ⟨displace spot index, ?_, (moved _ _).2 ⟨index, rfl, here⟩, ?_⟩
  · change (if fault.line ≤ spot then fault.line else fault.line + 1) = displace spot index + 1
    rw [line]
    by_cases before : index < spot
    · rw [if_pos (Nat.succ_le_of_lt before), displace_of_lt before]
    · rw [if_neg (by omega), displace_of_le (Nat.le_of_not_lt before)]
  · intro earlier less cause there
    obtain ⟨origin, rfl, known⟩ := (moved _ _).1 there
    exact before origin (displace_lt_iff.1 less) cause known

theorem strippedLines_insertIdx {source edited blank : List Char} {spot : Nat}
    (inserted : lines edited = (lines source).insertIdx spot blank) (idle : strip blank = []) :
    strippedLines edited = (strippedLines source).insertIdx spot [] := by
  rw [strippedLines, strippedLines, inserted, List.map_insertIdx, idle]

end WordMachine
