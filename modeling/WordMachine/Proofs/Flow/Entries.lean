import Mathlib.Data.List.Sort
import WordMachine.Proofs.Flow.BlockGraph

/-! The entries of a survey do not depend on each other. A survey from two lists of entries finds what the
surveys from either find, and the order of the entries shows in the order of the edges only. -/

namespace WordMachine

instance : Std.Asymm Edge.Precedes where
  asymm := by
    intro first second ahead behind
    rw [← Edge.key_lt_iff] at ahead behind
    omega

namespace Image

variable {image : Image} {entries others : List UInt32} {places reached further : Set UInt32}

theorem closed_append_iff : image.Closed (entries ++ others) places ↔
    image.Closed entries places ∧ image.Closed others places := by
  constructor
  · intro closed
    have first : image.Closed entries places :=
      ⟨fun pc listed => closed.entry pc (List.mem_append_left others listed), closed.successor⟩
    have second : image.Closed others places :=
      ⟨fun pc listed => closed.entry pc (List.mem_append_right entries listed), closed.successor⟩
    exact ⟨first, second⟩
  · intro both
    refine ⟨fun pc listed => ?_, both.1.successor⟩
    rcases List.mem_append.1 listed with early | late
    · exact both.1.entry pc early
    · exact both.2.entry pc late

theorem Closed.union (first : image.Closed entries reached) (second : image.Closed others further) :
    image.Closed (entries ++ others) (reached ∪ further) := by
  have successor : ∀ pc ∈ reached ∪ further, ∀ i, image.instr? pc = some i → ∀ target kind,
      i.Leads pc target kind → image.Mapped target → target ∈ reached ∪ further := by
    intro pc member i found target kind leads mapped
    rcases member with here | there
    · exact .inl (first.successor pc here i found target kind leads mapped)
    · exact .inr (second.successor pc there i found target kind leads mapped)
  apply closed_append_iff.2
  constructor
  · exact ⟨fun pc listed mapped => .inl (first.entry pc listed mapped), successor⟩
  · exact ⟨fun pc listed mapped => .inr (second.entry pc listed mapped), successor⟩

theorem isLeast_union (first : IsLeast {places | image.Closed entries places} reached)
    (second : IsLeast {places | image.Closed others places} further) :
    IsLeast {places | image.Closed (entries ++ others) places} (reached ∪ further) := by
  refine ⟨first.1.union second.1, ?_⟩
  intro places closed
  have both := closed_append_iff.1 closed
  exact Set.union_subset (first.2 both.1) (second.2 both.2)

theorem closed_congr (same : ∀ pc, pc ∈ others ↔ pc ∈ entries) :
    image.Closed others places ↔ image.Closed entries places := by
  constructor
  · intro closed
    exact ⟨fun pc listed => closed.entry pc ((same pc).2 listed), closed.successor⟩
  · intro closed
    exact ⟨fun pc listed => closed.entry pc ((same pc).1 listed), closed.successor⟩

section Walks

variable {budget : Nat} (affordable : image.bytes.size + 3 < 4 * budget)

include affordable

theorem mem_walk_append_iff {pc : UInt32} : pc ∈ image.walk (entries ++ others) budget ↔
    pc ∈ image.walk entries budget ∨ pc ∈ image.walk others budget := by
  have joint : IsLeast {places | image.Closed (entries ++ others) places}
      {pc | pc ∈ image.walk (entries ++ others) budget} := walk_isLeast affordable
  have first : IsLeast {places | image.Closed entries places} {pc | pc ∈ image.walk entries budget} :=
    walk_isLeast affordable
  have second : IsLeast {places | image.Closed others places} {pc | pc ∈ image.walk others budget} :=
    walk_isLeast affordable
  have same := joint.unique (isLeast_union first second)
  exact Set.ext_iff.1 same pc

theorem walk_perm (same : ∀ pc, pc ∈ others ↔ pc ∈ entries) :
    (image.walk others budget).Perm (image.walk entries budget) := by
  have least : IsLeast {places | image.Closed others places} {pc | pc ∈ image.walk others budget} :=
    walk_isLeast affordable
  simp only [closed_congr same] at least
  have met := least.unique (walk_isLeast affordable)
  have distinct := (image.walk_collected others budget).distinct
  have unlike := (image.walk_collected entries budget).distinct
  exact (List.perm_ext_iff_of_nodup distinct unlike).2 fun pc => Set.ext_iff.1 met pc

end Walks

end Image

/-- Addresses in strict order, those of two lists. -/
structure UnitedFrom (joint first second : List UInt32) : Prop where
  ascending : joint.Pairwise (· < ·)
  mem_iff : ∀ pc, pc ∈ joint ↔ pc ∈ first ∨ pc ∈ second

theorem UnitedFrom.filter {joint first second : List UInt32} (united : UnitedFrom joint first second)
    (kept : UInt32 → Bool) :
    UnitedFrom (joint.filter kept) (first.filter kept) (second.filter kept) where
  ascending := united.ascending.filter kept
  mem_iff := by
    intro pc
    rw [List.mem_filter, List.mem_filter, List.mem_filter, united.mem_iff, or_and_right]

namespace Survey

/-- A survey that lists what two surveys list, and nothing twice. -/
structure Unites (joint first second : Survey) : Prop where
  visited : UnitedFrom joint.visited first.visited second.visited
  rets : UnitedFrom joint.rets first.rets second.rets
  halts : UnitedFrom joint.halts first.halts second.halts
  terminators : UnitedFrom joint.terminators first.terminators second.terminators
  invalid : UnitedFrom joint.invalid first.invalid second.invalid
  once : joint.edges.Nodup
  edges : ∀ edge, edge ∈ joint.edges ↔ edge ∈ first.edges ∨ edge ∈ second.edges

theorem unites_append {image : Image} {budget : Nat} (affordable : image.bytes.size + 3 < 4 * budget)
    (entries others : List UInt32) : (image.survey (entries ++ others) budget).Unites
      (image.survey entries budget) (image.survey others budget) := by
  have distinct := (image.walk_collected (entries ++ others) budget).distinct
  have visited : UnitedFrom (image.survey (entries ++ others) budget).visited
      (image.survey entries budget).visited (image.survey others budget).visited := by
    refine ⟨visited_ascending distinct, fun pc => ?_⟩
    rw [mem_visited, mem_visited, mem_visited]
    exact Image.mem_walk_append_iff affordable
  constructor
  · exact visited
  · exact visited.filter _
  · exact visited.filter _
  · exact visited.filter _
  · exact visited.filter _
  · exact nodup_edges distinct
  · intro edge
    rw [mem_edges_iff, visited.mem_iff, or_and_right, mem_edges_iff, mem_edges_iff]
    rfl

/-- Surveys of one image that met the same words, each in its own order. -/
structure Reordered (survey again : Survey) : Prop where
  image : again.image = survey.image
  met : again.met.Perm survey.met

namespace Reordered

variable {survey again : Survey} (reordered : Reordered survey again)

include reordered

theorem visited : again.visited = survey.visited := by
  have perm : again.visited.Perm survey.visited :=
    again.visited_perm.trans (reordered.met.trans survey.visited_perm.symm)
  exact perm.eq_of_pairwise (fun _ _ _ _ => UInt32.le_antisymm) again.visited_ordered
    survey.visited_ordered

theorem visitedWhere (property : Op → Bool) :
    again.visitedWhere property = survey.visitedWhere property := by
  rw [Survey.visitedWhere, reordered.visited, reordered.image, Survey.visitedWhere]

theorem invalid : again.invalid = survey.invalid := by
  rw [Survey.invalid, reordered.visited, reordered.image, Survey.invalid]

theorem edges : again.edges.Perm survey.edges := by
  rw [Survey.edges, reordered.image, Survey.edges]
  exact reordered.met.flatMap fun _ _ => .refl _

section Entered

variable {entries others : List UInt32} (same : ∀ pc, pc ∈ others ↔ pc ∈ entries)

include same

theorem mem_starts_iff {pc : UInt32} : pc ∈ again.starts others ↔ pc ∈ survey.starts entries := by
  rw [← entered_iff, ← entered_iff, Entered, Entered, same pc]
  simp only [reordered.edges.mem_iff]

theorem blocks : again.blocks others = survey.blocks entries := by
  have terminators : again.terminators = survey.terminators := reordered.visitedWhere _
  have starts : ∀ pc, (again.starts others).contains pc = (survey.starts entries).contains pc := by
    intro pc
    rw [Bool.eq_iff_iff, List.contains_iff_mem, List.contains_iff_mem]
    exact reordered.mem_starts_iff same
  simp only [Survey.blocks, starts, terminators, reordered.visited, reordered.invalid]

end Entered

theorem blockEdges (blocks : List Block) : again.blockEdges blocks = survey.blockEdges blocks := by
  apply (pairwise_precedes _).eq_of_mem_iff (pairwise_precedes _)
  intro edge
  simp only [List.mem_eraseDups, List.mem_mergeSort, List.mem_map, List.mem_filter,
    reordered.edges.mem_iff]

end Reordered

end Survey

/-- With a budget for every word a survey from two lists of entries unites the surveys from either. From the
same entries in another order, or given more than once, everything is found again: the same words as what
they are, the same blocks with the same edges between them, and the same edges between the words, though not
in the same order. -/
theorem entries_independent {program : Program} {budget : Nat} (large : program.words < budget)
    (entries others : List UInt32) :
    let first := program.image.survey entries budget
    let second := program.image.survey others budget
    (program.image.survey (entries ++ others) budget).Unites first second ∧
      ((∀ pc, pc ∈ others ↔ pc ∈ entries) →
        (second.visited = first.visited ∧ second.rets = first.rets ∧ second.halts = first.halts ∧
          second.terminators = first.terminators ∧ second.invalid = first.invalid) ∧
        second.edges.Perm first.edges ∧ second.blocks others = first.blocks entries ∧
        second.blockEdges (second.blocks others) = first.blockEdges (first.blocks entries)) := by
  intro first second
  have affordable := Program.affordable large
  refine ⟨Survey.unites_append affordable entries others, fun same => ?_⟩
  have reordered : first.Reordered second := ⟨rfl, Image.walk_perm affordable same⟩
  have blocks := reordered.blocks same
  refine ⟨⟨reordered.visited, reordered.visitedWhere _, reordered.visitedWhere _,
    reordered.visitedWhere _, reordered.invalid⟩, reordered.edges, blocks, ?_⟩
  rw [blocks]
  exact reordered.blockEdges _

theorem entries_independent_apart :
    let program := Program.ofWords [.fill 0xFE, ⟨0x0D, 0, 0, 0⟩, .fill 0xFD]
    let joint := program.image.survey [4, 8] 4
    let again := program.image.survey [8, 4, 8] 4
    program.words < 4 ∧ 0 ∈ joint.halts ∧ 8 ∈ joint.rets ∧ ⟨4, 0, .branch⟩ ∈ joint.edges ∧
      again.halts = joint.halts ∧ again.blocks [8, 4, 8] = joint.blocks [4, 8] := by
  intro program joint again
  have large : program.words < 4 := by decide
  obtain ⟨unites, -⟩ := entries_independent large [4] [8]
  obtain ⟨-, alike⟩ := entries_independent large [4, 8] [8, 4, 8]
  obtain ⟨⟨-, -, halts, -⟩, -, blocks, -⟩ := alike (by simp [or_comm])
  -- A walk does not reduce by evaluation: its words are read off the closed set that they make up.
  obtain ⟨closed, -⟩ : IsLeast {places | program.image.Closed [4] places}
      {pc | pc ∈ (program.image.survey [4] 4).met} := Image.walk_isLeast (by decide)
  have jump : program.image.instr? 4 = some (.jump .always 0) := by decide
  have jumps : 4 ∈ (program.image.survey [4] 4).met := closed.entry 4 (by decide) (by decide)
  have halted : 0 ∈ (program.image.survey [4] 4).met :=
    closed.successor 4 jumps _ jump 0 .branch .always (by decide)
  obtain ⟨entered, -⟩ : IsLeast {places | program.image.Closed [8] places}
      {pc | pc ∈ (program.image.survey [8] 4).met} := Image.walk_isLeast (by decide)
  have returned : 8 ∈ (program.image.survey [8] 4).met := entered.entry 8 (by decide) (by decide)
  refine ⟨large, (unites.halts.mem_iff 0).2 (.inl ?_), (unites.rets.mem_iff 8).2 (.inr ?_),
    (unites.edges _).2 (.inl ?_), halts, blocks⟩
  · exact Survey.mem_visitedWhere_bare_iff.2 ⟨Survey.mem_visited.2 halted, by decide⟩
  · exact Survey.mem_visitedWhere_bare_iff.2 ⟨Survey.mem_visited.2 returned, by decide⟩
  · exact Survey.mem_edges_iff.2
      ⟨Survey.mem_visited.2 jumps, _, jump, .always, .inl ⟨_, _, rfl⟩⟩

end WordMachine
