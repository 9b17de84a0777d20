import WordMachine.Proofs.Flow.Coverage
import WordMachine.Proofs.Flow.Reachability

/-! Words that a survey does not visit. Neither the survey nor a run from one of its entries looks at them,
so they may be anything. -/

namespace WordMachine

open Machine

namespace Image

/-- Two images of one size that hold the same words at some places. -/
structure AgreeAt (image other : Image) (places : List UInt32) : Prop where
  sized : other.bytes.size = image.bytes.size
  word : ∀ pc ∈ places, other.word? pc = image.word? pc

namespace AgreeAt

variable {image other : Image} {places : List UInt32} {pc : UInt32}

theorem mapped_iff (agree : AgreeAt image other places) : other.Mapped pc ↔ image.Mapped pc := by
  rw [Mapped, Mapped, agree.sized]

theorem instr? (agree : AgreeAt image other places) (here : pc ∈ places) :
    other.instr? pc = image.instr? pc := by
  rw [Image.instr?, Image.instr?, agree.word pc here]

theorem edgesOf (agree : AgreeAt image other places) (pc : UInt32) (i : Instr Reg UInt32) :
    other.edgesOf pc i = image.edgesOf pc i := by
  by_cases jumps : i.IsJump
  · obtain ⟨j, target, rfl⟩ := jumps
    cases j <;> rfl
  by_cases final : i.Final
  · rw [edgesOf_final jumps final, edgesOf_final jumps final]
  · simp only [edgesOf_plain jumps final, agree.mapped_iff]

theorem edgesAt (agree : AgreeAt image other places) (here : pc ∈ places) :
    other.edgesAt pc = image.edgesAt pc := by
  rw [Image.edgesAt, Image.edgesAt, agree.instr? here]
  cases image.instr? pc with
  | none => rfl
  | some i => exact agree.edgesOf pc i

end AgreeAt

variable {image other : Image} {budget : Nat}

theorem mem_walkFrom {queue seen : List UInt32} {pc : UInt32} (member : pc ∈ seen) :
    pc ∈ image.walkFrom budget queue seen := by
  fun_induction walkFrom image budget queue seen with
  | case1 | case2 => exact member
  | case3 budget seen first rest funded found smaller cost ih =>
    exact ih (List.mem_cons_of_mem first member)
  | case4 budget seen first rest funded known ih => exact ih member

/-- A walk looks at no word but those that it meets. -/
theorem AgreeAt.walkFrom {queue seen : List UInt32}
    (agree : AgreeAt image other (image.walkFrom budget queue seen)) :
    other.walkFrom budget queue seen = image.walkFrom budget queue seen := by
  fun_induction Image.walkFrom image budget queue seen with
  | case1 => rw [Image.walkFrom]
  | case2 => rw [Image.walkFrom, if_pos rfl]
  | case3 budget seen pc rest funded found smaller cost ih =>
    -- The word is in what the walk has met from here on, so it is still there at the end.
    have here : pc ∈ image.walkFrom (budget - cost) (rest ++ (image.edgesAt pc).map Edge.target)
        (pc :: seen) := mem_walkFrom List.mem_cons_self
    have again : other.Mapped pc ∧ pc ∉ seen := ⟨agree.mapped_iff.2 found.1, found.2⟩
    rw [Image.walkFrom, if_neg funded, dif_pos again, agree.instr? here, agree.edgesAt here]
    exact ih agree
  | case4 budget seen pc rest funded known ih =>
    have again : ¬(other.Mapped pc ∧ pc ∉ seen) := by rwa [agree.mapped_iff]
    rw [Image.walkFrom, if_neg funded, dif_neg again]
    exact ih agree

theorem AgreeAt.walk {entries : List UInt32}
    (agree : AgreeAt image other (image.survey entries budget).visited) :
    other.walk entries budget = image.walk entries budget := by
  have met : AgreeAt image other (image.walkFrom budget entries []) := by
    refine ⟨agree.sized, fun pc member => agree.word pc (Survey.mem_visited.2 ?_)⟩
    exact List.mem_reverse.2 member
  rw [Image.walk, met.walkFrom, Image.walk]

end Image

namespace Survey

variable {survey again : Survey}

structure Alike (survey again : Survey) : Prop where
  agree : Image.AgreeAt survey.image again.image survey.visited
  met : again.met = survey.met

theorem Alike.visited (alike : Alike survey again) : again.visited = survey.visited := by
  rw [Survey.visited, alike.met, Survey.visited]

theorem Alike.visitedWhere (alike : Alike survey again) (property : Op → Bool) :
    again.visitedWhere property = survey.visitedWhere property := by
  rw [Survey.visitedWhere, alike.visited, Survey.visitedWhere]
  refine List.filter_congr fun pc here => ?_
  rw [alike.agree.instr? here]

theorem Alike.invalid (alike : Alike survey again) : again.invalid = survey.invalid := by
  rw [Survey.invalid, alike.visited, Survey.invalid]
  refine List.filter_congr fun pc here => ?_
  rw [alike.agree.word pc here]

theorem Alike.edges (alike : Alike survey again) : again.edges = survey.edges := by
  rw [Survey.edges, alike.met, Survey.edges]
  refine List.flatMap_congr fun pc here => ?_
  exact alike.agree.edgesAt (mem_visited.2 here)

end Survey

namespace Machine

variable {β : Type} [Bus β] {program other : Program} {m : Machine β}

theorem step_congr (fetched : other.fetch? m.cpu.pc = program.fetch? m.cpu.pc) :
    step other m = step program m := by
  rw [step, fetched, step]

/-- Two programs run alike from a machine with a property that steps keep, if a machine with that property
fetches the same word from both. -/
theorem runWithin_congr (property : Machine β → Prop)
    (kept : ∀ m next, property m → Goes program m next → property next)
    (fetched : ∀ m, property m → other.fetch? m.cpu.pc = program.fetch? m.cpu.pc)
    (holds : property m) (fuel : Nat) : runWithin other fuel m = runWithin program fuel m := by
  induction fuel generalizing m with
  | zero => rfl
  | succ fuel ih =>
    rw [runWithin, step_congr (fetched m holds), runWithin]
    split
    · rfl
    · rcases stepped : step program m with ⟨trap | _ | exit, next⟩
      · rfl
      · exact ih (kept m next holds stepped)
      · rfl

end Machine

section Runs

variable {program other : Program} {met : List UInt32}

theorem Tracked.fetch?_congr {cpu : Cpu} (tracked : Tracked program.image met cpu)
    (agree : Image.AgreeAt program.image other.image met) :
    other.fetch? cpu.pc = program.fetch? cpu.pc := by
  by_cases mapped : program.image.Mapped cpu.pc
  · rw [Program.fetch?, agree.word _ (tracked.place mapped), Program.fetch?]
  · have gone : ¬other.image.Mapped cpu.pc := by rwa [agree.mapped_iff]
    rw [← Program.fetch?_isSome_iff, Option.not_isSome_iff_eq_none] at mapped gone
    rw [gone, mapped]

theorem Tracked.runWithin_congr {β : Type} [Bus β] {m : Machine β}
    (tracked : Tracked program.image met m.cpu) (explored : program.image.Explored met)
    (agree : Image.AgreeAt program.image other.image met) (fuel : Nat) :
    runWithin other fuel m = runWithin program fuel m := by
  refine Machine.runWithin_congr (fun m => Tracked program.image met m.cpu) ?_ ?_ tracked fuel
  · intro m next here goes
    exact here.step explored goes
  · intro m here
    exact here.fetch?_congr agree

end Runs

/-- Words that a survey does not visit are dead. An image of the same size with the same visited words has
the same survey. With a budget for every word, a machine that starts at an entry with no open call runs
alike on both. -/
theorem unvisited_dead {program other : Program} {entries : List UInt32} {budget : Nat}
    (sized : other.image.bytes.size = program.image.bytes.size)
    (agree : ∀ pc ∈ (program.image.survey entries budget).visited,
      other.image.word? pc = program.image.word? pc) :
    let survey := program.image.survey entries budget
    let again := other.image.survey entries budget
    (again.visited = survey.visited ∧ again.edges = survey.edges ∧ again.rets = survey.rets ∧
      again.halts = survey.halts ∧ again.terminators = survey.terminators ∧
      again.invalid = survey.invalid) ∧
    (program.words < budget → ∀ {β : Type} [Bus β] (m : Machine β), m.cpu.pc ∈ entries →
      m.cpu.returns = [] →
        (∀ fuel, runWithin other fuel m = runWithin program fuel m) ∧ run other m = run program m) := by
  intro survey again
  have same : Image.AgreeAt program.image other.image survey.visited := ⟨sized, agree⟩
  constructor
  · have alike : survey.Alike again := ⟨same, same.walk⟩
    exact ⟨alike.visited, alike.edges, alike.visitedWhere _, alike.visitedWhere _,
      alike.visitedWhere _, alike.invalid⟩
  · intro large β bus m entered fresh
    obtain ⟨explored, entriesMet⟩ := Image.walk_explored entries (Program.affordable large)
    have tracked : Tracked program.image survey.met m.cpu :=
      ⟨entriesMet m.cpu.pc entered, by simp [fresh]⟩
    have met : Image.AgreeAt program.image other.image survey.met :=
      ⟨sized, fun pc member => agree pc (Survey.mem_visited.2 member)⟩
    have alike := tracked.runWithin_congr (m := m) explored met
    refine ⟨alike, ?_⟩
    rw [run, alike, run]

theorem unvisited_dead_skipped : ∃ program other : Program,
    program = .ofWords [⟨0x0D, 0, 0, 8⟩, .padding, .fill 0xFE] ∧
    other = .ofWords [⟨0x0D, 0, 0, 8⟩, .fill 0xAB, .fill 0xFE] ∧
    other.image.bytes.size = program.image.bytes.size ∧
    (∀ pc ∈ (program.image.survey [0] 4).visited, other.image.word? pc = program.image.word? pc) ∧
    (other.image.survey [0] 4).edges = (program.image.survey [0] 4).edges ∧ program.words < 4 ∧
    (runWithin other 2 (⟨.start none {}, ⟨#[]⟩, .fresh none⟩ : Machine Bank)).map Prod.fst =
      some (.ok .halted) := by
  refine ⟨_, _, rfl, rfl, ?_⟩
  generalize named : Program.ofWords [⟨0x0D, 0, 0, 8⟩, .padding, .fill 0xFE] = program
  have jump : program.image.instr? 0 = some (.jump .always 8) := by rw [← named]; decide
  have halt : program.image.instr? 8 = some (.bare .halt) := by rw [← named]; decide
  have closed : program.image.Closed [0] {0, 8} := by
    constructor
    · simp
    · rintro pc (rfl | rfl) i found target kind leads mapped
      · cases found.symm.trans jump
        cases leads with
        | always => exact .inr rfl
        | onward falls => exact absurd .jump falls
      · cases found.symm.trans halt
        cases leads with
        | onward falls => exact absurd .halt falls
  have sized : (Program.ofWords [⟨0x0D, 0, 0, 8⟩, .fill 0xAB, .fill 0xFE]).image.bytes.size =
      program.image.bytes.size := by rw [← named]; rfl
  have agree : ∀ pc ∈ (program.image.survey [0] 4).visited,
      (Program.ofWords [⟨0x0D, 0, 0, 8⟩, .fill 0xAB, .fill 0xFE]).image.word? pc =
        program.image.word? pc := by
    intro pc visited
    have met := List.mem_reverse.1 (Survey.mem_visited.1 visited)
    rw [← named]
    obtain rfl | rfl := Image.walkFrom_subset closed (by simp) closed.entry pc met
    · decide
    · decide
  have large : program.words < 4 := by rw [← named]; decide
  obtain ⟨⟨-, edges, -⟩, alike⟩ := unvisited_dead sized agree
  have runs := (alike large (⟨.start none {}, ⟨#[]⟩, .fresh none⟩ : Machine Bank) (by decide) rfl).1 2
  refine ⟨sized, agree, edges, large, ?_⟩
  rw [runs, ← named]
  rfl

end WordMachine
