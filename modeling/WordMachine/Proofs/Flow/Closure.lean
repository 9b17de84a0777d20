import Mathlib.Data.List.Nodup
import Mathlib.Data.List.Perm.Subperm
import WordMachine.Flow.Walk

/-! What the walk meets. With a budget for every word of the image it meets its entries and everything
that an edge leads to from a word it has met. -/

namespace WordMachine

theorem edgesAt_of_instr? {image : Image} {pc : UInt32} {i : Instr Reg UInt32}
    (found : image.instr? pc = some i) : image.edgesAt pc = image.edgesOf pc i := by
  rw [Image.edgesAt, found]

namespace Image

/-- A walk under way: what it has met is met once, and the targets that are still to be met wait in the
queue. The budget lasts for all words that are left. -/
structure Exploring (image : Image) (budget : Nat) (queue seen : List UInt32) : Prop where
  distinct : seen.Nodup
  mapped : ∀ pc ∈ seen, image.Mapped pc
  affordable : image.bytes.size + 3 < 4 * (budget + seen.length)
  covered : ∀ pc ∈ seen, ∀ edge ∈ image.edgesAt pc, image.Mapped edge.target →
    edge.target ∈ seen ∨ edge.target ∈ queue

/-- A walk that is over: every edge from a word it met leads to a word it met, or out of the image. -/
structure Explored (image : Image) (met : List UInt32) : Prop where
  mapped : ∀ pc ∈ met, image.Mapped pc
  covered : ∀ pc ∈ met, ∀ edge ∈ image.edgesAt pc, image.Mapped edge.target → edge.target ∈ met

theorem length_le_of_mapped {image : Image} {seen : List UInt32} (distinct : seen.Nodup)
    (mapped : ∀ pc ∈ seen, image.Mapped pc) : seen.length ≤ (image.bytes.size + 3) / 4 := by
  have numbered : (seen.map fun pc => pc.toNat / 4).Nodup := by
    apply List.Nodup.map_on _ distinct
    intro first left second right same
    have firstWhole : first.toNat % 4 = 0 := (mapped first left).1
    have secondWhole : second.toNat % 4 = 0 := (mapped second right).1
    exact UInt32.toNat_inj.1 (by omega)
  have inside : (seen.map fun pc => pc.toNat / 4) ⊆ List.range ((image.bytes.size + 3) / 4) := by
    intro number listed
    obtain ⟨pc, member, rfl⟩ := List.mem_map.1 listed
    have whole : pc.toNat % 4 = 0 := (mapped pc member).1
    have below := (mapped pc member).2
    rw [List.mem_range]
    omega
  simpa using (List.subperm_of_subset numbered inside).length_le

theorem Exploring.budget_ne_zero {image : Image} {budget : Nat} {queue seen : List UInt32}
    (exploring : image.Exploring budget queue seen) : budget ≠ 0 := by
  have few := length_le_of_mapped exploring.distinct exploring.mapped
  have affordable := exploring.affordable
  omega

theorem Exploring.meet {image : Image} {budget : Nat} {pc : UInt32} {rest seen : List UInt32}
    (exploring : image.Exploring budget (pc :: rest) seen) (mapped : image.Mapped pc)
    (fresh : pc ∉ seen) {cost : Nat} (cheap : cost ≤ 1) :
    image.Exploring (budget - cost) (rest ++ (image.edgesAt pc).map Edge.target) (pc :: seen) where
  distinct := List.nodup_cons.2 ⟨fresh, exploring.distinct⟩
  mapped := List.forall_mem_cons.2 ⟨mapped, exploring.mapped⟩
  affordable := by
    have affordable := exploring.affordable
    rw [List.length_cons]
    omega
  covered := by
    rw [List.forall_mem_cons]
    constructor
    · intro edge leaves _
      exact .inr (List.mem_append_right _ (List.mem_map_of_mem leaves))
    · intro other member edge leaves target
      rcases exploring.covered other member edge leaves target with met | waits
      · exact .inl (List.mem_cons_of_mem pc met)
      · rcases List.mem_cons.1 waits with same | later
        · exact .inl (same ▸ List.mem_cons_self)
        · exact .inr (List.mem_append_left _ later)

theorem Exploring.skip {image : Image} {budget : Nat} {pc : UInt32} {rest seen : List UInt32}
    (exploring : image.Exploring budget (pc :: rest) seen) (known : ¬(image.Mapped pc ∧ pc ∉ seen)) :
    image.Exploring budget rest seen where
  distinct := exploring.distinct
  mapped := exploring.mapped
  affordable := exploring.affordable
  covered := by
    intro other member edge leaves target
    rcases exploring.covered other member edge leaves target with met | waits
    · exact .inl met
    · rcases List.mem_cons.1 waits with same | later
      · exact .inl (Classical.not_not.1 fun fresh => known ⟨same ▸ target, same ▸ fresh⟩)
      · exact .inr later

theorem walkFrom_explored {image : Image} {budget : Nat} {queue seen : List UInt32}
    (exploring : image.Exploring budget queue seen) :
    image.Explored (image.walkFrom budget queue seen) ∧ seen ⊆ image.walkFrom budget queue seen ∧
      ∀ pc ∈ queue, image.Mapped pc → pc ∈ image.walkFrom budget queue seen := by
  fun_induction walkFrom image budget queue seen with
  | case1 budget seen =>
    refine ⟨⟨exploring.mapped, ?_⟩, List.Subset.refl seen, by simp⟩
    intro pc member edge leaves target
    simpa using exploring.covered pc member edge leaves target
  | case2 seen pc rest => exact absurd rfl exploring.budget_ne_zero
  | case3 budget seen pc rest funded found smaller cost ih =>
    have cheap : cost ≤ 1 := by
      unfold cost
      split <;> omega
    obtain ⟨explored, kept, queued⟩ := ih (exploring.meet found.1 found.2 cheap)
    refine ⟨explored, ?_, List.forall_mem_cons.2 ⟨fun _ => kept List.mem_cons_self, ?_⟩⟩
    · intro other member
      exact kept (List.mem_cons_of_mem pc member)
    · intro other waits mapped
      exact queued other (List.mem_append_left _ waits) mapped
  | case4 budget seen pc rest funded known ih =>
    obtain ⟨explored, kept, queued⟩ := ih (exploring.skip known)
    refine ⟨explored, kept, List.forall_mem_cons.2 ⟨?_, queued⟩⟩
    intro mapped
    apply kept
    by_contra fresh
    exact known ⟨mapped, fresh⟩

theorem walk_explored {image : Image} (entries : List UInt32) {budget : Nat}
    (affordable : image.bytes.size + 3 < 4 * budget) :
    image.Explored (image.walk entries budget) ∧
      ∀ pc ∈ entries, image.Mapped pc → pc ∈ image.walk entries budget := by
  have exploring : image.Exploring budget entries [] := ⟨.nil, by simp, affordable, by simp⟩
  obtain ⟨explored, -, queued⟩ := walkFrom_explored exploring
  simp only [walk, List.mem_reverse]
  refine ⟨⟨?_, ?_⟩, queued⟩
  · intro pc member
    exact explored.mapped pc (List.mem_reverse.1 member)
  · intro pc member edge leaves target
    rw [List.mem_reverse] at member ⊢
    exact explored.covered pc member edge leaves target

end Image

namespace Survey

variable {survey : Survey} {pc : UInt32}

theorem mem_visited : pc ∈ survey.visited ↔ pc ∈ survey.met :=
  List.mem_mergeSort

theorem mem_visitedWhere_iff {property : Op → Bool} : pc ∈ survey.visitedWhere property ↔
    pc ∈ survey.visited ∧ ∃ i, survey.image.instr? pc = some i ∧ property i.op := by
  rw [visitedWhere, List.mem_filter, Option.any_eq_true]

theorem mem_visitedWhere {property : Op → Bool} {i : Instr Reg UInt32} (met : pc ∈ survey.met)
    (found : survey.image.instr? pc = some i) (holds : property i.op) :
    pc ∈ survey.visitedWhere property :=
  mem_visitedWhere_iff.2 ⟨mem_visited.2 met, i, found, holds⟩

theorem mem_invalid_iff : pc ∈ survey.invalid ↔
    pc ∈ survey.visited ∧ ∃ w, survey.image.word? pc = some w ∧ w.decode? = none := by
  simp only [invalid, List.mem_filter, Option.any_eq_true, Option.isNone_iff_eq_none]

theorem mem_invalid {w : Word} (met : pc ∈ survey.met) (found : survey.image.word? pc = some w)
    (undecoded : w.decode? = none) : pc ∈ survey.invalid :=
  mem_invalid_iff.2 ⟨mem_visited.2 met, w, found, undecoded⟩

theorem mem_edges {edge : Edge} (met : pc ∈ survey.met) (leaves : edge ∈ survey.image.edgesAt pc) :
    edge ∈ survey.edges :=
  List.mem_flatMap.2 ⟨pc, met, leaves⟩

end Survey

end WordMachine
