import Mathlib.Data.List.Infix
import WordMachine.Proofs.Flow.Reachability

/-! The budget of a walk. A walk with a smaller budget is a beginning of the walk with a larger one, and a
walk that has some of its budget left over is the whole of it. -/

namespace WordMachine

namespace Image

variable {image : Image} {budget more : Nat} {queue seen : List UInt32} {pc : UInt32}

def decoded (image : Image) (places : List UInt32) : Nat :=
  places.countP fun pc => (image.instr? pc).isSome

theorem decoded_cons (image : Image) (pc : UInt32) (places : List UInt32) :
    image.decoded (pc :: places) =
      image.decoded places + if (image.instr? pc).isSome then 1 else 0 :=
  List.countP_cons

section Rounds

variable {rest : List UInt32} (funded : budget ≠ 0)

include funded

theorem walkFrom_of_fresh (found : image.Mapped pc ∧ pc ∉ seen) :
    image.walkFrom budget (pc :: rest) seen =
      image.walkFrom (budget - if (image.instr? pc).isSome then 1 else 0)
        (rest ++ (image.edgesAt pc).map Edge.target) (pc :: seen) := by
  rw [walkFrom, if_neg funded, dif_pos found]

theorem walkFrom_of_known (known : ¬(image.Mapped pc ∧ pc ∉ seen)) :
    image.walkFrom budget (pc :: rest) seen = image.walkFrom budget rest seen := by
  rw [walkFrom, if_neg funded, dif_neg known]

end Rounds

theorem suffix_walkFrom (image : Image) (budget : Nat) (queue seen : List UInt32) :
    seen <:+ image.walkFrom budget queue seen := by
  fun_induction walkFrom image budget queue seen with
  | case1 | case2 => exact List.suffix_refl _
  | case3 budget seen pc rest funded found smaller cost ih => exact (List.suffix_cons pc seen).trans ih
  | case4 budget seen pc rest funded known ih => exact ih

theorem walkFrom_suffix_walkFrom (image : Image) (budget : Nat) (queue seen : List UInt32) :
    ∀ more, budget ≤ more → image.walkFrom budget queue seen <:+ image.walkFrom more queue seen := by
  fun_induction walkFrom image budget queue seen with
  | case1 budget seen =>
    intro more _
    exact image.suffix_walkFrom more [] seen
  | case2 seen pc rest =>
    intro more _
    exact image.suffix_walkFrom more (pc :: rest) seen
  | case3 budget seen pc rest funded found smaller cost ih =>
    intro more fewer
    have afforded : more ≠ 0 := by omega
    rw [walkFrom_of_fresh afforded found]
    exact ih _ (Nat.sub_le_sub_right fewer cost)
  | case4 budget seen pc rest funded known ih =>
    intro more fewer
    have afforded : more ≠ 0 := by omega
    rw [walkFrom_of_known afforded known]
    exact ih more fewer

theorem decoded_walkFrom_le (image : Image) (budget : Nat) (queue seen : List UInt32) :
    image.decoded (image.walkFrom budget queue seen) ≤ budget + image.decoded seen := by
  fun_induction walkFrom image budget queue seen with
  | case1 | case2 => exact Nat.le_add_left _ _
  | case3 budget seen pc rest funded found smaller cost ih =>
    have cheap : cost ≤ 1 := by
      unfold cost
      split <;> omega
    have paid : image.decoded (pc :: seen) = image.decoded seen + cost := image.decoded_cons pc seen
    omega
  | case4 budget seen pc rest funded known ih => exact ih

/-- A walk that has budget left over has come to the end of its queue. -/
theorem walkFrom_eq_of_spare (image : Image) (budget : Nat) (queue seen : List UInt32)
    (spare : image.decoded (image.walkFrom budget queue seen) < budget + image.decoded seen) :
    ∀ more, budget ≤ more → image.walkFrom more queue seen = image.walkFrom budget queue seen := by
  fun_induction walkFrom image budget queue seen with
  | case1 =>
    intro more _
    rw [walkFrom]
  | case2 seen pc rest => omega
  | case3 budget seen pc rest funded found smaller cost ih =>
    intro more fewer
    have afforded : more ≠ 0 := by omega
    have paid : image.decoded (pc :: seen) = image.decoded seen + cost := image.decoded_cons pc seen
    rw [walkFrom_of_fresh afforded found]
    apply ih _ _ (Nat.sub_le_sub_right fewer cost)
    omega
  | case4 budget seen pc rest funded known ih =>
    intro more fewer
    have afforded : more ≠ 0 := by omega
    rw [walkFrom_of_known afforded known]
    exact ih spare more fewer

theorem walk_prefix_walk (image : Image) (entries : List UInt32) (fewer : budget ≤ more) :
    image.walk entries budget <+: image.walk entries more := by
  rw [walk, walk, List.reverse_prefix]
  exact image.walkFrom_suffix_walkFrom budget entries [] more fewer

end Image

namespace Survey

def decoded (survey : Survey) : List UInt32 :=
  survey.visited.filter fun pc => (survey.image.instr? pc).isSome

theorem length_decoded (survey : Survey) :
    survey.decoded.length = survey.image.decoded survey.met := by
  calc
    survey.decoded.length = survey.image.decoded survey.visited := List.countP_eq_length_filter.symm
    _ = survey.image.decoded survey.met := survey.visited_perm.countP_eq _

/-- Two surveys of one image, the first of which met some of the first words that the second met. -/
structure Begins (part whole : Survey) : Prop where
  image : part.image = whole.image
  met : part.met <+: whole.met

namespace Begins

variable {part whole : Survey} (begins : Begins part whole)

include begins

theorem visited : part.visited ⊆ whole.visited := by
  intro pc listed
  apply mem_visited.2
  exact begins.met.subset (mem_visited.1 listed)

theorem visitedWhere (property : Op → Bool) :
    part.visitedWhere property ⊆ whole.visitedWhere property := by
  rw [Survey.visitedWhere, begins.image]
  exact List.filter_subset _ begins.visited

theorem invalid : part.invalid ⊆ whole.invalid := by
  rw [Survey.invalid, begins.image]
  exact List.filter_subset _ begins.visited

theorem edges : part.edges <+: whole.edges := by
  rw [Survey.edges, begins.image]
  exact begins.met.flatMap _

end Begins

end Survey

/-- A survey with a smaller budget finds a part of what it finds with a larger one: of the edges those that
it finds first, and no more instructions than its budget allows. If it has met fewer, it has found everything
that it finds with any larger budget. -/
theorem budget_truncates (image : Image) (entries : List UInt32) {budget more : Nat}
    (fewer : budget ≤ more) :
    let part := image.survey entries budget
    let whole := image.survey entries more
    (part.visited ⊆ whole.visited ∧ part.rets ⊆ whole.rets ∧ part.halts ⊆ whole.halts ∧
      part.terminators ⊆ whole.terminators ∧ part.invalid ⊆ whole.invalid) ∧
    part.edges <+: whole.edges ∧ part.decoded.length ≤ budget ∧
      (part.decoded.length < budget → whole = part) := by
  intro part whole
  have begins : part.Begins whole := ⟨rfl, image.walk_prefix_walk entries fewer⟩
  have counted : part.decoded.length = image.decoded (image.walkFrom budget entries []) := by
    rw [part.length_decoded]
    exact (List.reverse_perm _).countP_eq _
  refine ⟨⟨begins.visited, begins.visitedWhere _, begins.visitedWhere _, begins.visitedWhere _,
    begins.invalid⟩, begins.edges, ?_, fun spare => ?_⟩
  · rw [counted]
    exact image.decoded_walkFrom_le budget entries []
  · rw [counted] at spare
    have same := image.walkFrom_eq_of_spare budget entries [] spare more fewer
    change Image.survey image entries more = Image.survey image entries budget
    rw [Image.survey, Image.walk, same, Image.survey, Image.walk]

theorem budget_truncates_spare :
    let image := (Program.ofWords [.padding, .padding, .fill 0xFE]).image
    (image.survey [0] 1).visited = [0] ∧
      (image.survey [0] 1).edges <+: (image.survey [0] 4).edges ∧
      (image.survey [0] 4).decoded.length < 4 ∧ image.survey [0] 100 = image.survey [0] 4 := by
  intro image
  obtain ⟨-, edges, -⟩ := budget_truncates image [0] (show 1 ≤ 4 by decide)
  obtain ⟨-, -, -, whole⟩ := budget_truncates image [0] (show 4 ≤ 100 by decide)
  have met : image.walkFrom 1 [0] [] = [0] := by
    rw [Image.walkFrom_of_fresh (by decide) (by decide)]
    rw [show 1 - (if (image.instr? 0).isSome then 1 else 0) = 0 by decide]
    rw [Image.walkFrom.eq_def]
    rfl
  have visited : (image.survey [0] 1).visited = [0] := by
    rw [Survey.visited, Image.survey, Image.walk, met]
    exact List.mergeSort_singleton 0
  have few : (image.survey [0] 4).decoded.length < 4 := by
    have collected := image.walk_collected [0] 4
    have words := Image.length_le_of_mapped collected.distinct collected.mapped
    have visits : (image.survey [0] 4).visited.length = (image.walk [0] 4).length :=
      (image.survey [0] 4).visited_perm.length_eq
    have decodes : (image.survey [0] 4).decoded.length ≤ (image.survey [0] 4).visited.length :=
      List.length_filter_le _ _
    have size : image.bytes.size = 12 := rfl
    omega
  exact ⟨visited, edges, few, whole few⟩

end WordMachine
