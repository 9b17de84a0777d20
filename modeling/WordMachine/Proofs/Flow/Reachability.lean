import Mathlib.Data.List.Pairwise
import Mathlib.Order.Bounds.Basic
import WordMachine.Proofs.Flow.Closure
import WordMachine.Proofs.Machine.Fetch

/-! The survey of an image is the least one. The walk always comes to its end, and with a budget for
every word it meets exactly what static control flow reaches from the entries. -/

namespace WordMachine

namespace Instr

variable {i : Instr Reg UInt32} {pc target : UInt32} {kind : EdgeKind}

def IsJump (i : Instr Reg UInt32) : Prop := ∃ j target, i = .jump j target

inductive Final : Instr Reg UInt32 → Prop
  | jump {target : UInt32} : Final (.jump .always target)
  | ret : Final (.bare .ret)
  | halt : Final (.bare .halt)

theorem final_iff : i.Final ↔ i.op.endsBlock := by
  constructor
  · intro final
    cases final <;> rfl
  · intro ends
    cases i with
    | jump j target =>
      cases j with
      | always => exact .jump
      | when | call => cases ends
    | bare b =>
      cases b with
      | ret => exact .ret
      | halt => exact .halt
      | noop => cases ends
    | alu | aluImm | transfer | cmp => cases ends

/-- Where an instruction at `pc` may send control, as far as its word can tell, and along which kind of
edge. Where a return goes its word does not tell. -/
inductive Leads (pc : UInt32) : Instr Reg UInt32 → UInt32 → EdgeKind → Prop
  | always {target : UInt32} : Leads pc (.jump .always target) target .branch
  | taken {condition : Condition} {target : UInt32} :
    Leads pc (.jump (.when condition) target) target .conditional
  | called {target : UInt32} : Leads pc (.jump .call target) target .call
  | onward {i : Instr Reg UInt32} (falls : ¬i.Final) : Leads pc i (nextWord pc) .fallthrough

theorem leads_plain_iff (plain : ¬i.IsJump) (falls : ¬i.Final) :
    i.Leads pc target kind ↔ target = nextWord pc ∧ kind = .fallthrough := by
  constructor
  · intro leads
    cases leads with
    | always | taken | called => exact absurd ⟨_, _, rfl⟩ plain
    | onward => exact ⟨rfl, rfl⟩
  · rintro ⟨rfl, rfl⟩
    exact .onward falls

theorem Leads.target_eq (leads : i.Leads pc target .fallthrough) : target = nextWord pc := by
  cases leads
  rfl

theorem not_leads (plain : ¬i.IsJump) (final : i.Final) : ¬i.Leads pc target kind := by
  intro leads
  cases leads with
  | always | taken | called => exact plain ⟨_, _, rfl⟩
  | onward falls => exact falls final

end Instr

namespace Image

variable {image : Image} {pc : UInt32} {i : Instr Reg UInt32} {edge : Edge}

theorem edgesOf_plain (plain : ¬i.IsJump) (falls : ¬i.Final) : image.edgesOf pc i =
    if image.Mapped (nextWord pc) then [⟨pc, nextWord pc, .fallthrough⟩] else [] := by
  cases i with
  | alu | aluImm | transfer | cmp => rfl
  | jump j target => exact absurd ⟨j, target, rfl⟩ plain
  | bare b =>
    cases b with
    | ret => exact absurd .ret falls
    | halt => exact absurd .halt falls
    | noop => rfl

theorem edgesOf_final (plain : ¬i.IsJump) (final : i.Final) : image.edgesOf pc i = [] := by
  cases final with
  | jump => exact absurd ⟨_, _, rfl⟩ plain
  | ret | halt => rfl

theorem mem_edgesOf_jump_iff {j : Jump} {destination : UInt32} :
    edge ∈ image.edgesOf pc (.jump j destination) ↔
      edge.source = pc ∧ Instr.Leads pc (.jump j destination) edge.target edge.kind := by
  obtain ⟨source, target, kind⟩ := edge
  constructor
  · intro member
    cases j with
    | always =>
      cases List.mem_singleton.1 member
      exact ⟨rfl, .always⟩
    | when condition =>
      rcases List.mem_pair.1 member with same | same
      · cases same
        exact ⟨rfl, .taken⟩
      · cases same
        exact ⟨rfl, .onward nofun⟩
    | call =>
      rcases List.mem_pair.1 member with same | same
      · cases same
        exact ⟨rfl, .called⟩
      · cases same
        exact ⟨rfl, .onward nofun⟩
  · rintro ⟨here, leads⟩
    obtain rfl : source = pc := here
    change Instr.Leads source _ target kind at leads
    generalize shape : Instr.jump j destination = i at leads
    cases leads with
    | always | taken | called =>
      cases shape
      exact List.mem_cons_self
    | onward falls =>
      subst shape
      cases j with
      | always => exact absurd .jump falls
      | when | call => exact List.mem_cons_of_mem _ List.mem_cons_self

theorem mem_edgesOf_iff : edge ∈ image.edgesOf pc i ↔ edge.source = pc ∧
    i.Leads pc edge.target edge.kind ∧ (i.IsJump ∨ image.Mapped edge.target) := by
  by_cases jumps : i.IsJump
  · obtain ⟨j, destination, rfl⟩ := jumps
    have jump : Instr.IsJump (.jump j destination) := ⟨j, destination, rfl⟩
    simp only [mem_edgesOf_jump_iff, jump, true_or, and_true]
  by_cases final : i.Final
  · simp only [edgesOf_final jumps final, List.not_mem_nil, Instr.not_leads jumps final, false_and,
      and_false]
  obtain ⟨source, target, kind⟩ := edge
  rw [edgesOf_plain jumps final, Instr.leads_plain_iff jumps final]
  split <;> grind

theorem mem_edgesAt_iff : edge ∈ image.edgesAt pc ↔ edge.source = pc ∧
    ∃ i, image.instr? pc = some i ∧ i.Leads pc edge.target edge.kind ∧
      (i.IsJump ∨ image.Mapped edge.target) := by
  rw [edgesAt]
  cases image.instr? pc with
  | none => simp
  | some i => simp [mem_edgesOf_iff]

theorem edgesAt_few (image : Image) (pc : UInt32) :
    (image.edgesAt pc).Nodup ∧ (image.edgesAt pc).length ≤ 2 := by
  rw [edgesAt]
  cases image.instr? pc with
  | none => exact ⟨.nil, Nat.zero_le 2⟩
  | some i =>
    by_cases jumps : i.IsJump
    · obtain ⟨j, destination, rfl⟩ := jumps
      have apart : ∀ kind, kind ≠ .fallthrough →
          [(⟨pc, destination, kind⟩ : Edge), ⟨pc, nextWord pc, .fallthrough⟩].Nodup := by
        intro kind other
        simp [other]
      cases j with
      | always => exact ⟨List.nodup_singleton _, Nat.le_succ 1⟩
      | when condition => exact ⟨apart .conditional (by decide), Nat.le_refl 2⟩
      | call => exact ⟨apart .call (by decide), Nat.le_refl 2⟩
    by_cases final : i.Final
    · simp [edgesOf_final jumps final]
    · simp only [edgesOf_plain jumps final]
      split <;> simp

structure Collected (image : Image) (seen : List UInt32) : Prop where
  distinct : seen.Nodup
  mapped : ∀ pc ∈ seen, image.Mapped pc

theorem collected_nil (image : Image) : image.Collected [] := ⟨.nil, by simp⟩

theorem Collected.cons {seen : List UInt32} (collected : image.Collected seen) (mapped : image.Mapped pc)
    (fresh : pc ∉ seen) : image.Collected (pc :: seen) where
  distinct := List.nodup_cons.2 ⟨fresh, collected.distinct⟩
  mapped := List.forall_mem_cons.2 ⟨mapped, collected.mapped⟩

theorem walkFrom_collected {budget : Nat} {queue seen : List UInt32} (collected : image.Collected seen) :
    image.Collected (image.walkFrom budget queue seen) := by
  fun_induction walkFrom image budget queue seen with
  | case1 | case2 => exact collected
  | case3 budget seen pc rest funded found smaller cost ih => exact ih (collected.cons found.1 found.2)
  | case4 budget seen pc rest funded known ih => exact ih collected

theorem walk_collected (image : Image) (entries : List UInt32) (budget : Nat) :
    image.Collected (image.walk entries budget) := by
  have collected : image.Collected (image.walkFrom budget entries []) :=
    walkFrom_collected image.collected_nil
  obtain ⟨distinct, mapped⟩ := collected
  exact ⟨List.nodup_reverse.2 distinct, fun pc member => mapped pc (List.mem_reverse.1 member)⟩

/-- The loop of a walk, told by its rounds: each takes one address off the queue, until the queue or the
budget is empty. -/
inductive EndsIn (image : Image) : (budget : Nat) → (queue seen : List UInt32) → (rounds : Nat) →
    (met : List UInt32) → Prop
  | empty {budget : Nat} {seen : List UInt32} : EndsIn image budget [] seen 0 seen
  | spent {queue seen : List UInt32} : EndsIn image 0 queue seen 0 seen
  | undecoded {budget rounds : Nat} {pc : UInt32} {queue seen met : List UInt32} (mapped : image.Mapped pc)
    (fresh : pc ∉ seen) (unknown : image.instr? pc = none)
    (rest : EndsIn image (budget + 1) queue (pc :: seen) rounds met) :
    EndsIn image (budget + 1) (pc :: queue) seen (rounds + 1) met
  | decoded {budget rounds : Nat} {pc : UInt32} {i : Instr Reg UInt32} {queue seen met : List UInt32}
    (mapped : image.Mapped pc) (fresh : pc ∉ seen) (found : image.instr? pc = some i)
    (rest : EndsIn image budget (queue ++ (image.edgesOf pc i).map Edge.target) (pc :: seen) rounds met) :
    EndsIn image (budget + 1) (pc :: queue) seen (rounds + 1) met
  | dropped {budget rounds : Nat} {pc : UInt32} {queue seen met : List UInt32}
    (known : ¬(image.Mapped pc ∧ pc ∉ seen))
    (rest : EndsIn image (budget + 1) queue seen rounds met) :
    EndsIn image (budget + 1) (pc :: queue) seen (rounds + 1) met

theorem exists_endsIn (budget : Nat) (queue : List UInt32) {seen : List UInt32}
    (collected : image.Collected seen) :
    ∃ rounds, image.EndsIn budget queue seen rounds (image.walkFrom budget queue seen) ∧
      rounds + 2 * seen.length ≤ queue.length + 2 * ((image.bytes.size + 3) / 4) := by
  have few := length_le_of_mapped collected.distinct collected.mapped
  fun_induction walkFrom image budget queue seen with
  | case1 budget seen => exact ⟨0, .empty, by omega⟩
  | case2 seen pc rest => exact ⟨0, .spent, by omega⟩
  | case3 budget seen pc rest funded found smaller cost ih =>
    have further := collected.cons found.1 found.2
    obtain ⟨rounds, ends, bounded⟩ := ih further (length_le_of_mapped further.distinct further.mapped)
    have branches := (image.edgesAt_few pc).2
    simp only [List.length_append, List.length_map, List.length_cons] at bounded ⊢
    obtain ⟨left, rfl⟩ := Nat.exists_eq_succ_of_ne_zero funded
    refine ⟨rounds + 1, ?_, by omega⟩
    cases decoded : image.instr? pc with
    | none =>
      have none : image.edgesAt pc = [] := by rw [edgesAt, decoded]
      have cost : cost = 0 := by simp [cost, decoded]
      rw [cost, none, List.map_nil, List.append_nil] at ends
      rw [cost, none, List.map_nil, List.append_nil]
      exact .undecoded found.1 found.2 decoded ends
    | some i =>
      have edges := edgesAt_of_instr? decoded
      have cost : cost = 1 := by simp [cost, decoded]
      rw [cost, edges] at ends
      rw [cost, edges]
      exact .decoded found.1 found.2 decoded ends
  | case4 budget seen pc rest funded known ih =>
    obtain ⟨rounds, ends, bounded⟩ := ih collected few
    obtain ⟨left, rfl⟩ := Nat.exists_eq_succ_of_ne_zero funded
    exact ⟨rounds + 1, .dropped known ends, by simp only [List.length_cons]; omega⟩

/-- A set of addresses that holds every entry inside the image, and every address inside the image to
which one of its words leads. -/
structure Closed (image : Image) (entries : List UInt32) (places : Set UInt32) : Prop where
  entry : ∀ pc ∈ entries, image.Mapped pc → pc ∈ places
  successor : ∀ pc ∈ places, ∀ i, image.instr? pc = some i → ∀ target kind, i.Leads pc target kind →
    image.Mapped target → target ∈ places

theorem Closed.target_mem {entries : List UInt32} {places : Set UInt32}
    (closed : image.Closed entries places) (here : pc ∈ places) (leaves : edge ∈ image.edgesAt pc)
    (mapped : image.Mapped edge.target) : edge.target ∈ places := by
  obtain ⟨-, i, found, leads, -⟩ := mem_edgesAt_iff.1 leaves
  exact closed.successor pc here i found edge.target edge.kind leads mapped

theorem walkFrom_subset {entries : List UInt32} {places : Set UInt32}
    (closed : image.Closed entries places) {budget : Nat} {queue seen : List UInt32}
    (inside : ∀ pc ∈ seen, pc ∈ places) (waiting : ∀ pc ∈ queue, image.Mapped pc → pc ∈ places) :
    ∀ pc ∈ image.walkFrom budget queue seen, pc ∈ places := by
  fun_induction walkFrom image budget queue seen with
  | case1 | case2 => exact inside
  | case3 budget seen pc rest funded found smaller cost ih =>
    rw [List.forall_mem_cons] at waiting
    have here := waiting.1 found.1
    apply ih (List.forall_mem_cons.2 ⟨here, inside⟩)
    intro target listed mapped
    rcases List.mem_append.1 listed with before | added
    · exact waiting.2 target before mapped
    · obtain ⟨edge, leaves, rfl⟩ := List.mem_map.1 added
      exact closed.target_mem here leaves mapped
  | case4 budget seen pc rest funded known ih => exact ih inside (List.forall_mem_cons.1 waiting).2

theorem Explored.closed {entries met : List UInt32} (explored : image.Explored met)
    (entered : ∀ pc ∈ entries, image.Mapped pc → pc ∈ met) :
    image.Closed entries {pc | pc ∈ met} where
  entry := entered
  successor := by
    intro pc member i found target kind leads mapped
    exact explored.covered pc member ⟨pc, target, kind⟩
      (mem_edgesAt_iff.2 ⟨rfl, i, found, leads, .inr mapped⟩) mapped

/-- With a budget for every word the walk meets the least closed set. -/
theorem walk_isLeast {entries : List UInt32} {budget : Nat}
    (affordable : image.bytes.size + 3 < 4 * budget) :
    IsLeast {places | image.Closed entries places} {pc | pc ∈ image.walk entries budget} := by
  obtain ⟨explored, entered⟩ := walk_explored entries affordable
  refine ⟨explored.closed entered, ?_⟩
  intro places closed pc member
  exact walkFrom_subset closed (by simp) closed.entry pc (List.mem_reverse.1 member)

end Image

theorem pairwise_ascending (addresses : List UInt32) : (ascending addresses).Pairwise (· ≤ ·) := by
  refine (List.pairwise_mergeSort ?_ ?_ addresses).imp of_decide_eq_true
  · simpa using fun a b c => UInt32.le_trans
  · simpa using UInt32.le_total

namespace Survey

variable {survey : Survey} {pc : UInt32}

theorem visited_ordered (survey : Survey) : survey.visited.Pairwise (· ≤ ·) :=
  pairwise_ascending survey.met

theorem visited_perm (survey : Survey) : survey.visited.Perm survey.met := survey.met.mergeSort_perm _

theorem visited_ascending (distinct : survey.met.Nodup) : survey.visited.Pairwise (· < ·) := by
  have unlike : survey.visited.Nodup := survey.visited_perm.nodup_iff.2 distinct
  exact (survey.visited_ordered.and unlike).imp fun both => UInt32.lt_of_le_of_ne both.1 both.2

theorem mem_visitedWhere_bare_iff {b : Bare} : pc ∈ survey.visitedWhere (· == .bare b) ↔
    pc ∈ survey.visited ∧ survey.image.instr? pc = some (.bare b) := by
  rw [mem_visitedWhere_iff]
  refine and_congr_right fun _ => ⟨?_, fun found => ⟨.bare b, found, beq_self_eq_true _⟩⟩
  rintro ⟨i, found, same⟩
  cases i with
  | bare other =>
    obtain rfl : other = b := Op.bare.inj (eq_of_beq same)
    exact found
  | alu | aluImm | transfer | cmp | jump => cases eq_of_beq same

theorem mem_terminators_iff : pc ∈ survey.terminators ↔
    pc ∈ survey.visited ∧ ∃ i, survey.image.instr? pc = some i ∧ i.Final := by
  simp only [terminators, mem_visitedWhere_iff, Instr.final_iff]

theorem mem_edges_iff {edge : Edge} : edge ∈ survey.edges ↔ edge.source ∈ survey.visited ∧
    ∃ i, survey.image.instr? edge.source = some i ∧ i.Leads edge.source edge.target edge.kind ∧
      (i.IsJump ∨ survey.image.Mapped edge.target) := by
  rw [edges, List.mem_flatMap]
  constructor
  · rintro ⟨pc, met, leaves⟩
    obtain ⟨rfl, known⟩ := Image.mem_edgesAt_iff.1 leaves
    exact ⟨mem_visited.2 met, known⟩
  · rintro ⟨visited, known⟩
    exact ⟨edge.source, mem_visited.1 visited, Image.mem_edgesAt_iff.2 ⟨rfl, known⟩⟩

theorem nodup_edges (distinct : survey.met.Nodup) : survey.edges.Nodup := by
  rw [edges, List.nodup_flatMap]
  refine ⟨fun pc _ => (survey.image.edgesAt_few pc).1, distinct.imp ?_⟩
  intro pc other different edge leaves again
  have here := (Image.mem_edgesAt_iff.1 leaves).1
  have there := (Image.mem_edgesAt_iff.1 again).1
  exact different (here.symm.trans there)

theorem target_visited {image : Image} {entries : List UInt32} {budget : Nat}
    (affordable : image.bytes.size + 3 < 4 * budget) {edge : Edge}
    (drawn : edge ∈ (image.survey entries budget).edges) (mapped : image.Mapped edge.target) :
    edge.target ∈ (image.survey entries budget).visited := by
  obtain ⟨explored, -⟩ := Image.walk_explored entries affordable
  obtain ⟨pc, met, leaves⟩ := List.mem_flatMap.1 drawn
  exact mem_visited.2 (explored.covered pc met edge leaves mapped)

/-- A survey that is what its image and its entries make it. Its words are the least closed set, each is
listed as what it is, and every place to which one of them may lead is at the end of one edge of its kind.
Only an edge that goes on from a word that is no jump is left out where the image ends. -/
structure Exact (program : Program) (entries : List UInt32) (survey : Survey) : Prop where
  ascending : survey.visited.Pairwise (· < ·)
  least : IsLeast {places | program.image.Closed entries places} {pc | pc ∈ survey.visited}
  invalid : ∀ pc, pc ∈ survey.invalid ↔
    pc ∈ survey.visited ∧ ∃ w, program.fetch? pc = some w ∧ w.decode? = none
  rets : ∀ pc, pc ∈ survey.rets ↔ pc ∈ survey.visited ∧ program.image.instr? pc = some (.bare .ret)
  halts : ∀ pc, pc ∈ survey.halts ↔ pc ∈ survey.visited ∧ program.image.instr? pc = some (.bare .halt)
  terminators : ∀ pc, pc ∈ survey.terminators ↔
    pc ∈ survey.visited ∧ ∃ i, program.image.instr? pc = some i ∧ i.Final
  once : survey.edges.Nodup
  edges : ∀ edge, edge ∈ survey.edges ↔ edge.source ∈ survey.visited ∧
    ∃ i, program.image.instr? edge.source = some i ∧ i.Leads edge.source edge.target edge.kind ∧
      (i.IsJump ∨ program.image.Mapped edge.target)

end Survey

theorem Program.affordable {program : Program} {budget : Nat} (large : program.words < budget) :
    program.image.bytes.size + 3 < 4 * budget := by
  have whole : program.image.bytes.size % 4 = 0 := program.whole
  have words : program.words = program.image.bytes.size / 4 := rfl
  omega

/-- The walk of any image ends within two rounds for a word and one for an entry, whatever its budget. A
survey with a budget for every word is exact. -/
theorem survey_exact (program : Program) (entries : List UInt32) :
    (∀ budget, ∃ rounds ≤ entries.length + 2 * program.words, ∃ met,
      program.image.EndsIn budget entries [] rounds met ∧
        met.reverse = program.image.walk entries budget) ∧
      ∀ budget, program.words < budget →
        (program.image.survey entries budget).Exact program entries := by
  constructor
  · intro budget
    obtain ⟨rounds, ends, bounded⟩ := Image.exists_endsIn budget entries program.image.collected_nil
    have whole : program.image.bytes.size % 4 = 0 := program.whole
    have words : program.words = program.image.bytes.size / 4 := rfl
    rw [List.length_nil] at bounded
    exact ⟨rounds, by omega, _, ends, rfl⟩
  · intro budget large
    have distinct := (program.image.walk_collected entries budget).distinct
    have mapped := (program.image.walk_collected entries budget).mapped
    constructor
    · exact Survey.visited_ascending distinct
    · simp only [Survey.mem_visited]
      exact Image.walk_isLeast (Program.affordable large)
    · intro pc
      rw [Survey.mem_invalid_iff]
      refine and_congr_right fun visited => ?_
      rw [Program.fetch?, if_pos (mapped pc (Survey.mem_visited.1 visited)).1]
      rfl
    · exact fun pc => Survey.mem_visitedWhere_bare_iff
    · exact fun pc => Survey.mem_visitedWhere_bare_iff
    · exact fun pc => Survey.mem_terminators_iff
    · exact Survey.nodup_edges distinct
    · exact fun edge => Survey.mem_edges_iff

theorem survey_exact_branch :
    let program := Program.ofWords [⟨0x0E, 0, 0, 8⟩, ⟨0x0D, 0, 1, 0⟩, .fill 0xFD]
    let survey := program.image.survey [0] 4
    program.words < 4 ∧ survey.Exact program [0] ∧ ⟨4, 256, .branch⟩ ∈ survey.edges := by
  intro program survey
  have large : program.words < 4 := by decide
  have exact := (survey_exact program [0]).2 4 large
  have first : 0 ∈ survey.visited := exact.least.1.entry 0 (by decide) (by decide)
  have second : 4 ∈ survey.visited :=
    exact.least.1.successor 0 first (.jump (.when .equal) 8) (by decide) 4 .fallthrough (.onward nofun)
      (by decide)
  have jump : program.image.instr? 4 = some (.jump .always 256) := by decide
  exact ⟨large, exact, (exact.edges ⟨4, 256, .branch⟩).2 ⟨second, _, jump, .always, .inl ⟨_, _, rfl⟩⟩⟩

end WordMachine
