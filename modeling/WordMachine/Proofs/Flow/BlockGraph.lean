import Mathlib.Data.List.Chain
import WordMachine.Proofs.Flow.Blocks

/-! The graph of the blocks. It has each of its edges once and in order, and leads from block to block
just as the edges between the words do. -/

namespace WordMachine

theorem eraseDups_sublist {α : Type} [BEq α] (items : List α) : items.eraseDups.Sublist items := by
  cases items with
  | nil => exact .slnil
  | cons item rest =>
    rw [List.eraseDups_cons]
    exact .cons_cons item ((eraseDups_sublist _).trans List.filter_sublist)
termination_by items.length
decreasing_by exact Nat.lt_succ_of_le (List.length_filter_le _ _)

theorem nodup_eraseDups {α : Type} [BEq α] [LawfulBEq α] (items : List α) : items.eraseDups.Nodup := by
  cases items with
  | nil => exact .nil
  | cons item rest =>
    rw [List.eraseDups_cons, List.nodup_cons, List.mem_eraseDups]
    exact ⟨by simp, nodup_eraseDups _⟩
termination_by items.length
decreasing_by exact Nat.lt_succ_of_le (List.length_filter_le _ _)

theorem EdgeKind.rank_lt (kind : EdgeKind) : kind.rank < 4 := by
  cases kind <;> decide

namespace Edge

/-- Order by source, then by target, then by the tag of the kind. -/
def Precedes (first second : Edge) : Prop :=
  first.source < second.source ∨ first.source = second.source ∧
    (first.target < second.target ∨ first.target = second.target ∧ first.kind.tag < second.kind.tag)

def key (edge : Edge) : Nat :=
  (edge.source.toNat * 2 ^ 32 + edge.target.toNat) * 4 + edge.kind.rank

theorem key_inj {first second : Edge} (same : first.key = second.key) : first = second := by
  obtain ⟨source, target, kind⟩ := first
  obtain ⟨source', target', kind'⟩ := second
  have rank := kind.rank_lt
  have rank' := kind'.rank_lt
  have inside := target.toNat_lt
  have inside' := target'.toNat_lt
  simp only [key] at same
  obtain rfl : source = source' := UInt32.toNat_inj.1 (by omega)
  obtain rfl : target = target' := UInt32.toNat_inj.1 (by omega)
  have kinds : kind.rank = kind'.rank := by omega
  cases kind <;> cases kind' <;> first | rfl | cases kinds

theorem key_lt_iff {first second : Edge} : first.key < second.key ↔ first.Precedes second := by
  have rank := first.kind.rank_lt
  have rank' := second.kind.rank_lt
  have inside := first.target.toNat_lt
  have inside' := second.target.toNat_lt
  simp only [Precedes, key, ← EdgeKind.rank_lt_iff, UInt32.lt_iff_toNat_lt, ← UInt32.toNat_inj]
  omega

theorem before_iff {first second : Edge} : first.before second ↔ first.key ≤ second.key := by
  have rank := first.kind.rank_lt
  have rank' := second.kind.rank_lt
  have inside := first.target.toNat_lt
  have inside' := second.target.toNat_lt
  simp only [before, key, ne_eq, ← UInt32.toNat_inj, UInt32.lt_iff_toNat_lt]
  split
  · rw [decide_eq_true_iff]
    omega
  · split
    · rw [decide_eq_true_iff]
      omega
    · rw [decide_eq_true_iff]
      omega

end Edge

theorem pairwise_precedes (edges : List Edge) :
    (edges.mergeSort Edge.before).eraseDups.Pairwise Edge.Precedes := by
  have sorted : (edges.mergeSort Edge.before).Pairwise fun first second => first.key ≤ second.key := by
    refine (List.pairwise_mergeSort ?_ ?_ edges).imp Edge.before_iff.1
    · intro first second third
      simp only [Edge.before_iff]
      exact Nat.le_trans
    · intro first second
      simp only [Bool.or_eq_true, Edge.before_iff]
      exact Nat.le_total first.key second.key
  have strict := (sorted.sublist (eraseDups_sublist _)).and (nodup_eraseDups _)
  refine strict.imp ?_
  rintro first second ⟨ordered, different⟩
  exact Edge.key_lt_iff.1 (Nat.lt_of_le_of_ne ordered fun same => different (Edge.key_inj same))

def Linked (edges : List Edge) (source target : UInt32) : Prop :=
  ∃ edge ∈ edges, edge.source = source ∧ edge.target = target

namespace Survey

variable {survey : Survey} {entries : List UInt32} {block other : Block} {pc : UInt32}

theorem Roomy.block_unique (roomy : survey.Roomy) (member : block ∈ survey.blocks entries)
    (again : other ∈ survey.blocks entries) (here : pc ∈ block.addresses) (there : pc ∈ other.addresses) :
    block = other := by
  have distinct : ((survey.blocks entries).flatMap Block.addresses).Nodup := by
    rw [flatMap_addresses]
    exact roomy.ascending.imp fun below => UInt32.ne_of_lt below
  have apart := (List.nodup_flatMap.1 distinct).2
  have symmetric : Std.Symm (Function.onFun List.Disjoint Block.addresses) :=
    ⟨fun _ _ disjoint _ there here => disjoint here there⟩
  by_contra different
  exact apart.forall member again different here there

theorem Roomy.fromBlock_eq (roomy : survey.Roomy) (member : block ∈ survey.blocks entries) {edge : Edge}
    (here : edge.source ∈ block.addresses) :
    edge.fromBlock (survey.blocks entries) = { edge with source := block.start } := by
  rw [Edge.fromBlock]
  cases found : (survey.blocks entries).find? fun block => block.addresses.contains edge.source with
  | none =>
    have missing := List.find?_eq_none.1 found block member
    simp [here] at missing
  | some owner =>
    have owns : edge.source ∈ owner.addresses := by simpa using List.find?_some found
    rw [roomy.block_unique (List.mem_of_find?_eq_some found) member owns here]

theorem Roomy.mem_blockEdges_iff (roomy : survey.Roomy) {edge : Edge} :
    edge ∈ survey.blockEdges (survey.blocks entries) ↔ ∃ block ∈ survey.blocks entries,
      edge.source = block.start ∧ (edge.kind ≠ .fallthrough ∨
        ∃ next ∈ survey.blocks entries, next.start = edge.target) ∧
      ∃ pc ∈ block.addresses, { edge with source := pc } ∈ survey.edges := by
  simp only [blockEdges, List.mem_eraseDups, List.mem_mergeSort, List.mem_map, List.mem_filter,
    Bool.or_eq_true, bne_iff_ne, List.any_eq_true, beq_iff_eq]
  constructor
  · rintro ⟨drawn, ⟨member, leaves⟩, rfl⟩
    obtain ⟨block, owns, here⟩ := exists_block entries (mem_edges_iff.1 member).1
    rw [roomy.fromBlock_eq owns here]
    exact ⟨block, owns, rfl, leaves, drawn.source, here, member⟩
  · rintro ⟨block, owns, source, leaves, pc, here, member⟩
    refine ⟨{ edge with source := pc }, ⟨member, leaves⟩, ?_⟩
    rw [roomy.fromBlock_eq owns here, ← source]

theorem Roomy.linked (roomy : survey.Roomy) {before : UInt32} (joined : survey.Joined entries before pc)
    (first : before ∈ survey.visited) (second : pc ∈ survey.visited) : Linked survey.edges before pc := by
  obtain ⟨shut, unknown⟩ : before ∉ survey.terminators ∧ before ∉ survey.invalid := by
    simpa using joined.falls
  obtain ⟨w, word⟩ := roomy.whole before first
  cases decoded : w.decode? with
  | none => exact absurd (mem_invalid_iff.2 ⟨first, w, word, decoded⟩) unknown
  | some i =>
    have found : survey.image.instr? before = some i := by rw [Image.instr?, word, Option.bind_some, decoded]
    have falls : ¬i.Final := fun final => shut (mem_terminators_iff.2 ⟨first, i, found, final⟩)
    have leads : i.Leads before pc .fallthrough := joined.next ▸ .onward falls
    exact ⟨⟨before, pc, .fallthrough⟩,
      mem_edges_iff.2 ⟨first, i, found, leads, .inr (roomy.mapped pc second)⟩, rfl, rfl⟩

theorem Roomy.passes (roomy : survey.Roomy) (member : block ∈ survey.blocks entries)
    (listed : pc ∈ block.addresses) : Relation.ReflTransGen (Linked survey.edges) block.start pc := by
  have chain : block.addresses.IsChain (Linked survey.edges) := by
    refine (isChain_of_mem_blocks member).imp_of_mem_imp ?_
    intro before pc first second joined
    exact roomy.linked joined (visited_of_mem member first) (visited_of_mem member second)
  refine chain.induction (Relation.ReflTransGen (Linked survey.edges) block.start ·) _ ?_ ?_ pc listed
  · exact fun before pc link path => path.tail link
  · exact fun _ => .refl

theorem Roomy.words_of_link (roomy : survey.Roomy) {source target : UInt32}
    (link : Linked (survey.blockEdges (survey.blocks entries)) source target) :
    Relation.TransGen (Linked survey.edges) source target := by
  obtain ⟨edge, drawn, rfl, rfl⟩ := link
  obtain ⟨block, member, start, -, pc, inside, leaves⟩ := roomy.mem_blockEdges_iff.1 drawn
  rw [start]
  exact .tail' (roomy.passes member inside) ⟨_, leaves, rfl, rfl⟩

theorem Roomy.block_link (roomy : survey.Roomy) {edge : Edge} (drawn : edge ∈ survey.edges)
    (member : block ∈ survey.blocks entries) (inside : edge.source ∈ block.addresses)
    (again : other ∈ survey.blocks entries) (start : edge.target = other.start) :
    Linked (survey.blockEdges (survey.blocks entries)) block.start other.start := by
  refine ⟨{ edge with source := block.start }, roomy.mem_blockEdges_iff.2 ?_, rfl, start⟩
  exact ⟨block, member, rfl, .inr ⟨other, again, start.symm⟩, edge.source, inside, drawn⟩

theorem Roomy.blocks_of_words (roomy : survey.Roomy) {source target : UInt32}
    (path : Relation.ReflTransGen (Linked survey.edges) source target)
    (member : block ∈ survey.blocks entries) (here : source ∈ block.addresses)
    (again : other ∈ survey.blocks entries) (there : target ∈ other.addresses) :
    Relation.ReflTransGen (Linked (survey.blockEdges (survey.blocks entries))) block.start other.start := by
  induction path generalizing other with
  | refl =>
    rw [roomy.block_unique member again here there]
  | @tail middle target path link ih =>
    obtain ⟨edge, drawn, rfl, rfl⟩ := link
    obtain ⟨between, owns, inside⟩ := exists_block entries (mem_edges_iff.1 drawn).1
    have arrived := ih owns inside
    rcases eq_or_exists_before (isChain_of_mem_blocks again) there with start | ⟨before, close, joined⟩
    · exact arrived.tail (roomy.block_link drawn owns inside again start)
    · -- Inside a block only its own fallthrough arrives, so the way has not left the block.
      have source : edge.source = before := congrArg Edge.source (joined.edge_eq drawn rfl)
      rw [roomy.block_unique again owns close (source ▸ inside)]
      exact arrived

theorem Roomy.transGen_iff (roomy : survey.Roomy) (member : block ∈ survey.blocks entries)
    (again : other ∈ survey.blocks entries) :
    Relation.TransGen (Linked survey.edges) block.start other.start ↔
      Relation.TransGen (Linked (survey.blockEdges (survey.blocks entries))) block.start other.start := by
  constructor
  · intro path
    obtain ⟨middle, before, edge, drawn, rfl, start⟩ := Relation.TransGen.tail'_iff.1 path
    obtain ⟨between, owns, inside⟩ := exists_block entries (mem_edges_iff.1 drawn).1
    exact .tail' (roomy.blocks_of_words before member block.start_mem owns inside)
      (roomy.block_link drawn owns inside again start)
  · intro path
    exact path.lift' id fun _ _ => roomy.words_of_link

theorem start_of_entered (entered : survey.Entered entries pc) (visited : pc ∈ survey.visited) :
    ∃ block ∈ survey.blocks entries, block.start = pc := by
  obtain ⟨block, member, inside⟩ := exists_block entries visited
  rcases eq_or_exists_before (isChain_of_mem_blocks member) inside with rfl | ⟨before, -, joined⟩
  · exact ⟨block, member, rfl⟩
  · exact absurd (entered_iff.1 entered) joined.unentered

end Survey

/-- The edges between the blocks of an image are in strict order. They lead from block to block or out of
the image, and from the start of one block to the start of another as the edges between the words do. -/
theorem blockEdges_reach {program : Program} (small : program.image.bytes.size < 2 ^ 32)
    (entries : List UInt32) {budget : Nat} (large : program.words < budget) :
    let survey := program.image.survey entries budget
    let blocks := survey.blocks entries
    let edges := survey.blockEdges blocks
    edges.Pairwise Edge.Precedes ∧
      (∀ edge ∈ edges, ∃ block ∈ blocks, block.start = edge.source) ∧
      (∀ edge ∈ edges, (∃ block ∈ blocks, block.start = edge.target) ∨ ¬program.image.Mapped edge.target) ∧
      ∀ block ∈ blocks, ∀ other ∈ blocks,
        (Relation.ReflTransGen (Linked survey.edges) block.start other.start ↔
          Relation.ReflTransGen (Linked edges) block.start other.start) ∧
        (Relation.TransGen (Linked survey.edges) block.start other.start ↔
          Relation.TransGen (Linked edges) block.start other.start) := by
  intro survey blocks edges
  have roomy : survey.Roomy := Survey.roomy small entries budget
  refine ⟨pairwise_precedes _, ?_, ?_, ?_⟩
  · intro edge drawn
    obtain ⟨block, member, start, -⟩ := roomy.mem_blockEdges_iff.1 drawn
    exact ⟨block, member, start.symm⟩
  · intro edge drawn
    obtain ⟨block, member, start, leaves, pc, inside, word⟩ := roomy.mem_blockEdges_iff.1 drawn
    by_cases mapped : program.image.Mapped edge.target
    · rcases leaves with jumps | ⟨next, again, same⟩
      · have visited := Survey.target_visited (Program.affordable large) word mapped
        exact .inl (Survey.start_of_entered (.inr ⟨_, word, jumps, rfl⟩) visited)
      · exact .inl ⟨next, again, same⟩
    · exact .inr mapped
  · intro block member other again
    have proper := roomy.transGen_iff member again
    refine ⟨?_, proper⟩
    rw [Relation.reflTransGen_iff_eq_or_transGen, Relation.reflTransGen_iff_eq_or_transGen, proper]

theorem blockEdges_reach_loop :
    let program := Program.ofWords
      [⟨0x0C, 2, 3, 0⟩, ⟨0x0E, 0, 0, 12⟩, ⟨0x0D, 0, 0, 0⟩, ⟨0x12, 0, 16, 0⟩, .fill 0xFE]
    let survey := program.image.survey [0] 6
    let edges := survey.blockEdges (survey.blocks [0])
    program.image.bytes.size < 2 ^ 32 ∧ program.words < 6 ∧ edges.Pairwise Edge.Precedes ∧
      Relation.TransGen (Linked edges) 0 0 ∧ Relation.TransGen (Linked edges) 0 12 := by
  intro program survey edges
  have small : program.image.bytes.size < 2 ^ 32 := by decide
  have large : program.words < 6 := by decide
  obtain ⟨ordered, -, -, reach⟩ := blockEdges_reach small [0] large
  obtain ⟨closed, -⟩ : IsLeast {places | program.image.Closed [0] places} {pc | pc ∈ survey.met} :=
    Image.walk_isLeast (by decide)
  have compare : survey.image.instr? 0 = some (.cmp 2 3) := by decide
  have leave : survey.image.instr? 4 = some (.jump (.when .equal) 12) := by decide
  have back : survey.image.instr? 8 = some (.jump .always 0) := by decide
  have first : 0 ∈ survey.met := closed.entry 0 (by decide) (by decide)
  have second : 4 ∈ survey.met :=
    closed.successor 0 first _ compare 4 .fallthrough (.onward nofun) (by decide)
  have third : 8 ∈ survey.met :=
    closed.successor 4 second _ leave 8 .fallthrough (.onward nofun) (by decide)
  have other : 12 ∈ survey.met := closed.successor 4 second _ leave 12 .conditional .taken (by decide)
  have linked : ∀ pc ∈ survey.met, ∀ i, survey.image.instr? pc = some i → ∀ target kind,
      i.Leads pc target kind → survey.image.Mapped target → Linked survey.edges pc target := by
    intro pc met i found target kind leads mapped
    exact ⟨⟨pc, target, kind⟩,
      Survey.mem_edges_iff.2 ⟨Survey.mem_visited.2 met, i, found, leads, .inr mapped⟩, rfl, rfl⟩
  have onward : Linked survey.edges 0 4 :=
    linked 0 first _ compare 4 .fallthrough (.onward nofun) (by decide)
  have further : Linked survey.edges 4 8 :=
    linked 4 second _ leave 8 .fallthrough (.onward nofun) (by decide)
  have again : Linked survey.edges 8 0 := linked 8 third _ back 0 .branch .always (by decide)
  have jump : ⟨4, 12, .conditional⟩ ∈ survey.edges :=
    Survey.mem_edges_iff.2 ⟨Survey.mem_visited.2 second, _, leave, .taken, .inl ⟨_, _, rfl⟩⟩
  have away : Linked survey.edges 4 12 := ⟨_, jump, rfl, rfl⟩
  obtain ⟨block, member, start⟩ : ∃ block ∈ survey.blocks [0], block.start = 0 :=
    Survey.start_of_entered (.inl (List.mem_singleton.2 rfl)) (Survey.mem_visited.2 first)
  obtain ⟨next, follows, landed⟩ : ∃ block ∈ survey.blocks [0], block.start = 12 :=
    Survey.start_of_entered (.inr ⟨_, jump, nofun, rfl⟩) (Survey.mem_visited.2 other)
  have loop := (reach block member block member).2.1
  have leads := (reach block member next follows).2.1
  rw [start] at loop leads
  rw [landed] at leads
  refine ⟨small, large, ordered, loop ?_, leads ?_⟩
  · exact ((Relation.TransGen.single onward).tail further).tail again
  · exact (Relation.TransGen.single onward).tail away

end WordMachine
