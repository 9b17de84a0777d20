import Mathlib.Algebra.Group.Nat.Defs
import Mathlib.Data.List.SplitBy
import WordMachine.Flow.Block
import WordMachine.Proofs.Flow.Reachability

/-! Blocks split the words that a survey visited into intervals, which are entered at the first word only
and left at the last, and which are as long as that allows. -/

namespace WordMachine

def placesBetween (start stop : UInt32) : List UInt32 :=
  (List.range' start.toNat ((stop.toNat - start.toNat) / Word.size) Word.size).map UInt32.ofNat

theorem toNat_nextWord {pc : UInt32} (room : pc.toNat + Word.size < 2 ^ 32) :
    (nextWord pc).toNat = pc.toNat + Word.size := by
  rw [nextWord, UInt32.toNat_add]
  exact Nat.mod_eq_of_lt room

theorem nextWord_inj {pc other : UInt32} (same : nextWord pc = nextWord other) : pc = other :=
  (UInt32.add_left_inj 4).1 same

theorem placesBetween_self (pc : UInt32) : placesBetween pc pc = [] := by
  rw [placesBetween, Nat.sub_self]
  rfl

theorem placesBetween_cons {start stop : UInt32} (room : start.toNat + Word.size < 2 ^ 32)
    (inside : start.toNat + Word.size ≤ stop.toNat) :
    placesBetween start stop = start :: placesBetween (nextWord start) stop := by
  have count : (stop.toNat - start.toNat) / Word.size =
      (stop.toNat - (nextWord start).toNat) / Word.size + 1 := by
    rw [toNat_nextWord room, Nat.sub_add_eq]
    unfold Word.size at inside ⊢
    omega
  rw [placesBetween, placesBetween, count, List.range'_succ, List.map_cons, UInt32.ofNat_toNat,
    toNat_nextWord room]

section Chains

variable {α : Type} {R : α → α → Prop} {first x : α} {rest : List α}

theorem eq_or_exists_before (chain : (first :: rest).IsChain R) (member : x ∈ first :: rest) :
    x = first ∨ ∃ before ∈ first :: rest, R before x := by
  induction rest generalizing first with
  | nil => exact .inl (List.mem_singleton.1 member)
  | cons second rest ih =>
    rw [List.isChain_cons_cons] at chain
    rcases List.mem_cons.1 member with same | later
    · exact .inl same
    · refine .inr ?_
      rcases ih chain.2 later with rfl | ⟨before, inside, related⟩
      · exact ⟨first, List.mem_cons_self, chain.1⟩
      · exact ⟨before, List.mem_cons_of_mem first inside, related⟩

theorem eq_or_exists_after (chain : (first :: rest).IsChain R) (member : x ∈ first :: rest) :
    x = rest.getLastD first ∨ ∃ after ∈ first :: rest, R x after := by
  induction rest generalizing first with
  | nil => exact .inl (List.mem_singleton.1 member)
  | cons second rest ih =>
    rw [List.isChain_cons_cons] at chain
    rw [List.getLastD_cons]
    rcases List.mem_cons.1 member with rfl | later
    · exact .inr ⟨second, List.mem_cons_of_mem x List.mem_cons_self, chain.1⟩
    · refine (ih chain.2 later).imp_right ?_
      rintro ⟨after, inside, related⟩
      exact ⟨after, List.mem_cons_of_mem first inside, related⟩

end Chains

theorem eq_placesBetween {start : UInt32} {rest : List UInt32}
    (chain : (start :: rest).IsChain fun before pc => pc = nextWord before)
    (room : ∀ pc ∈ start :: rest, pc.toNat + Word.size < 2 ^ 32) :
    start :: rest = placesBetween start (nextWord (rest.getLastD start)) ∧
      start.toNat + Word.size ≤ (nextWord (rest.getLastD start)).toNat := by
  induction rest generalizing start with
  | nil =>
    have here := room start List.mem_cons_self
    have last := toNat_nextWord here
    rw [List.getLastD_nil]
    refine ⟨?_, Nat.le_of_eq last.symm⟩
    rw [placesBetween_cons here (Nat.le_of_eq last.symm), placesBetween_self]
  | cons second rest ih =>
    rw [List.isChain_cons_cons] at chain
    rw [List.forall_mem_cons] at room
    obtain ⟨rfl, chain⟩ := chain
    obtain ⟨interval, long⟩ := ih chain room.2
    rw [List.getLastD_cons]
    have next := toNat_nextWord room.1
    have inside : start.toNat + Word.size ≤ (nextWord (rest.getLastD (nextWord start))).toNat := by omega
    exact ⟨by rw [placesBetween_cons room.1 inside, ← interval], inside⟩

namespace Block

def places (block : Block) : List UInt32 := placesBetween block.start block.stop

def last (block : Block) : UInt32 := block.rest.getLastD block.start

theorem start_mem (block : Block) : block.start ∈ block.addresses := List.mem_cons_self

theorem last_mem (block : Block) : block.last ∈ block.addresses := List.getLastD_mem_cons

theorem map_addresses {pieces : List (List UInt32)} (solid : [] ∉ pieces) :
    (pieces.filterMap ofAddresses?).map addresses = pieces := by
  induction pieces with
  | nil => rfl
  | cons piece pieces ih =>
    rw [List.mem_cons, not_or] at solid
    cases piece with
    | nil => exact absurd rfl solid.1
    | cons start rest => exact congrArg ((start :: rest) :: ·) (ih solid.2)

end Block

namespace Survey

variable {survey : Survey} {entries : List UInt32} {block : Block}

structure Joined (survey : Survey) (entries : List UInt32) (before pc : UInt32) : Prop where
  next : pc = nextWord before
  unentered : pc ∉ survey.starts entries
  falls : before ∉ survey.terminators ++ survey.invalid

theorem joined_iff {before pc : UInt32} : survey.Joined entries before pc ↔
    pc = nextWord before ∧ pc ∉ survey.starts entries ∧
      before ∉ survey.terminators ++ survey.invalid := by
  constructor
  · rintro ⟨next, unentered, falls⟩
    exact ⟨next, unentered, falls⟩
  · rintro ⟨next, unentered, falls⟩
    exact ⟨next, unentered, falls⟩

instance (before pc : UInt32) : Decidable (survey.Joined entries before pc) :=
  decidable_of_iff' _ joined_iff

theorem map_addresses_blocks : (survey.blocks entries).map Block.addresses =
    survey.visited.splitBy fun before pc => decide (survey.Joined entries before pc) := by
  have same : (fun before pc : UInt32 => pc == nextWord before &&
      !(survey.starts entries).contains pc && !(survey.terminators ++ survey.invalid).contains before) =
      fun before pc => decide (survey.Joined entries before pc) := by
    funext before pc
    rw [Bool.eq_iff_iff, decide_eq_true_iff, joined_iff]
    simp [and_assoc]
  rw [← same]
  exact Block.map_addresses (List.nil_notMem_splitBy _ _)

theorem flatMap_addresses (survey : Survey) (entries : List UInt32) :
    (survey.blocks entries).flatMap Block.addresses = survey.visited := by
  rw [List.flatMap_def, map_addresses_blocks, List.flatten_splitBy]

theorem isChain_of_mem_blocks (member : block ∈ survey.blocks entries) :
    block.addresses.IsChain (survey.Joined entries) := by
  have piece : block.addresses ∈ (survey.blocks entries).map Block.addresses :=
    List.mem_map_of_mem member
  rw [map_addresses_blocks] at piece
  exact (List.isChain_of_mem_splitBy piece).imp fun before pc => of_decide_eq_true

theorem isChain_blocks : (survey.blocks entries).IsChain fun block next =>
    ¬survey.Joined entries block.last next.start := by
  have cuts := List.isChain_getLast_head_splitBy
    (fun before pc => decide (survey.Joined entries before pc)) survey.visited
  rw [← map_addresses_blocks, List.isChain_map] at cuts
  refine cuts.imp ?_
  rintro block next ⟨some, other, apart⟩
  have last : block.addresses.getLast some = block.last := List.getLast_eq_getLastD some
  rw [last] at apart
  exact of_decide_eq_false apart

/-- A survey of whole words that all have an address behind them. -/
structure Roomy (survey : Survey) : Prop where
  ascending : survey.visited.Pairwise (· < ·)
  mapped : ∀ pc ∈ survey.visited, survey.image.Mapped pc
  whole : ∀ pc ∈ survey.visited, ∃ w, survey.image.word? pc = some w
  room : ∀ pc ∈ survey.visited, pc.toNat + Word.size < 2 ^ 32

theorem roomy {program : Program} (small : program.image.bytes.size < 2 ^ 32) (entries : List UInt32)
    (budget : Nat) : (program.image.survey entries budget).Roomy := by
  obtain ⟨distinct, mapped⟩ := program.image.walk_collected entries budget
  have inside : ∀ pc ∈ (program.image.survey entries budget).visited, program.image.Mapped pc :=
    fun pc visited => mapped pc (mem_visited.1 visited)
  constructor
  · exact visited_ascending distinct
  · exact inside
  · exact fun pc visited => Program.exists_word? (inside pc visited)
  · exact fun pc visited => Nat.lt_of_le_of_lt (Program.add_size_le_of_mapped (inside pc visited)) small

theorem visited_of_mem (member : block ∈ survey.blocks entries) {pc : UInt32}
    (listed : pc ∈ block.addresses) : pc ∈ survey.visited := by
  rw [← survey.flatMap_addresses entries]
  exact List.mem_flatMap.2 ⟨block, member, listed⟩

theorem exists_block (entries : List UInt32) {pc : UInt32} (visited : pc ∈ survey.visited) :
    ∃ block ∈ survey.blocks entries, pc ∈ block.addresses := by
  rw [← survey.flatMap_addresses entries] at visited
  exact List.mem_flatMap.1 visited

theorem Roomy.addresses_eq (roomy : survey.Roomy) (member : block ∈ survey.blocks entries) :
    block.addresses = block.places ∧ block.start.toNat + Word.size ≤ block.stop.toNat := by
  apply eq_placesBetween ((isChain_of_mem_blocks member).imp fun before pc joined => joined.next)
  intro pc listed
  exact roomy.room pc (visited_of_mem member listed)

theorem Roomy.toNat_stop (roomy : survey.Roomy) (member : block ∈ survey.blocks entries) :
    block.stop.toNat = block.last.toNat + Word.size :=
  toNat_nextWord (roomy.room block.last (visited_of_mem member block.last_mem))

theorem Roomy.ascending_blocks (roomy : survey.Roomy) :
    (survey.blocks entries).Pairwise fun block later => block.stop ≤ later.start := by
  have order := roomy.ascending
  rw [← survey.flatMap_addresses entries, List.pairwise_flatMap] at order
  refine order.2.imp_of_mem ?_
  intro block later member again apart
  have below : block.last < later.start := apart _ block.last_mem _ later.start_mem
  have here := (roomy.mapped block.last (visited_of_mem member block.last_mem)).1
  have there := (roomy.mapped later.start (visited_of_mem again later.start_mem)).1
  have stop := roomy.toNat_stop member
  rw [UInt32.lt_iff_toNat_lt] at below
  rw [UInt32.le_iff_toNat_le]
  unfold Aligned Word.size at here there
  unfold Word.size at stop
  omega

def Entered (survey : Survey) (entries : List UInt32) (pc : UInt32) : Prop :=
  pc ∈ entries ∨ ∃ edge ∈ survey.edges, edge.kind ≠ .fallthrough ∧ edge.target = pc

theorem entered_iff {pc : UInt32} : survey.Entered entries pc ↔ pc ∈ survey.starts entries := by
  simp only [Entered, starts, List.mem_append, List.mem_map, List.mem_filter, bne_iff_ne, and_assoc]

/-- How blocks split the words of a survey. They are intervals in ascending order that hold every visited
word once. A word that ends a block is its last one, and a word at which control may arrive is its first
one: an edge to any other comes from the word before it. No block could be longer. -/
structure Split (survey : Survey) (entries : List UInt32) (blocks : List Block) : Prop where
  bounds : ∀ block ∈ blocks, Aligned block.start ∧ Aligned block.stop ∧ block.start < block.stop
  ascending : blocks.Pairwise fun block later => block.stop ≤ later.start
  once : (blocks.flatMap Block.places).Nodup
  words : blocks.flatMap Block.places = survey.visited
  closing : ∀ block ∈ blocks, ∀ pc ∈ block.places, pc ∈ survey.terminators ∨ pc ∈ survey.invalid →
    nextWord pc = block.stop
  unentered : ∀ block ∈ blocks, ∀ pc ∈ block.places, pc ≠ block.start → ¬survey.Entered entries pc
  inner : ∀ block ∈ blocks, ∀ pc ∈ block.places, pc ≠ block.start → ∀ edge ∈ survey.edges,
    edge.target = pc → ∃ before ∈ block.places, nextWord before = pc ∧ edge = ⟨before, pc, .fallthrough⟩
  maximal : blocks.IsChain fun block next => block.stop = next.start →
    (∃ last ∈ block.places, nextWord last = block.stop ∧
      (last ∈ survey.terminators ∨ last ∈ survey.invalid)) ∨ survey.Entered entries next.start

theorem target_of_fallthrough {edge : Edge} (member : edge ∈ survey.edges) (kind : edge.kind = .fallthrough) :
    edge.target = nextWord edge.source := by
  obtain ⟨-, i, -, leads, -⟩ := mem_edges_iff.1 member
  rw [kind] at leads
  exact leads.target_eq

theorem Joined.edge_eq {before pc : UInt32} (joined : survey.Joined entries before pc) {edge : Edge}
    (member : edge ∈ survey.edges) (arrives : edge.target = pc) : edge = ⟨before, pc, .fallthrough⟩ := by
  have kind : edge.kind = .fallthrough := by
    by_contra other
    exact joined.unentered (entered_iff.1 (.inr ⟨edge, member, other, arrives⟩))
  have source : edge.source = before := by
    apply nextWord_inj
    rw [← target_of_fallthrough member kind, arrives, joined.next]
  rw [← source, ← arrives, ← kind]

theorem Roomy.split (roomy : survey.Roomy) : survey.Split entries (survey.blocks entries) := by
  have words : (survey.blocks entries).flatMap Block.places = survey.visited := by
    rw [← survey.flatMap_addresses entries]
    exact List.flatMap_congr fun block member => (roomy.addresses_eq member).1.symm
  constructor
  · intro block member
    have start := (roomy.mapped block.start (visited_of_mem member block.start_mem)).1
    have last := (roomy.mapped block.last (visited_of_mem member block.last_mem)).1
    have stop := roomy.toNat_stop member
    refine ⟨start, ?_, ?_⟩
    · unfold Aligned at last ⊢
      rw [stop, Nat.add_mod_right, last]
    · have long := (roomy.addresses_eq member).2
      rw [UInt32.lt_iff_toNat_lt]
      unfold Word.size at long
      omega
  · exact roomy.ascending_blocks
  · rw [words]
    exact roomy.ascending.imp fun below => UInt32.ne_of_lt below
  · exact words
  · intro block member pc listed closes
    rw [← (roomy.addresses_eq member).1] at listed
    rcases eq_or_exists_after (isChain_of_mem_blocks member) listed with rfl | ⟨after, -, joined⟩
    · rfl
    · exact absurd (List.mem_append.2 closes) joined.falls
  · intro block member pc listed later entered
    rw [← (roomy.addresses_eq member).1] at listed
    rcases eq_or_exists_before (isChain_of_mem_blocks member) listed with rfl | ⟨before, -, joined⟩
    · exact later rfl
    · exact joined.unentered (entered_iff.1 entered)
  · intro block member pc listed later edge drawn arrives
    rw [← (roomy.addresses_eq member).1] at listed ⊢
    rcases eq_or_exists_before (isChain_of_mem_blocks member) listed with rfl | ⟨before, inside, joined⟩
    · exact absurd rfl later
    · exact ⟨before, inside, joined.next.symm, joined.edge_eq drawn arrives⟩
  · refine isChain_blocks.imp_of_mem_imp ?_
    intro block next member _ apart meets
    by_cases entered : survey.Entered entries next.start
    · exact .inr entered
    · refine .inl ⟨block.last, (roomy.addresses_eq member).1 ▸ block.last_mem, rfl, ?_⟩
      by_contra falls
      rw [← List.mem_append] at falls
      exact apart ⟨meets.symm, entered_iff.not.1 entered, falls⟩

end Survey

/-- The blocks of an image split the words that its survey visited, whatever the entries are and whether
or not the budget was enough for all words. -/
theorem blocks_split {program : Program} (small : program.image.bytes.size < 2 ^ 32)
    (entries : List UInt32) (budget : Nat) : (program.image.survey entries budget).Split entries
      ((program.image.survey entries budget).blocks entries) :=
  (Survey.roomy small entries budget).split

theorem blocks_split_conditional :
    let program := Program.ofWords [⟨0x0C, 2, 3, 0⟩, ⟨0x0E, 0, 0, 12⟩, ⟨0x01, 1, 2, 2⟩, .fill 0xFE]
    let survey := program.image.survey [0] 5
    program.image.bytes.size < 2 ^ 32 ∧ survey.Split [0] (survey.blocks [0]) ∧
      ∃ block ∈ survey.blocks [0], block.start = 12 := by
  intro program survey
  have small : program.image.bytes.size < 2 ^ 32 := by decide
  have split : survey.Split [0] (survey.blocks [0]) := blocks_split small [0] 5
  obtain ⟨closed, -⟩ : IsLeast {places | program.image.Closed [0] places} {pc | pc ∈ survey.met} :=
    Image.walk_isLeast (by decide)
  have first : 0 ∈ survey.met := closed.entry 0 (by decide) (by decide)
  have second : 4 ∈ survey.met :=
    closed.successor 0 first (.cmp 2 3) (by decide) 4 .fallthrough (.onward nofun) (by decide)
  have jump : survey.image.instr? 4 = some (.jump (.when .equal) 12) := by decide
  have third : 12 ∈ survey.met := closed.successor 4 second _ jump 12 .conditional .taken (by decide)
  have listed : 12 ∈ (survey.blocks [0]).flatMap Block.places :=
    split.words ▸ Survey.mem_visited.2 third
  obtain ⟨block, member, inside⟩ := List.mem_flatMap.1 listed
  refine ⟨small, split, block, member, ?_⟩
  by_contra later
  have drawn : ⟨4, 12, .conditional⟩ ∈ survey.edges :=
    Survey.mem_edges_iff.2 ⟨Survey.mem_visited.2 second, _, jump, .taken, .inl ⟨_, _, rfl⟩⟩
  exact split.unentered block member 12 inside (Ne.symm later) (.inr ⟨_, drawn, nofun, rfl⟩)

end WordMachine
