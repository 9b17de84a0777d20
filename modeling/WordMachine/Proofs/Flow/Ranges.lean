import WordMachine.Proofs.Flow.Blocks
import WordMachine.Proofs.Flow.Lines

/-! Listings of a range of addresses. A listing shows every word of the range that the image has, and then
the place where the image has ended, if that is before the range does. It ends with the image at the latest,
and no address of the range makes the next one wrap around. -/

namespace WordMachine

/-- The lines of some words with their addresses and of an address behind the image, if there is one to
show. Every address comes with its name. -/
def rangeLines (labels : Labels) (showBytes : Bool) (shown : List (UInt32 × Word))
    (beyond : Option UInt32) : List (List Char) :=
  (shown.flatMap fun entry =>
    nameLines labels entry.1 ++ [wordLine labels showBytes entry.1 entry.2])
  ++ beyond.toList.flatMap fun pc => nameLines labels pc ++ [beyondLine pc]

def firstBeyond? (size : Nat) (start stop : UInt32) : Option UInt32 :=
  if start < stop ∧ size < stop.toNat then some (UInt32.ofNat (max start.toNat size)) else none

namespace Image

variable {image : Image} {labels : Labels} {showBytes : Bool} {pc start stop : UInt32} {w : Word}

theorem word?_eq_none (outside : image.bytes.size ≤ pc.toNat) : image.word? pc = none := by
  rw [word?, Array.getElem?_eq_none outside]
  rfl

/-- The loop of a listing, told by its rounds: each shows an address and goes on to the next word, until it
has come to `stop` or the image has ended. -/
inductive ListsIn (image : Image) (labels : Labels) (showBytes : Bool) (stop : UInt32) :
    (pc : UInt32) → (rounds : Nat) → (lines : List (List Char)) → Prop
  | stopped {pc : UInt32} (past : ¬pc < stop) : ListsIn image labels showBytes stop pc 0 []
  | ended {pc : UInt32} (before : pc < stop) (outside : image.word? pc = none) :
    ListsIn image labels showBytes stop pc 1 (nameLines labels pc ++ [beyondLine pc])
  | shown {pc : UInt32} {w : Word} {rounds : Nat} {lines : List (List Char)} (before : pc < stop)
    (found : image.word? pc = some w)
    (rest : ListsIn image labels showBytes stop (nextWord pc) rounds lines) :
    ListsIn image labels showBytes stop pc (rounds + 1)
      (nameLines labels pc ++ wordLine labels showBytes pc w :: lines)

theorem ListsIn.listFrom_eq {rounds fuel : Nat} {lines : List (List Char)}
    (lists : image.ListsIn labels showBytes stop pc rounds lines) (enough : rounds ≤ fuel) :
    image.listFrom labels showBytes stop fuel pc = lines := by
  induction lists generalizing fuel with
  | stopped past =>
    cases fuel with
    | zero => rfl
    | succ fuel => rw [listFrom, if_neg past]
  | ended before outside =>
    obtain ⟨fuel, rfl⟩ := Nat.exists_eq_add_of_le' enough
    rw [listFrom, if_pos before, line?_eq, outside, Labels.nameLine_eq]
    rfl
  | shown before found rest ih =>
    obtain ⟨fuel, rfl⟩ := Nat.exists_eq_succ_of_ne_zero (Nat.ne_zero_of_lt enough)
    rw [listFrom, if_pos before, line?_eq, found, Labels.nameLine_eq, ← ih (Nat.le_of_succ_le_succ enough)]
    rfl

/-- The words of an image at all places from `start` up to `stop`, in ascending order. -/
structure Shows (image : Image) (start stop : UInt32) (shown : List (UInt32 × Word)) : Prop where
  ascending : (shown.map Prod.fst).Pairwise (· < ·)
  places : ∀ pc, pc ∈ shown.map Prod.fst ↔
    Aligned pc ∧ start ≤ pc ∧ pc < stop ∧ pc.toNat < image.bytes.size
  words : ∀ entry ∈ shown, image.word? entry.1 = some entry.2

theorem shows_nil (empty : stop ≤ start ∨ image.bytes.size ≤ start.toNat) :
    image.Shows start stop [] := by
  refine ⟨.nil, fun pc => ?_, by simp⟩
  simp only [List.map_nil, List.not_mem_nil, false_iff, UInt32.le_iff_toNat_le,
    UInt32.lt_iff_toNat_lt] at empty ⊢
  omega

theorem Shows.cons {shown : List (UInt32 × Word)} (room : start.toNat + Word.size < 2 ^ 32)
    (aligned : Aligned start) (before : start < stop) (inside : start.toNat < image.bytes.size)
    (found : image.word? start = some w) (shows : image.Shows (nextWord start) stop shown) :
    image.Shows start stop ((start, w) :: shown) := by
  have next := toNat_nextWord room
  unfold Aligned Word.size at aligned next
  constructor
  · refine List.pairwise_cons.2 ⟨fun pc listed => ?_, shows.ascending⟩
    have later := ((shows.places pc).1 listed).2.1
    rw [UInt32.le_iff_toNat_le] at later
    change start < pc
    rw [UInt32.lt_iff_toNat_lt]
    omega
  · intro pc
    rw [UInt32.lt_iff_toNat_lt] at before
    simp only [List.map_cons, List.mem_cons, shows.places pc, Aligned, Word.size, ← UInt32.toNat_inj,
      UInt32.le_iff_toNat_le, UInt32.lt_iff_toNat_lt]
    omega
  · exact List.forall_mem_cons.2 ⟨found, shows.words⟩

theorem firstBeyond?_of_le {size : Nat} (past : stop ≤ start) : firstBeyond? size start stop = none := by
  rw [UInt32.le_iff_toNat_le] at past
  rw [firstBeyond?, if_neg]
  rw [UInt32.lt_iff_toNat_lt]
  omega

theorem firstBeyond?_of_size_le {size : Nat} (before : start < stop) (outside : size ≤ start.toNat) :
    firstBeyond? size start stop = some start := by
  have behind : size < stop.toNat := Nat.lt_of_le_of_lt outside (UInt32.lt_iff_toNat_lt.1 before)
  rw [firstBeyond?, if_pos ⟨before, behind⟩, Nat.max_eq_left outside, UInt32.ofNat_toNat]

theorem firstBeyond?_nextWord {size : Nat} (room : start.toNat + Word.size < 2 ^ 32)
    (before : start < stop) (inside : start.toNat + Word.size ≤ size) :
    firstBeyond? size (nextWord start) stop = firstBeyond? size start stop := by
  have next := toNat_nextWord room
  have same : max (nextWord start).toNat size = max start.toNat size := by
    unfold Word.size at next inside
    omega
  have alike : (nextWord start < stop ∧ size < stop.toNat) ↔ (start < stop ∧ size < stop.toNat) := by
    rw [UInt32.lt_iff_toNat_lt] at before
    rw [UInt32.lt_iff_toNat_lt, UInt32.lt_iff_toNat_lt]
    omega
  rw [firstBeyond?, firstBeyond?, same, if_congr alike rfl rfl]

theorem rangeLines_cons (labels : Labels) (showBytes : Bool) (pc : UInt32) (w : Word)
    (shown : List (UInt32 × Word)) (beyond : Option UInt32) :
    rangeLines labels showBytes ((pc, w) :: shown) beyond =
      nameLines labels pc ++ wordLine labels showBytes pc w :: rangeLines labels showBytes shown beyond := by
  simp [rangeLines]

theorem exists_listsIn_nil (labels : Labels) (showBytes : Bool)
    (empty : stop ≤ start ∨ image.bytes.size ≤ start.toNat) :
    ∃ rounds ≤ 1, image.ListsIn labels showBytes stop start rounds
      (rangeLines labels showBytes [] (firstBeyond? image.bytes.size start stop)) := by
  by_cases past : stop ≤ start
  · rw [firstBeyond?_of_le past]
    exact ⟨0, Nat.zero_le 1, .stopped (UInt32.not_lt.2 past)⟩
  · have before : start < stop := UInt32.not_le.1 past
    have outside : image.bytes.size ≤ start.toNat := empty.resolve_left past
    rw [firstBeyond?_of_size_le before outside]
    have lines : rangeLines labels showBytes [] (some start) =
        nameLines labels start ++ [beyondLine start] := List.append_nil _
    rw [lines]
    exact ⟨1, Nat.le_refl 1, .ended before (word?_eq_none outside)⟩

theorem exists_listsIn (labels : Labels) (showBytes : Bool) (stop : UInt32)
    (whole : image.bytes.size % Word.size = 0) (small : image.bytes.size < 2 ^ 32)
    (aligned : Aligned start) :
    ∃ shown rounds, image.Shows start stop shown ∧
      image.ListsIn labels showBytes stop start rounds
        (rangeLines labels showBytes shown (firstBeyond? image.bytes.size start stop)) ∧
      rounds ≤ image.bytes.size / Word.size + 1 := by
  -- The number of words that are left bounds the rounds.
  suffices bounded : ∀ left (start : UInt32), Aligned start →
      image.bytes.size ≤ start.toNat + Word.size * left →
      ∃ shown rounds, image.Shows start stop shown ∧
        image.ListsIn labels showBytes stop start rounds
          (rangeLines labels showBytes shown (firstBeyond? image.bytes.size start stop)) ∧
        rounds ≤ left + 1 by
    apply bounded _ start aligned
    rw [Nat.mul_div_cancel' (Nat.dvd_of_mod_eq_zero whole)]
    exact Nat.le_add_left _ _
  intro left
  induction left with
  | zero =>
    intro start aligned outside
    have empty : stop ≤ start ∨ image.bytes.size ≤ start.toNat := .inr outside
    obtain ⟨rounds, few, lists⟩ := exists_listsIn_nil labels showBytes empty
    exact ⟨[], rounds, shows_nil empty, lists, few⟩
  | succ left ih =>
    intro start aligned near
    by_cases empty : stop ≤ start ∨ image.bytes.size ≤ start.toNat
    · obtain ⟨rounds, few, lists⟩ := exists_listsIn_nil labels showBytes empty
      exact ⟨[], rounds, shows_nil empty, lists, by omega⟩
    · obtain ⟨later, inside⟩ := not_or.1 empty
      have before : start < stop := UInt32.not_le.1 later
      let program : Program := ⟨image, whole⟩
      have mapped : program.image.Mapped start := ⟨aligned, Nat.not_le.1 inside⟩
      have fits : start.toNat + Word.size ≤ image.bytes.size := Program.add_size_le_of_mapped mapped
      have room : start.toNat + Word.size < 2 ^ 32 := Nat.lt_of_le_of_lt fits small
      have next := toNat_nextWord room
      have onward : Aligned (nextWord start) := by
        rw [Aligned, next, Nat.add_mod_right]
        exact aligned
      obtain ⟨shown, rounds, shows, lists, few⟩ := ih (nextWord start) onward (by
        rw [next, Nat.add_assoc, Nat.add_comm Word.size]
        exact near)
      obtain ⟨w, found⟩ : ∃ w, image.word? start = some w := Program.exists_word? mapped
      refine ⟨(start, w) :: shown, rounds + 1, ?_, ?_, by omega⟩
      · exact shows.cons room aligned before (Nat.not_le.1 inside) found
      · rw [rangeLines_cons, ← firstBeyond?_nextWord room before fits]
        exact .shown before found lists

end Image

end WordMachine
