import WordMachine.Image
import WordMachine.Source.Assembly

/-! Words of an image by address. -/

namespace WordMachine

theorem getElem?_flatMap_toList (words : List Word) (index : Nat) {place : Nat}
    (inside : place < Word.size) :
    (words.flatMap Word.toList)[Word.size * index + place]? =
      words[index]?.bind fun w => w.toList[place]? := by
  have below : place < 4 := inside
  induction words generalizing index with
  | nil => rfl
  | cons w rest ih =>
    rw [List.flatMap_cons]
    cases index with
    | zero =>
      rw [List.getElem?_append_left (by rw [Word.length_toList]; omega)]
      simp
    | succ index =>
      have shift : Word.size * (index + 1) + place - w.toList.length =
          Word.size * index + place := by
        rw [Word.length_toList, Word.size]
        omega
      rw [List.getElem?_append_right (by rw [Word.length_toList, Word.size]; omega), shift, ih]
      rfl

theorem Aligned.eq_four_mul {address : UInt32} (aligned : Aligned address) :
    address.toNat = 4 * (address.toNat / 4) :=
  (Nat.mul_div_cancel' (Nat.dvd_of_mod_eq_zero aligned)).symm

def wordsOfBytes : List UInt8 → List Word
  | b0 :: b1 :: b2 :: b3 :: rest => ⟨b0, b1, b2, b3⟩ :: wordsOfBytes rest
  | _ => []

theorem wordsOfBytes_wordBytes (words : List Word) : wordsOfBytes (wordBytes words) = words := by
  induction words with
  | nil => rfl
  | cons w rest ih => exact congrArg (w :: ·) ih

theorem wordBytes_wordsOfBytes {bytes : List UInt8} (whole : bytes.length % Word.size = 0) :
    wordBytes (wordsOfBytes bytes) = bytes := by
  induction bytes using wordsOfBytes.induct with
  | case1 b0 b1 b2 b3 rest ih =>
    have shorter : rest.length % Word.size = 0 := by
      simp only [Word.size, List.length_cons] at whole ⊢
      omega
    exact congrArg (Word.toList ⟨b0, b1, b2, b3⟩ ++ ·) (ih shorter)
  | case2 bytes short =>
    match bytes, whole, short with
    | [], _, _ => rfl
    | [_], whole, _ | [_, _], whole, _ | [_, _, _], whole, _ => cases whole
    | b0 :: b1 :: b2 :: b3 :: rest, _, short => exact absurd rfl (short b0 b1 b2 b3 rest)

namespace Program

theorem fetch?_ofWords (words : List Word) {pc : UInt32} {index : Nat} (here : pc.toNat = 4 * index) :
    (ofWords words).fetch? pc = words[index]? := by
  have aligned : Aligned pc := by
    rw [Aligned, here]
    exact Nat.mul_mod_right 4 index
  have byte : ∀ place < 4, (words.flatMap Word.toList)[pc.toNat + place]? =
      words[index]?.bind fun w => w.toList[place]? := by
    intro place inside
    rw [here]
    exact getElem?_flatMap_toList words index inside
  rw [fetch?, if_pos aligned]
  simp only [Image.word?, ofWords, List.getElem?_toArray, byte 1 (by decide), byte 2 (by decide),
    byte 3 (by decide), show (words.flatMap Word.toList)[pc.toNat]? = _ from byte 0 (by decide)]
  cases words[index]? <;> rfl

theorem fetch?_of_not_aligned (program : Program) {pc : UInt32} (odd : ¬Aligned pc) :
    program.fetch? pc = none := by
  rw [fetch?, if_neg odd]

theorem size_ofWords (words : List Word) :
    (ofWords words).image.bytes.size = words.length * Word.size := by
  rw [ofWords, List.size_toArray, length_flatMap_toList]

theorem ofBytes_eq_error {bytes : Array UInt8} {fault : PartialWord}
    (broken : ofBytes bytes = .error fault) : bytes.size % 4 ≠ 0 ∧
      fault.message = "amount of bytes (" ++ toString bytes.size ++ ") is not divisible by four" := by
  rw [ofBytes] at broken
  split at broken
  · cases broken
  · next uneven =>
    cases broken
    exact ⟨uneven, rfl⟩

theorem bytes_of_ofBytes {bytes : Array UInt8} {program : Program}
    (read : ofBytes bytes = .ok program) : program.image.bytes = bytes := by
  rw [ofBytes] at read
  split at read
  · cases read
    rfl
  · cases read

theorem ofBytes_wordBytes (words : List Word) :
    ofBytes (wordBytes words).toArray = .ok (ofWords words) :=
  dif_pos (ofWords words).whole

def contents (program : Program) : List Word := wordsOfBytes program.image.bytes.toList

theorem contents_ofWords (words : List Word) : (ofWords words).contents = words :=
  wordsOfBytes_wordBytes words

theorem ofWords_contents (program : Program) : ofWords program.contents = program := by
  obtain ⟨⟨bytes⟩, whole⟩ := program
  have same : wordBytes (contents ⟨⟨bytes⟩, whole⟩) = bytes.toList := wordBytes_wordsOfBytes whole
  rw [ofWords]
  congr 2
  exact congrArg List.toArray same

variable {program : Program} {pc : UInt32}

theorem mapped_of_fetch? {w : Word} (fetched : program.fetch? pc = some w) :
    program.image.Mapped pc ∧ program.image.word? pc = some w := by
  rw [fetch?] at fetched
  split at fetched
  · next aligned =>
    refine ⟨⟨aligned, ?_⟩, fetched⟩
    obtain ⟨b0, first, -⟩ := Option.bind_eq_some_iff.1 fetched
    exact (Array.getElem?_eq_some_iff.1 first).1
  · cases fetched

theorem add_size_le_of_mapped (mapped : program.image.Mapped pc) :
    pc.toNat + Word.size ≤ program.image.bytes.size := by
  have whole := program.whole
  obtain ⟨aligned, inside⟩ := mapped
  unfold Aligned at aligned
  unfold Word.size at aligned whole ⊢
  omega

theorem fetch?_isSome_iff : (program.fetch? pc).isSome ↔ program.image.Mapped pc := by
  constructor
  · intro found
    obtain ⟨w, fetched⟩ := Option.isSome_iff_exists.1 found
    exact (mapped_of_fetch? fetched).1
  · intro mapped
    obtain ⟨aligned, inside⟩ := mapped
    have here := aligned.eq_four_mul
    rw [← program.ofWords_contents] at inside ⊢
    generalize program.contents = words at inside ⊢
    have within : pc.toNat / 4 < words.length := by
      rw [size_ofWords, Word.size] at inside
      omega
    rw [fetch?_ofWords words here, List.getElem?_eq_getElem within]
    rfl

theorem exists_word? (mapped : program.image.Mapped pc) : ∃ w, program.image.word? pc = some w := by
  obtain ⟨w, fetched⟩ := Option.isSome_iff_exists.1 (fetch?_isSome_iff.2 mapped)
  exact ⟨w, (mapped_of_fetch? fetched).2⟩

end Program

end WordMachine
