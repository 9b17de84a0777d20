import WordMachine.Isa.Instr

/-! Images: the bytes that the machine runs and the tools inspect. -/

namespace WordMachine

structure Image where
  bytes : Array UInt8
  deriving DecidableEq

namespace Image

def empty : Image := ⟨#[]⟩

def word? (image : Image) (address : UInt32) : Option Word := do
  let first := address.toNat
  let b0 ← image.bytes[first]?
  let b1 ← image.bytes[first + 1]?
  let b2 ← image.bytes[first + 2]?
  let b3 ← image.bytes[first + 3]?
  pure ⟨b0, b1, b2, b3⟩

/-- An aligned address whose first byte is in the image. -/
def Mapped (image : Image) (address : UInt32) : Prop :=
  Aligned address ∧ address.toNat < image.bytes.size

instance (image : Image) (address : UInt32) : Decidable (image.Mapped address) :=
  inferInstanceAs (Decidable (_ ∧ _))

end Image

structure Program where
  image : Image
  whole : image.bytes.size % Word.size = 0

structure PartialWord where
  length : Nat
  deriving DecidableEq, Repr

def PartialWord.message (fault : PartialWord) : String :=
  "amount of bytes (" ++ toString fault.length ++ ") is not divisible by four"

namespace Program

def empty : Program := ⟨.empty, rfl⟩

def ofBytes (bytes : Array UInt8) : Except PartialWord Program :=
  if whole : bytes.size % Word.size = 0 then .ok ⟨⟨bytes⟩, whole⟩ else .error ⟨bytes.size⟩

theorem length_flatMap_toList (words : List Word) :
    (words.flatMap Word.toList).length = words.length * Word.size := by
  induction words with
  | nil => rfl
  | cons w rest ih =>
    rw [List.flatMap_cons, List.length_append, Word.length_toList, ih, List.length_cons,
      Nat.succ_mul, Nat.add_comm]

def ofWords (words : List Word) : Program where
  image := ⟨(words.flatMap Word.toList).toArray⟩
  whole := by rw [List.size_toArray, length_flatMap_toList]; exact Nat.mul_mod_left _ _

def words (program : Program) : Nat := program.image.bytes.size / Word.size

/-- The word at the program counter; none past the end or off a word boundary. -/
def fetch? (program : Program) (pc : UInt32) : Option Word :=
  if Aligned pc then program.image.word? pc else none

end Program

end WordMachine
