import WordMachine.Flow.Report
import WordMachine.Proofs.Isa.Malformed

/-! The lines of listings and reports, spelled out. The text of a word is read off its four bytes, numbers are
given by their digits, and every line that the tools write is one of these. -/

namespace WordMachine

open Text

/-- At least six digits of base sixteen behind `0x`. -/
def addressText (pc : UInt32) : List Char := "0x".toList ++ (Nat.toDigits 16 pc.toNat).leftpad 6 '0'

def byteText (b : UInt8) : List Char := (Nat.toDigits 16 b.toNat).leftpad 2 '0'

namespace Word

def operationName (opcode : Nat) : String :=
  match opcode with
  | 0x00 => "add"
  | 0x01 => "addi"
  | 0x02 => "sub"
  | 0x03 => "subi"
  | 0x04 => "and"
  | 0x05 => "andi"
  | 0x06 => "or"
  | 0x07 => "ori"
  | 0x08 => "xor"
  | 0x09 => "xori"
  | 0x0A => "store"
  | 0x0B => "load"
  | 0x0C => "cmp"
  | 0x0D => "jmp"
  | 0x0E => "jeq"
  | 0x0F => "jne"
  | 0x10 => "jlt"
  | 0x11 => "jgt"
  | 0x12 => "jal"
  | 0xFD => "ret"
  | 0xFE => "halt"
  | _ => "noop"

/-- The operands of an instruction: a cell has four digits of base sixteen, a target goes by its name if it has
one, and every other number is decimal. -/
def operandsSpelled (labels : Labels) (w : Word) : List (List Char) :=
  let target := 65536 * w.b1.toNat + 256 * w.b2.toNat + w.b3.toNat
  let cell := 256 * w.b2.toNat + w.b3.toNat
  match w.b0.toNat with
  | 0x0A | 0x0B => [Nat.toDigits 10 w.b1.toNat, (Nat.toDigits 16 cell).leftpad 4 '0']
  | 0x0C => [Nat.toDigits 10 w.b1.toNat, Nat.toDigits 10 w.b2.toNat]
  | 0x0D | 0x0E | 0x0F | 0x10 | 0x11 | 0x12 =>
    [(labels.entries.lookup (UInt32.ofNat target)).getD (Nat.toDigits 10 target)]
  | 0xFC | 0xFD | 0xFE | 0xFF => []
  | _ => [Nat.toDigits 10 w.b1.toNat, Nat.toDigits 10 w.b2.toNat, Nat.toDigits 10 w.b3.toNat]

/-- The text of a word: an instruction with blanks between its parts, or a comment with the bytes. -/
def spelled (labels : Labels) (w : Word) : List Char :=
  if w.Malformed then
    "; invalid ".toList ++ [' '].intercalate [byteText w.b0, byteText w.b1, byteText w.b2, byteText w.b3]
  else [' '].intercalate ((operationName w.b0.toNat).toList :: w.operandsSpelled labels)

/-- The bytes of a word, from a place in a file on. -/
def StandsAt (w : Word) (file : Array UInt8) (first : Nat) : Prop :=
  (file.extract first (first + 4)).toList = [w.b0, w.b1, w.b2, w.b3]

theorem operationName_opcode (op : Op) : operationName op.opcode.toNat = op.mnemonic := by
  have every : ∀ op ∈ Op.all, operationName op.opcode.toNat = op.mnemonic := by decide
  exact every op op.mem_all

theorem operandTexts_eq {op : Op} {w : Word} {i : Instr Reg UInt32} (coded : w.b0 = op.opcode)
    (reads : op.Reads w i) (labels : Labels) :
    (i.mapReg Fin.val).operandTexts labels = w.operandsSpelled labels := by
  have cell : w.addr16.toNat = 256 * w.b2.toNat + w.b3.toNat := by
    rw [addr16_toNat, Nat.mul_comm]
  rw [operandsSpelled, coded]
  cases reads with
  | @alu f left right dst one two three =>
    rw [← val_of_reg? one, ← val_of_reg? two, ← val_of_reg? three]
    cases f <;> rfl
  | @aluImm f src dst two three =>
    rw [← val_of_reg? two, ← val_of_reg? three]
    cases f <;> rfl
  | @transfer t reg one =>
    rw [← val_of_reg? one, ← cell]
    cases t <;> rfl
  | cmp one two =>
    rw [← val_of_reg? one, ← val_of_reg? two]
    rfl
  | @jump j =>
    have target : w.target24.toNat = 65536 * w.b1.toNat + 256 * w.b2.toNat + w.b3.toNat := by
      rw [target24_toNat]
      omega
    rw [← target, UInt32.ofNat_toNat]
    cases j with
    | always | call => rfl
    | «when» condition => cases condition <;> rfl
  | @bare b => cases b <;> rfl

theorem listing_eq (labels : Labels) (w : Word) : w.listing labels = w.spelled labels := by
  rw [spelled, listing]
  cases decoded : w.decode? with
  | none =>
    rw [if_pos (w.malformed_iff.2 decoded)]
    rfl
  | some i =>
    have formed : ¬w.Malformed := by
      rw [malformed_iff, decoded]
      exact Option.some_ne_none i
    rw [if_neg formed]
    rcases spare_or_reads decoded with ⟨rfl, rfl⟩ | ⟨coded, reads⟩
    · rfl
    · have operands := operandTexts_eq coded reads labels
      rw [coded, operationName_opcode, ← operands]
      exact congrArg (fun op : Op => [' '].intercalate (op.mnemonic.toList :: _)) (i.op_mapReg Fin.val)

end Word

def nameLines (labels : Labels) (pc : UInt32) : List (List Char) :=
  match labels.entries.lookup pc with
  | some name => [name ++ [':']]
  | none => []

/-- The line of a word at an address, with or without its bytes. -/
def wordLine (labels : Labels) (showBytes : Bool) (pc : UInt32) (w : Word) : List Char :=
  let bytes := [byteText w.b0, byteText w.b1, byteText w.b2, byteText w.b3]
  addressText pc ++ ": ".toList
    ++ (if showBytes then bytes.flatMap (fun b => b ++ [' ']) ++ "  ".toList else [])
    ++ w.spelled labels

def beyondLine (pc : UInt32) : List Char := addressText pc ++ ": <oob>".toList

def textOfLines (lines : List (List Char)) : String :=
  String.ofList (lines.flatMap fun line => line ++ ['\n'])

theorem Labels.nameLine_eq (labels : Labels) (pc : UInt32) : labels.nameLine pc = nameLines labels pc := by
  rw [nameLine, nameLines, name?]
  cases labels.entries.lookup pc <;> rfl

namespace Image

variable {image : Image} {pc : UInt32} {w : Word}

theorem line?_eq (image : Image) (labels : Labels) (showBytes : Bool) (pc : UInt32) :
    image.line? labels showBytes pc = (image.word? pc).map (wordLine labels showBytes pc) := by
  refine congrArg (fun write => (image.word? pc).map write) (funext fun w => ?_)
  rw [w.listing_eq]
  rfl

theorem standsAt_of_word? (found : image.word? pc = some w) : w.StandsAt image.bytes pc.toNat := by
  simp only [word?, Option.pure_def, Option.bind_eq_bind, Option.bind_eq_some_iff,
    Option.some.injEq, ← Array.getElem?_toList] at found
  obtain ⟨b0, first, b1, second, b2, third, b3, fourth, rfl⟩ := found
  have bytes : image.bytes.toList.drop pc.toNat =
      b0 :: b1 :: b2 :: b3 :: image.bytes.toList.drop (pc.toNat + 4) := by
    rw [List.drop_eq_getElem?_toList_append, first, List.drop_eq_getElem?_toList_append, second,
      List.drop_eq_getElem?_toList_append, third, List.drop_eq_getElem?_toList_append, fourth]
    rfl
  rw [Word.StandsAt, Array.toList_extract, List.extract_eq_take_drop, bytes, Nat.add_sub_cancel_left]
  rfl

end Image

end WordMachine
