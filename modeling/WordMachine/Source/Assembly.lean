import WordMachine.Source.Line
import WordMachine.Source.Operand
import WordMachine.Isa.Instr
import WordMachine.Text.Lines

/-! Assembly of a source. Every line owns one word of the image, so the address of a label is four
times the number of lines before it. Labels are collected first; their faults come before all
others. -/

namespace WordMachine

structure Assembly where
  words : List Word
  symbols : Symbols
  deriving DecidableEq, Repr

/-- The address of the word that belongs to a line, the first line being 0. -/
def slot (index : Nat) : UInt32 := UInt32.ofNat index * 4

namespace Symbols

def addLine (symbols : Symbols) (index : Nat) (line : Line) : Except Cause Symbols :=
  match line with
  | .label name =>
    if name.isEmpty then .error .emptyLabel
    else if (symbols.offset? name).isSome then .error (.duplicateLabel name)
    else .ok (symbols.declare name (slot index))
  | _ => .ok symbols

def ofLines (lines : List Line) : Except Fault Symbols :=
  lines.zipIdx.foldlM
    (fun symbols entry => (symbols.addLine entry.2 entry.1).mapError (Fault.mk (entry.2 + 1)))
    empty

end Symbols

namespace Instr

def resolve (symbols : Symbols) : Instr Reg Target → Except Cause (Instr Reg UInt32)
  | .alu f left right dst => .ok (.alu f left right dst)
  | .aluImm f imm src dst => .ok (.aluImm f imm src dst)
  | .transfer t reg addr => .ok (.transfer t reg addr)
  | .cmp left right => .ok (.cmp left right)
  | .bare b => .ok (.bare b)
  | .jump j (.literal address) => .ok (.jump j address)
  | .jump j (.label reference) =>
    match symbols.resolve? reference with
    | some address => .ok (.jump j address)
    | none => .error (.undefinedLabel ((afterDot? reference).getD reference))

end Instr

namespace Line

def word (symbols : Symbols) : Line → Except Cause Word
  | .blank | .label _ => .ok .padding
  | .statement tokens => do
    let written ← Statement.parse tokens
    let resolved ← written.resolve symbols
    pure resolved.encode

end Line

/-- One word for every line, or the first fault in an instruction. -/
def encodeLines (symbols : Symbols) (lines : List Line) : Except Fault (List Word) :=
  lines.zipIdx.mapM fun entry => (entry.1.word symbols).mapError (Fault.mk (entry.2 + 1))

def assembleLines (lines : List Line) : Except Fault Assembly := do
  let symbols ← Symbols.ofLines lines
  let words ← encodeLines symbols lines
  pure ⟨words, symbols⟩

def assemble (source : List Char) : Except Fault Assembly :=
  assembleLines ((Text.lines source).map Line.ofText)

def wordBytes (words : List Word) : List UInt8 := words.flatMap Word.toList

def Assembly.bytes (assembly : Assembly) : List UInt8 := wordBytes assembly.words

/-- The listing of an image, one instruction a line; none if some word is not an instruction. -/
def disassemble? (labels : Labels) (words : List Word) : Option (List (List Char)) :=
  words.mapM fun w => w.decode?.map (Instr.text labels)

end WordMachine
