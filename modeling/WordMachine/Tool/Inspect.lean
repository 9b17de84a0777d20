import WordMachine.Files.Folder
import WordMachine.Flow.Report
import WordMachine.Json.SymbolFile
import WordMachine.Text.Lines
import WordMachine.Tool.Run

/-! The disassembler as a tool: lists a range of an image, or analyses its flow of control. -/

namespace WordMachine.Tool

open Text

inductive WindowFault
  | skipPastEnd
  | skipUnaligned
  | lengthPastEnd
  | partialWord (length : Nat)
  deriving DecidableEq, Repr

def WindowFault.message : WindowFault → String
  | .skipPastEnd => "--skip exceeds file size"
  | .skipUnaligned => "--skip must be a multiple of 4"
  | .lengthPastEnd => "--len exceeds remaining file size after skip"
  | .partialWord length => "image length " ++ toString length ++ " is not a multiple of 4"

def window (bytes : Array UInt8) (skip : Nat) (length : Option Nat) : Except WindowFault Image :=
  let left := bytes.size - skip
  let size := length.getD left
  if bytes.size < skip then .error .skipPastEnd
  else if skip % Word.size ≠ 0 then .error .skipUnaligned
  else if left < size then .error .lengthPastEnd
  else if size % Word.size ≠ 0 then .error (.partialWord size)
  else .ok ⟨bytes.extract skip (skip + size)⟩

def readAddress (text : List Char) : Except NumeralFault UInt32 :=
  let read :=
    match afterHexMark? text with
    | some digits => readNumeral 16 0xFFFFFFFF digits
    | none => readNumeral 10 0xFFFFFFFF text
  read.map UInt32.ofNat

structure ImageSource where
  input : List Char
  skip : Nat
  length : Option Nat
  labels : Option (List Char)

structure RangeRequest where
  start : List Char
  stop : List Char
  showBytes : Bool
  out : Option (List Char)

structure AnalyzeRequest where
  entries : List (List Char)
  maxInstr : Nat
  format : Format
  listing : Bool
  out : Option (List Char)

inductive InspectCommand
  | range (request : RangeRequest)
  | analyze (request : AnalyzeRequest)

structure InspectRequest where
  source : ImageSource
  command : InspectCommand

namespace InspectRequest

def grammar : Grammar where
  valued := ["skip", "len", "labels"]
  repeated := []
  switches := []
  shorts := []

def rangeGrammar : Grammar where
  valued := ["out", "labels"]
  repeated := []
  switches := ["show-bytes"]
  shorts := []

def analyzeGrammar : Grammar where
  valued := ["max-instr", "format", "out", "labels"]
  repeated := ["entry"]
  switches := ["listing"]
  shorts := []

def range? (args : Arguments) : Option InspectCommand := do
  let out ← args.path? "out"
  match args.positionals with
  | [start, stop] => some (.range ⟨start, stop, args.has "show-bytes", out⟩)
  | _ => none

def defaultBudget : Nat := 100000

def analyze? (args : Arguments) : Option InspectCommand := do
  let out ← args.path? "out"
  let budget ← args.number? "max-instr"
  let format ← args.choice? "format" Format.choices .text
  match args.positionals with
  | [] =>
    some (.analyze
      ⟨args.optionValues "entry", budget.getD defaultBudget, format, args.has "listing", out⟩)
  | _ => none

def command? (name : String) (texts : List (List Char)) :
    Option (Arguments × InspectCommand) := do
  if name == "range" then
    let args ← rangeGrammar.read? texts
    let command ← range? args
    pure (args, command)
  else
    let args ← analyzeGrammar.read? texts
    let command ← analyze? args
    pure (args, command)

/-- The options of the image come before the command, the labels also behind it. -/
def ofArguments? (texts : List (List Char)) : Option InspectRequest := do
  let (args, name, rest) ← grammar.readCommand? ["range", "analyze"] ⟨.fresh, .empty⟩ texts
  let (inner, command) ← command? name rest
  let skip ← args.number? "skip"
  let length ← args.number? "len"
  let outerLabels ← args.path? "labels"
  let innerLabels ← inner.path? "labels"
  match args.positionals with
  | [input] =>
    if input.isEmpty then none
    else some ⟨⟨input, skip.getD 0, length, innerLabels.or outerLabels⟩, command⟩
  | _ => none

end InspectRequest

variable {m : Type → Type} [Monad m] [FileSystem m]

def loadImage (input : List Char) (skip : Nat) (length : Option Nat) :
    Work m (List Char × Image) := do
  let contents ← Work.readFile input
  match window contents.data skip length with
  | .error fault => Work.fail fault.message none
  | .ok image => pure ((Path.fileName? input).getD "image".toList, image)

def loadLabels (path : List Char) : Work m Labels := do
  let text ← Work.readText path
  match Labels.ofSymbolFile? text with
  | some labels => pure labels
  | none => Work.fail ("parsing " ++ String.ofList path) none

def addressOf (text : List Char) : Work m UInt32 :=
  let trimmed := trim text
  Work.require ("bad address '" ++ String.ofList trimmed ++ "'") NumeralFault.message
    (readAddress trimmed)

def shortHex (address : UInt32) : String := String.ofList (hexLiteral 0 address.toNat)

def listRange (image : Image) (labels : Labels) (request : RangeRequest) : Work m Unit := do
  let start ← addressOf request.start
  let stop ← addressOf request.stop
  if stop < start then
    Work.fail
      ("range end " ++ shortHex stop ++ " lies before start " ++ shortHex start) none
  if ¬Aligned start then Work.fail "start must be word aligned" none
  let lines := image.list labels request.showBytes start stop
  Work.emit request.out (String.ofList (unlines lines))

/-- Every entry once and in ascending order; without any, the first address. -/
def entryAddresses (texts : List (List Char)) : Work m (List UInt32) :=
  if texts.isEmpty then pure [0]
  else do
    let entries ← texts.mapM addressOf
    pure (ascending entries).eraseDups

def analyze (name : List Char) (image : Image) (labels : Labels) (request : AnalyzeRequest) :
    Work m Unit := do
  let entries ← entryAddresses request.entries
  let survey := image.survey entries request.maxInstr
  let report := FlowReport.ofSurvey name labels entries survey
  let text :=
    match request.format with
    | .json => report.toJson.pretty ++ ['\n']
    | .text => unlines (report.textLines request.listing)
  Work.emit request.out (String.ofList text)

def inspectFile (request : InspectRequest) : Work m Unit := do
  let source := request.source
  let (name, image) ← loadImage source.input source.skip source.length
  let labels ←
    match source.labels with
    | none => pure Labels.empty
    | some path => loadLabels path
  match request.command with
  | .range range => listRange image labels range
  | .analyze analysis => analyze name image labels analysis

def inspect (texts : List (List Char)) : m Reply :=
  match InspectRequest.ofArguments? texts with
  | none => pure ⟨"", .usage⟩
  | some request => (inspectFile request).reply

end WordMachine.Tool
