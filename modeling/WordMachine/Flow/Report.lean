import WordMachine.Flow.Block
import WordMachine.Json.Value

/-! The words of an image as lines of text with the names of their addresses, and what a survey found, as a
summary in text and as a JSON document. -/

namespace WordMachine

open Text

def codeAddress (pc : UInt32) : List Char := hexLiteral 6 pc.toNat

namespace Word

def hexBytes (w : Word) : List (List Char) := w.toList.map fun b => hex 2 b.toNat

def listing (labels : Labels) (w : Word) : List Char :=
  match w.decode? with
  | some i => i.text labels
  | none => "; invalid ".toList ++ [' '].intercalate w.hexBytes

end Word

namespace Image

def line? (image : Image) (labels : Labels) (showBytes : Bool) (pc : UInt32) :
    Option (List Char) :=
  (image.word? pc).map fun w =>
    codeAddress pc ++ ": ".toList
      ++ (if showBytes then w.hexBytes.flatMap (fun b => b ++ [' ']) ++ "  ".toList else [])
      ++ w.listing labels

end Image

def Labels.nameLine (labels : Labels) (pc : UInt32) : List (List Char) :=
  ((labels.name? pc).map fun name => name ++ [':']).toList

namespace Image

def listFrom (image : Image) (labels : Labels) (showBytes : Bool) (stop : UInt32) :
    (fuel : Nat) → (pc : UInt32) → List (List Char)
  | 0, _ => []
  | fuel + 1, pc =>
    if pc < stop then
      match image.line? labels showBytes pc with
      | some line =>
        labels.nameLine pc ++ line :: image.listFrom labels showBytes stop fuel (nextWord pc)
      | none => labels.nameLine pc ++ [codeAddress pc ++ ": <oob>".toList]
    else []

/-- The lines of all words from `start` up to `stop`. An image has fewer words than bytes, so the
listing ends before its fuel does. -/
def list (image : Image) (labels : Labels) (showBytes : Bool) (start stop : UInt32) :
    List (List Char) :=
  image.listFrom labels showBytes stop (image.bytes.size + 1) start

end Image

structure FlowReport where
  name : List Char
  labels : Labels
  entries : List UInt32
  survey : Survey
  blocks : List Block
  edges : List Edge

namespace FlowReport

def ofSurvey (name : List Char) (labels : Labels) (entries : List UInt32) (survey : Survey) :
    FlowReport :=
  let blocks := survey.blocks entries
  ⟨name, labels, entries, survey, blocks, survey.blockEdges blocks⟩

def line? (report : FlowReport) (pc : UInt32) : Option (List Char) :=
  report.survey.image.line? report.labels false pc

def instructionLines (report : FlowReport) (block : Block) : List (List Char) :=
  block.addresses.filterMap report.line?

def quotedAddresses (addresses : List UInt32) : List Char :=
  '[' :: ([',', ' '].intercalate (addresses.map fun pc => '"' :: (codeAddress pc ++ ['"'])) ++ [']'])

def edgeLine (edge : Edge) : List Char :=
  "  ".toList ++ codeAddress edge.source ++ " -> ".toList ++ codeAddress edge.target
    ++ " (".toList ++ edge.kind.tag.toList ++ [')']

def summaryLines (report : FlowReport) : List (List Char) :=
  ["Analysis summary (".toList ++ report.name ++ "):".toList,
    "  entries   : ".toList ++ quotedAddresses report.entries,
    "  insts     : ".toList ++ decimal report.survey.visited.length,
    "  blocks    : ".toList ++ decimal report.blocks.length,
    "  edges     : ".toList ++ decimal report.edges.length,
    "  invalid   : ".toList ++ decimal report.survey.invalid.length,
    "Edges:".toList]
  ++ report.edges.map edgeLine

def listingLines (report : FlowReport) : List (List Char) :=
  [[], "Listing (analyzed PCs):".toList]
  ++ report.survey.visited.flatMap fun pc =>
    report.labels.nameLine pc
      ++ ((report.line? pc).map fun line => ' ' :: ' ' :: line).toList

def textLines (report : FlowReport) (listing : Bool) : List (List Char) :=
  report.summaryLines ++ (if listing then report.listingLines else [])

def blockJson (report : FlowReport) (block : Block) : Json :=
  .object
    [Json.member "start" (Json.word block.start),
      Json.member "end" (Json.word block.stop),
      Json.member "insns" (.array ((report.instructionLines block).map Json.string))]

def edgeJson (edge : Edge) : Json :=
  .object
    [Json.member "from" (Json.word edge.source),
      Json.member "to" (Json.word edge.target),
      Json.member "kind" (Json.text edge.kind.tag)]

def toJson (report : FlowReport) : Json :=
  .object
    [Json.member "entries" (.array (report.entries.map Json.word)),
      Json.member "blocks" (.array (report.blocks.map report.blockJson)),
      Json.member "edges" (.array (report.edges.map edgeJson)),
      Json.member "invalid" (.array (report.survey.invalid.map Json.word))]

end FlowReport

end WordMachine
