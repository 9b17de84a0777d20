import WordMachine.Proofs.Flow.Blocks
import WordMachine.Proofs.Flow.Lines
import WordMachine.Proofs.Json.Document

/-! Both reports on the flow of control show the same code. The text goes through the visited words, the
document through the intervals of the blocks, and the text can be written from the document. -/

namespace WordMachine

open Text Json

structure BlockEntry where
  start : UInt32
  stop : UInt32
  insns : List (List Char)

structure EdgeEntry where
  source : UInt32
  target : UInt32
  kind : List Char

structure FlowDocument where
  entries : List UInt32
  blocks : List BlockEntry
  edges : List EdgeEntry
  invalid : List UInt32

def BlockEntry.ofJson? (json : Json) : Option BlockEntry := do
  let start ← (json.value? "start").bind word?
  let stop ← (json.value? "end").bind word?
  let insns ← (json.value? "insns").bind (list? string?)
  pure ⟨start, stop, insns⟩

def EdgeEntry.ofJson? (json : Json) : Option EdgeEntry := do
  let source ← (json.value? "from").bind word?
  let target ← (json.value? "to").bind word?
  let kind ← (json.value? "kind").bind string?
  pure ⟨source, target, kind⟩

def FlowDocument.ofJson? (json : Json) : Option FlowDocument := do
  let entries ← (json.value? "entries").bind (list? word?)
  let blocks ← (json.value? "blocks").bind (list? BlockEntry.ofJson?)
  let edges ← (json.value? "edges").bind (list? EdgeEntry.ofJson?)
  let invalid ← (json.value? "invalid").bind (list? word?)
  pure ⟨entries, blocks, edges, invalid⟩

def BlockEntry.places (block : BlockEntry) : List UInt32 := placesBetween block.start block.stop

def EdgeKind.spelled : EdgeKind → List Char
  | .fallthrough => ['f', 't']
  | .branch => ['b', 'r']
  | .conditional => ['c', 'b', 'r']
  | .call => ['c', 'a', 'l', 'l']

theorem EdgeKind.toList_tag (kind : EdgeKind) : kind.tag.toList = kind.spelled := by
  cases kind <;> rfl

def EdgeEntry.line (edge : EdgeEntry) : List Char :=
  "  ".toList ++ addressText edge.source ++ " -> ".toList ++ addressText edge.target
    ++ " (".toList ++ edge.kind ++ [')']

namespace FlowDocument

def places (document : FlowDocument) : List UInt32 := document.blocks.flatMap BlockEntry.places

def insns (document : FlowDocument) : List (List Char) := document.blocks.flatMap BlockEntry.insns

def quotedEntries (document : FlowDocument) : List Char :=
  let quoted := document.entries.map fun pc => '"' :: (addressText pc ++ ['"'])
  '[' :: ([',', ' '].intercalate quoted ++ [']'])

/-- The summary as the document has it: every count is the length of a list. -/
def summaryLines (document : FlowDocument) (name : List Char) : List (List Char) :=
  ["Analysis summary (".toList ++ name ++ "):".toList,
    "  entries   : ".toList ++ document.quotedEntries,
    "  insts     : ".toList ++ Nat.toDigits 10 document.insns.length,
    "  blocks    : ".toList ++ Nat.toDigits 10 document.blocks.length,
    "  edges     : ".toList ++ Nat.toDigits 10 document.edges.length,
    "  invalid   : ".toList ++ Nat.toDigits 10 document.invalid.length,
    "Edges:".toList]
  ++ document.edges.map EdgeEntry.line

def listingLines (document : FlowDocument) (labels : Labels) : List (List Char) :=
  [[], "Listing (analyzed PCs):".toList]
  ++ (document.places.zip document.insns).flatMap fun entry =>
    nameLines labels entry.1 ++ [' ' :: ' ' :: entry.2]

def textLines (document : FlowDocument) (name : List Char) (labels : Labels) (listing : Bool) :
    List (List Char) :=
  document.summaryLines name ++ (if listing then document.listingLines labels else [])

/-- A document is about what a survey found from some entries. Its blocks hold the visited words in ascending
order, each with the line of the bytes that stand there, and a block has as many lines as there are words
between its bounds. -/
structure Describes (document : FlowDocument) (labels : Labels) (entries : List UInt32)
    (survey : Survey) : Prop where
  asked : document.entries = entries
  bounds : document.blocks.map (fun block => (block.start, block.stop)) =
    (survey.blocks entries).map fun block => (block.start, block.stop)
  visited : document.places = survey.visited
  ascending : document.places.Pairwise (· < ·)
  counted : ∀ block ∈ document.blocks, block.start < block.stop ∧
    block.insns.length = (block.stop.toNat - block.start.toNat) / 4
  shown : List.Forall₂ (fun pc insn => ∃ w : Word, w.StandsAt survey.image.bytes pc.toNat ∧
    insn = wordLine labels false pc w) document.places document.insns
  edges : document.edges = (survey.blockEdges (survey.blocks entries)).map fun edge =>
    ⟨edge.source, edge.target, edge.kind.spelled⟩
  invalid : document.invalid = survey.invalid

end FlowDocument

namespace FlowReport

variable {report : FlowReport}

def blockEntry (report : FlowReport) (block : Block) : BlockEntry :=
  ⟨block.start, block.stop, report.instructionLines block⟩

def edgeEntry (edge : Edge) : EdgeEntry := ⟨edge.source, edge.target, edge.kind.spelled⟩

def document (report : FlowReport) : FlowDocument where
  entries := report.entries
  blocks := report.blocks.map report.blockEntry
  edges := report.edges.map edgeEntry
  invalid := report.survey.invalid

theorem ofJson?_blockJson (report : FlowReport) (block : Block) :
    BlockEntry.ofJson? (report.blockJson block) = some (report.blockEntry block) := by
  have start : (report.blockJson block).value? "start" = some (word block.start) := rfl
  have stop : (report.blockJson block).value? "end" = some (word block.stop) := rfl
  have insns : (report.blockJson block).value? "insns" =
    some (.array ((report.instructionLines block).map Json.string)) := rfl
  have texts : ∀ text, string? (.string text) = some text := fun _ => rfl
  have lines := list?_array_self texts (report.instructionLines block)
  simp only [BlockEntry.ofJson?, start, stop, insns, Option.bind_some, word?_word, lines]
  rfl

theorem ofJson?_edgeJson (edge : Edge) : EdgeEntry.ofJson? (edgeJson edge) = some (edgeEntry edge) := by
  have source : (edgeJson edge).value? "from" = some (word edge.source) := rfl
  have target : (edgeJson edge).value? "to" = some (word edge.target) := rfl
  have kind : (edgeJson edge).value? "kind" = some (.string edge.kind.spelled) := by
    rw [← edge.kind.toList_tag]
    rfl
  simp only [EdgeEntry.ofJson?, source, target, kind, Option.bind_some, word?_word]
  rfl

theorem edgeLine_eq (edge : Edge) : edgeLine edge = (edgeEntry edge).line := by
  rw [edgeLine, edge.kind.toList_tag]
  rfl

theorem ofJson?_toJson (report : FlowReport) :
    FlowDocument.ofJson? report.toJson = some report.document := by
  have entries : report.toJson.value? "entries" = some (.array (report.entries.map word)) := rfl
  have blocks : report.toJson.value? "blocks" =
    some (.array (report.blocks.map report.blockJson)) := rfl
  have edges : report.toJson.value? "edges" = some (.array (report.edges.map edgeJson)) := rfl
  have invalid : report.toJson.value? "invalid" =
    some (.array (report.survey.invalid.map word)) := rfl
  have words := list?_array_self word?_word
  simp only [FlowDocument.ofJson?, entries, blocks, edges, invalid, Option.bind_some, words,
    list?_array fun block _ => report.ofJson?_blockJson block,
    list?_array fun edge _ => ofJson?_edgeJson edge]
  rfl

end FlowReport

theorem length_placesBetween (start stop : UInt32) :
    (placesBetween start stop).length = (stop.toNat - start.toNat) / Word.size := by
  rw [placesBetween, List.length_map, List.length_range']

section Listing

variable {α β γ : Type} {show? : α → Option β} {items : List α}

theorem forall₂_filterMap (shown : ∀ item ∈ items, ∃ line, show? item = some line) :
    List.Forall₂ (fun item line => show? item = some line) items (items.filterMap show?) := by
  induction items with
  | nil => exact .nil
  | cons item rest ih =>
    obtain ⟨⟨line, first⟩, others⟩ := List.forall_mem_cons.1 shown
    rw [List.filterMap_cons_some first]
    exact .cons first (ih others)

theorem flatMap_zip_filterMap (shown : ∀ item ∈ items, ∃ line, show? item = some line)
    (write : α → β → List γ) :
    (items.zip (items.filterMap show?)).flatMap (fun entry => write entry.1 entry.2) =
      items.flatMap fun item => (show? item).toList.flatMap (write item) := by
  induction items with
  | nil => rfl
  | cons item rest ih =>
    obtain ⟨⟨line, first⟩, others⟩ := List.forall_mem_cons.1 shown
    rw [List.filterMap_cons_some first, List.zip_cons_cons, List.flatMap_cons, List.flatMap_cons,
      ih others, first]
    simp

end Listing

namespace FlowReport

variable {report : FlowReport}

theorem line?_eq_some_iff {pc : UInt32} {line : List Char} : report.line? pc = some line ↔
    ∃ w, report.survey.image.word? pc = some w ∧ line = wordLine report.labels false pc w := by
  simp only [line?, Image.line?_eq, Option.map_eq_some_iff, eq_comm (b := line)]

structure Sound (report : FlowReport) : Prop where
  roomy : report.survey.Roomy
  blocks : report.blocks = report.survey.blocks report.entries
  edges : report.edges = report.survey.blockEdges report.blocks

theorem sound_ofSurvey {survey : Survey} (roomy : survey.Roomy) (name : List Char) (labels : Labels)
    (entries : List UInt32) : (ofSurvey name labels entries survey).Sound := ⟨roomy, rfl, rfl⟩

namespace Sound

variable (sound : report.Sound)

include sound

theorem shown : ∀ pc ∈ report.survey.visited, ∃ line, report.line? pc = some line := by
  intro pc visited
  obtain ⟨w, found⟩ := sound.roomy.whole pc visited
  exact ⟨_, line?_eq_some_iff.2 ⟨w, found, rfl⟩⟩

theorem places : report.document.places = report.survey.visited := by
  rw [FlowDocument.places, document, List.flatMap_map, sound.blocks,
    ← report.survey.flatMap_addresses report.entries]
  exact List.flatMap_congr fun block member => (sound.roomy.addresses_eq member).1.symm

theorem insns : report.document.insns = report.survey.visited.filterMap report.line? := by
  rw [FlowDocument.insns, document, List.flatMap_map, sound.blocks,
    ← report.survey.flatMap_addresses report.entries, List.filterMap_flatMap]
  rfl

theorem lines : List.Forall₂ (fun pc insn => report.line? pc = some insn) report.document.places
    report.document.insns := by
  rw [sound.places, sound.insns]
  exact forall₂_filterMap sound.shown

theorem counted {block : Block} (member : block ∈ report.blocks) : block.start < block.stop ∧
    (report.instructionLines block).length = (block.stop.toNat - block.start.toNat) / Word.size := by
  rw [sound.blocks] at member
  have shown : ∀ pc ∈ block.addresses, ∃ line, report.line? pc = some line := fun pc inside =>
    sound.shown pc (Survey.visited_of_mem member inside)
  refine ⟨(sound.roomy.split.bounds block member).2.2, ?_⟩
  calc
    (report.instructionLines block).length
      = block.addresses.length := (forall₂_filterMap shown).length_eq.symm
    _ = block.places.length := by rw [← (sound.roomy.addresses_eq member).1]
    _ = (block.stop.toNat - block.start.toNat) / Word.size := length_placesBetween _ _

theorem describes : report.document.Describes report.labels report.entries report.survey where
  asked := rfl
  bounds := by
    rw [← sound.blocks, document, List.map_map]
    rfl
  visited := sound.places
  ascending := sound.places ▸ sound.roomy.ascending
  counted := by
    intro entry listed
    obtain ⟨block, member, rfl⟩ := List.mem_map.1 listed
    exact sound.counted member
  shown := by
    refine sound.lines.imp fun pc insn found => ?_
    obtain ⟨w, stands, rfl⟩ := line?_eq_some_iff.1 found
    exact ⟨w, Image.standsAt_of_word? stands, rfl⟩
  edges := by
    rw [← sound.blocks, ← sound.edges]
    rfl
  invalid := rfl

theorem summaryLines_eq : report.summaryLines = report.document.summaryLines report.name := by
  have insts : report.document.insns.length = report.survey.visited.length := by
    rw [← sound.lines.length_eq, sound.places]
  have edges : report.edges.map edgeLine = report.document.edges.map EdgeEntry.line := by
    rw [document, List.map_map]
    exact List.map_congr_left fun edge _ => edgeLine_eq edge
  rw [summaryLines, FlowDocument.summaryLines, insts, edges]
  simp only [document, List.length_map]
  rfl

theorem listingLines_eq : report.listingLines = report.document.listingLines report.labels := by
  rw [listingLines, FlowDocument.listingLines, sound.places, sound.insns,
    flatMap_zip_filterMap sound.shown fun pc insn => nameLines report.labels pc ++ [' ' :: ' ' :: insn]]
  refine congrArg _ (List.flatMap_congr fun pc visited => ?_)
  obtain ⟨line, found⟩ := sound.shown pc visited
  rw [found, Labels.nameLine_eq]
  exact (List.append_nil _).symm

theorem textLines_eq (listing : Bool) : report.textLines listing =
    report.document.textLines report.name report.labels listing := by
  rw [textLines, FlowDocument.textLines, sound.summaryLines_eq, sound.listingLines_eq]

end Sound

end FlowReport

end WordMachine
