import WordMachine.Proofs.Flow.Reports
import WordMachine.Proofs.Tool.Addresses

/-! The two formats of an analysis. They are printed or refused alike, and show the same code. -/

namespace WordMachine

/-- Work that ends well and has printed a text by then. -/
def Work.Prints {σ : Type} (work : Work (StateM σ) Unit) (text : String) : Prop :=
  ∀ printed files, work.on printed files = ((.ok (), printed ++ text), files)

namespace Tool

open Text

section Commands

variable {σ : Type} [FileSystem (StateM σ)] {name : List Char} {image : Image} {labels : Labels}
  {texts : List (List Char)} {budget : Nat}

theorem analyze_refuses {failure : Failure}
    (refused : (entryAddresses texts : Work (StateM σ) _).Yields (.error failure)) (format : Format)
    (listing : Bool) : (analyze name image labels ⟨texts, budget, format, listing, none⟩ :
      Work (StateM σ) Unit).Yields (.error failure) :=
  refused.bind_error

variable {entries : List UInt32}
  (read : (entryAddresses texts : Work (StateM σ) _).Yields (.ok entries)) (listing : Bool)

include read

theorem analyze_prints_json : (analyze name image labels ⟨texts, budget, .json, listing, none⟩ :
    Work (StateM σ) Unit).Prints (String.ofList ((FlowReport.ofSurvey name labels entries
      (image.survey entries budget)).toJson.pretty ++ ['\n'])) :=
  fun printed files => Work.on_bind_of_ok (read printed files)

theorem analyze_prints_text : (analyze name image labels ⟨texts, budget, .text, listing, none⟩ :
    Work (StateM σ) Unit).Prints (textOfLines ((FlowReport.ofSurvey name labels entries
      (image.survey entries budget)).textLines listing)) :=
  fun printed files => Work.on_bind_of_ok (read printed files)

end Commands

/-- The document of an analysis and its text show the same code: the instructions of the blocks are those
of the listing, one for every visited word in ascending order, as many to a block as there are words between
its bounds; the counts are the lengths of the lists in the document; and the edges are the same. For entries
that name addresses both formats are printed, and for others both are refused for the first that names
none. -/
theorem analysis_formats_agree {program : Program} (small : program.image.bytes.size < 2 ^ 32)
    (name : List Char) (labels : Labels) :
    (∀ (entries : List UInt32) (budget : Nat),
      let survey := program.image.survey entries budget
      let report := FlowReport.ofSurvey name labels entries survey
      ∃ document, FlowDocument.ofJson? report.toJson = some document ∧
        document.Describes labels entries survey ∧
        ∀ listing, report.textLines listing = document.textLines name labels listing) ∧
    ∀ {σ : Type} [FileSystem (StateM σ)] (texts : List (List Char)) (budget : Nat),
      let command (format : Format) (listing : Bool) : Work (StateM σ) Unit :=
        analyze name program.image labels ⟨texts, budget, format, listing, none⟩
      ∃ result, EntriesOf texts result ∧
        match result with
        | .error failure => ∀ format listing, (command format listing).Yields (.error failure)
        | .ok entries => ∃ (json : Json) (document : FlowDocument),
          json.Writes json.pretty ∧ FlowDocument.ofJson? json = some document ∧
          document.Describes labels entries (program.image.survey entries budget) ∧
          ∀ listing, (command .json listing).Prints (String.ofList (json.pretty ++ ['\n'])) ∧
            (command .text listing).Prints (textOfLines (document.textLines name labels listing)) := by
  have every (entries : List UInt32) (budget : Nat) := FlowReport.sound_ofSurvey
    (Survey.roomy small entries budget) name labels entries
  constructor
  · intro entries budget survey report
    have sound := every entries budget
    exact ⟨report.document, report.ofJson?_toJson, sound.describes, sound.textLines_eq⟩
  · intro σ _ texts budget command
    obtain ⟨result, asked, yields⟩ := exists_yields_entryAddresses (σ := σ) texts
    refine ⟨result, asked, ?_⟩
    cases result with
    | error failure => exact analyze_refuses yields
    | ok entries =>
      have sound := every entries budget
      refine ⟨_, _, Json.writes_pretty _, FlowReport.ofJson?_toJson _, sound.describes, fun listing => ?_⟩
      have lines := sound.textLines_eq listing
      exact ⟨analyze_prints_json yields listing, lines ▸ analyze_prints_text yields listing⟩

theorem analysis_formats_agree_loop :
    let program := Program.ofWords [⟨0x0D, 0, 0, 0⟩]
    let labels : Labels := ⟨[(0, "loop".toList)]⟩
    let command (format : Format) : Work (StateM Folder) Unit :=
      analyze "l.bin".toList program.image labels ⟨[], 9, format, true, none⟩
    ∃ (json : Json) (document : FlowDocument), FlowDocument.ofJson? json = some document ∧
      (command .json).Prints (String.ofList (json.pretty ++ ['\n'])) ∧
      (command .text).Prints (textOfLines (document.textLines "l.bin".toList labels true)) ∧
      document.insns = ["0x000000: jmp loop".toList] := by
  intro program labels command
  have small : program.image.bytes.size < 2 ^ 32 := by decide
  obtain ⟨-, commands⟩ := analysis_formats_agree small "l.bin".toList labels
  obtain ⟨result, asked, ends⟩ := commands (σ := Folder) [] 9
  obtain rfl : result = .ok [0] := by
    generalize none : [] = texts at asked
    cases asked with
    | absent => rfl
    | named filled => exact absurd none.symm filled
    | refused => simp at none
  obtain ⟨json, document, -, read, describes, prints⟩ := ends
  have met : program.image.walkFrom 9 [0] [] = [0] := by
    have onward : [] ++ (program.image.edgesAt 0).map Edge.target = [0] := by decide
    rw [Image.walkFrom, if_neg (by decide), dif_pos (by decide), onward, Image.walkFrom,
      if_neg (by decide), dif_neg (by decide), Image.walkFrom]
  have visited : document.places = [0] := by
    rw [describes.visited, Survey.visited, Image.survey, Image.walk, met]
    exact List.mergeSort_singleton 0
  have shown := describes.shown
  rw [visited] at shown
  refine ⟨json, document, read, (prints true).1, (prints true).2, ?_⟩
  generalize document.insns = insns at shown ⊢
  cases shown with
  | cons first rest =>
    obtain ⟨⟨b0, b1, b2, b3⟩, stands, rfl⟩ := first
    cases rest
    have bytes : (program.image.bytes.extract 0 4).toList = [0x0D, 0, 0, 0] := by decide
    cases bytes.symm.trans stands
    rfl

end Tool

end WordMachine
