import WordMachine.Proofs.Source.Passes
import WordMachine.Proofs.Tool.Work
import WordMachine.Tool.Dispatch

/-! What the assembler does to the files that it works on. Its image never goes onto its source. Its symbol
file goes wherever it is told to. -/

namespace WordMachine.Tool

open FileSystem

variable {σ : Type} [FileSystem (StateM σ)]

namespace AssembleRequest

def image (request : AssembleRequest) : List Char :=
  request.output.getD (Path.withExtension request.input "bin".toList)

end AssembleRequest

def symbolFile (assembly : Assembly) : ByteArray := textBytes assembly.symbols.toJson.pretty

def Assembles (files : σ) (path : List Char) (assembly : Assembly) : Prop :=
  ∃ text, HoldsText files path text ∧ WordMachine.assemble text = .ok assembly

def Same (files : σ) (first second : List Char) : Prop :=
  Path.components first = Path.components second ∨ Alias files first second

/-- A request that gets as far as writing. -/
structure Ready (request : AssembleRequest) (files : σ) (assembly : Assembly) : Prop where
  source : Assembles files request.input assembly
  apart : ¬Same files request.image request.input

/-- How assembling ends, and in which files. -/
inductive Finishes (request : AssembleRequest) (before : σ) : Except Failure Unit → σ → Prop
  | refused {failure : Failure} (unready : ∀ assembly, ¬Ready request before assembly) :
    Finishes request before (.error failure) before
  | unwritten {assembly : Assembly} {after : σ} {failure : Failure} {fault : FileFault}
    (ready : Ready request before assembly)
    (image : writing before request.image (bytesOf assembly.bytes) = (.error fault, after)) :
    Finishes request before (.error failure) after
  | written {assembly : Assembly} {after : σ} (ready : Ready request before assembly)
    (image : writing before request.image (bytesOf assembly.bytes) = (.ok (), after))
    (bare : request.symbols = none) : Finishes request before (.ok ()) after
  | unlisted {assembly : Assembly} {between after : σ} {path : List Char} {failure : Failure}
    {fault : FileFault} (ready : Ready request before assembly)
    (image : writing before request.image (bytesOf assembly.bytes) = (.ok (), between))
    (asked : request.symbols = some path)
    (table : writing between path (symbolFile assembly) = (.error fault, after)) :
    Finishes request before (.error failure) after
  | listed {assembly : Assembly} {between after : σ} {path : List Char}
    (ready : Ready request before assembly)
    (image : writing before request.image (bytesOf assembly.bytes) = (.ok (), between))
    (asked : request.symbols = some path)
    (table : writing between path (symbolFile assembly) = (.ok (), after)) :
    Finishes request before (.ok ()) after

section Determined

variable {request : AssembleRequest} {assembly : Assembly} {before between after : σ}

theorem Assembles.unique {path : List Char} {other : Assembly} (first : Assembles before path assembly)
    (second : Assembles before path other) : assembly = other := by
  obtain ⟨text, ⟨contents, found, read⟩, assembles⟩ := first
  obtain ⟨source, ⟨held, again, reads⟩, gives⟩ := second
  cases found.symm.trans again
  cases read.symm.trans reads
  cases assembles.symm.trans gives
  rfl

theorem Finishes.eq_of_writing {result : Except Failure Unit} {last : σ} {symbols : List Char}
    (finishes : Finishes request before result last) (ready : Ready request before assembly)
    (image : writing before request.image (bytesOf assembly.bytes) = (.ok (), between))
    (asked : request.symbols = some symbols)
    (table : writing between symbols (symbolFile assembly) = (.ok (), after)) :
    result = .ok () ∧ last = after := by
  cases finishes with
  | refused unready => exact absurd ready (unready assembly)
  | unwritten again failed =>
    cases ready.source.unique again.source
    cases image.symm.trans failed
  | written _ _ bare => cases asked.symm.trans bare
  | unlisted again wrote named failed =>
    cases ready.source.unique again.source
    cases image.symm.trans wrote
    cases asked.symm.trans named
    cases table.symm.trans failed
  | listed again wrote named done =>
    cases ready.source.unique again.source
    cases image.symm.trans wrote
    cases asked.symm.trans named
    cases table.symm.trans done
    exact ⟨rfl, rfl⟩

end Determined

theorem textOfBytes_textBytes (text : List Char) : textOfBytes (textBytes text) = .ok text := by
  have valid : String.fromUTF8? (textBytes text) = some (String.ofList text) :=
    dif_pos (String.ofList text).isValidUTF8
  rw [textOfBytes, valid]
  simp

section SymbolFile

open Json Text

theorem frame_cons (opening closing : Char) (depth : Nat) (item : List Char)
    (items : List (List Char)) :
    ∃ rest, frame opening closing depth (item :: items) = [opening] ++ '\n' :: rest := by
  cases items with
  | nil => exact ⟨_, rfl⟩
  | cons second items => exact ⟨_, rfl⟩

theorem lines_pretty (symbols : Symbols) : ∃ first rest, lines symbols.toJson.pretty = first :: rest ∧
    (first = ['\x7b'] ∨ first = ['\x7b', '\x7d']) := by
  rw [Symbols.toJson, pretty, indented]
  generalize List.map _ _ = items
  cases items with
  | nil => exact ⟨_, [], rfl, .inr rfl⟩
  | cons item items =>
    obtain ⟨rest, shape⟩ := frame_cons '\x7b' '\x7d' 0 item items
    rw [shape, lines_append_newline _ _ (by decide)]
    exact ⟨_, _, rfl, .inl rfl⟩

theorem assemble_pretty_ne_ok (symbols : Symbols) (assembly : Assembly) :
    WordMachine.assemble symbols.toJson.pretty ≠ .ok assembly := by
  intro assembled
  obtain ⟨first, rest, shape, bracket⟩ := lines_pretty symbols
  rw [WordMachine.assemble, shape, List.map_cons] at assembled
  obtain ⟨w, -, encoded⟩ := exists_word_of_line assembled List.getElem?_cons_zero
  have unknown : (Line.ofText first).word assembly.symbols = .error (.unknownMnemonic first) := by
    obtain rfl | rfl := bracket <;> rfl
  cases unknown.symm.trans encoded

theorem Assembles.ne_symbolFile {files : σ} {path : List Char} {assembly : Assembly}
    (source : Assembles files path assembly) (other : Assembly) :
    at? files path ≠ .ok (symbolFile other) := by
  intro found
  obtain ⟨text, ⟨contents, held, read⟩, assembled⟩ := source
  cases found.symm.trans held
  cases (textOfBytes_textBytes _).symm.trans read
  exact assemble_pretty_ne_ok _ _ assembled

end SymbolFile

theorem finishes_of_written {request : AssembleRequest} {assembly : Assembly} {before between : σ}
    (ready : Ready request before assembly)
    (image : writing before request.image (bytesOf assembly.bytes) = (.ok (), between)) (said : String) :
    ∃ result heard after, (match request.symbols with
      | none => pure ()
      | some path => Work.writeFile path (symbolFile assembly) : Work (StateM σ) Unit).on said between =
        ((result, heard), after) ∧ Finishes request before result after := by
  cases asked : request.symbols with
  | none => exact ⟨_, _, _, rfl, .written ready image asked⟩
  | some path =>
    have wrote := Work.on_writeFile path (symbolFile assembly) said between
    rcases table : writing between path (symbolFile assembly) with ⟨fault | _, after⟩
    · rw [table] at wrote
      exact ⟨_, _, _, wrote, .unlisted ready image asked table⟩
    · rw [table] at wrote
      exact ⟨_, _, _, wrote, .listed ready image asked table⟩

variable [Lawful σ]

theorem on_canonical (path : List Char) (printed : String) (files : σ) :
    (liftM (FileSystem.canonical? path : StateM σ _) : Work (StateM σ) _).on printed files =
      ((.ok (naming files path).1, printed), files) := by
  have looked : (liftM (FileSystem.canonical? path : StateM σ _) : Work (StateM σ) _).on printed files =
    ((.ok (naming files path).1, printed), (naming files path).2) := rfl
  rw [looked, Lawful.naming_quiet]

theorem on_sameFile (first second : List Char) (printed : String) (files : σ) :
    ∃ same, (sameFile first second : Work (StateM σ) Bool).on printed files =
      ((.ok same, printed), files) ∧ (same ↔ Same files first second) := by
  unfold sameFile
  split
  · next alike => exact ⟨true, rfl, by simp [Same, alike]⟩
  · next unlike =>
    rw [Work.on_bind_of_ok (on_canonical first printed files),
      Work.on_bind_of_ok (on_canonical second printed files)]
    refine ⟨_, rfl, ?_⟩
    simp only [Same, unlike, false_or, Alias]
    cases (naming files first).1 with
    | none => simp
    | some name =>
      simp only [Option.isSome_some, Bool.true_and, beq_iff_eq, Option.some.injEq, exists_eq_left']
      exact eq_comm

theorem on_destination (request : AssembleRequest) (printed : String) (files : σ) :
    ∃ result, (destination request : Work (StateM σ) _).on printed files =
      ((result, printed), files) ∧
        ∀ out, result = .ok out ↔ out = request.image ∧ ¬Same files request.image request.input := by
  obtain ⟨same, looked, known⟩ := on_sameFile request.image request.input printed files
  unfold destination
  change ∃ result, (sameFile request.image request.input >>= _ : Work (StateM σ) _).on printed files =
    _ ∧ _
  rw [Work.on_bind_of_ok looked, ← known]
  cases same with
  | true => exact ⟨_, rfl, fun out => ⟨nofun, fun free => absurd rfl free.2⟩⟩
  | false =>
    refine ⟨_, rfl, fun out => ⟨?_, ?_⟩⟩
    · intro found
      cases found
      exact ⟨rfl, nofun⟩
    · rintro ⟨rfl, -⟩
      rfl

theorem on_assembleFile (request : AssembleRequest) (printed : String) (before : σ) :
    ∃ result said after, (assembleFile request : Work (StateM σ) _).on printed before =
      ((result, said), after) ∧ Finishes request before result after := by
  obtain ⟨result, read, text⟩ := Work.on_readText request.input printed before
  unfold assembleFile
  cases result with
  | error failure =>
    refine ⟨_, _, _, Work.on_bind_of_error read, .refused fun assembly ready => ?_⟩
    obtain ⟨source, holds, -⟩ := ready.source
    cases (text source).2 holds
  | ok source =>
    rw [Work.on_bind_of_ok read]
    have holds := (text source).1 rfl
    cases assembled : WordMachine.assemble source with
    | error fault =>
      refine ⟨_, _, _, rfl, .refused fun assembly ready => ?_⟩
      obtain ⟨other, again, assembles⟩ := ready.source
      cases (text other).2 again
      cases assembled.symm.trans assembles
    | ok assembly =>
      obtain ⟨result, looked, free⟩ := on_destination request printed before
      cases result with
      | error failure =>
        refine ⟨_, _, _, Work.on_bind_of_error looked, .refused fun other ready => ?_⟩
        cases (free request.image).2 ⟨rfl, ready.apart⟩
      | ok out =>
        obtain ⟨rfl, apart⟩ := (free out).1 rfl
        have ready : Ready request before assembly := ⟨⟨source, holds, assembled⟩, apart⟩
        dsimp only
        rw [Work.on_bind_of_ok looked, Work.on_bind_of_ok (on_canonical request.image printed before)]
        have wrote := Work.on_writeFile request.image (bytesOf assembly.bytes) printed before
        rcases image : writing before request.image (bytesOf assembly.bytes) with ⟨fault | _, between⟩
        · rw [image] at wrote
          exact ⟨_, _, _, Work.on_bind_of_error wrote, .unwritten ready image⟩
        · rw [image] at wrote
          rw [Work.on_bind_of_ok wrote]
          split
          · exact finishes_of_written ready image _
          · exact finishes_of_written ready image _

/-- The symbol file is to go to where a path leads. -/
def Overlaid (request : AssembleRequest) (files : σ) (path : List Char) : Prop :=
  ∃ symbols, request.symbols = some symbols ∧ Alias files symbols path

section Frame

variable {request : AssembleRequest} {assembly : Assembly} {before between after : σ}

theorem Assembles.named (source : Assembles before request.input assembly) :
    Alias before request.input request.input := by
  obtain ⟨text, ⟨contents, found, -⟩, -⟩ := source
  exact Lawful.named found

theorem Ready.source_kept (ready : Ready request before assembly) {result : Except FileFault Unit}
    (image : writing before request.image (bytesOf assembly.bytes) = (result, after)) :
    at? after request.input = at? before request.input :=
  Lawful.apart image ready.source.named fun same => ready.apart (.inr same)

theorem Ready.source_spared (ready : Ready request before assembly) {written listed : Except FileFault Unit}
    {symbols : List Char}
    (image : writing before request.image (bytesOf assembly.bytes) = (written, between))
    (asked : request.symbols = some symbols)
    (table : writing between symbols (symbolFile assembly) = (listed, after))
    (spared : ¬Overlaid request before request.input) :
    at? after request.input = at? before request.input := by
  have named := ready.source.named
  have different : ¬Alias between symbols request.input := fun same =>
    spared ⟨symbols, asked, Lawful.settled image named same⟩
  calc
    at? after request.input = at? between request.input :=
      Lawful.apart table (Lawful.kept image named) different
    _ = at? before request.input := ready.source_kept image

theorem Finishes.source_kept {result : Except Failure Unit}
    (finishes : Finishes request before result after)
    (spared : ¬Overlaid request before request.input) :
    at? after request.input = at? before request.input := by
  cases finishes with
  | refused => rfl
  | unwritten ready image | written ready image => exact ready.source_kept image
  | unlisted ready image asked table | listed ready image asked table =>
    exact ready.source_spared image asked table spared

theorem Finishes.written_out (finishes : Finishes request before (.ok ()) after) :
    ∃ assembly, Assembles before request.input assembly ∧
      (¬Overlaid request after request.image →
        at? after request.image = .ok (bytesOf assembly.bytes)) ∧
      ∀ path, Overlaid request after path → at? after path = .ok (symbolFile assembly) := by
  cases finishes with
  | written ready image bare =>
    refine ⟨_, ready.source, fun _ => Lawful.written image, ?_⟩
    rintro path ⟨symbols, asked, -⟩
    cases bare.symm.trans asked
  | @listed assembly between _ symbols ready image asked table =>
    have stored := Lawful.written image
    refine ⟨_, ready.source, fun spared => ?_, ?_⟩
    · have different : ¬Alias between symbols request.image := fun same =>
        spared ⟨symbols, asked, Lawful.kept table same⟩
      rw [Lawful.apart table (Lawful.named stored) different, stored]
    · rintro path ⟨_, again, same⟩
      cases asked.symm.trans again
      rw [← Lawful.alike same, Lawful.written table]

theorem Finishes.overlaid {result : Except Failure Unit} {path : List Char}
    (finishes : Finishes request before result after) (overlaid : Overlaid request before path) :
    Overlaid request after path := by
  obtain ⟨symbols, asked, same⟩ := overlaid
  refine ⟨symbols, asked, ?_⟩
  cases finishes with
  | refused => exact same
  | unwritten _ image | written _ image => exact Lawful.kept image same
  | unlisted _ image _ table | listed _ image _ table => exact Lawful.kept table (Lawful.kept image same)

end Frame

theorem assembleFile_puts {folder : Folder} {request : AssembleRequest} {assembly : Assembly}
    {symbols image name : List Char} (ready : Ready request folder assembly)
    (imageAt : folder.locate request.image = .ok (.entry image)) (asked : request.symbols = some symbols)
    (tableAt : folder.locate symbols = .ok (.entry name)) :
    ∃ said, Id.run (StateT.run (assembleFile request).reply folder) = (⟨said, .done⟩,
      (folder.put image (bytesOf assembly.bytes)).put name (symbolFile assembly)) := by
  obtain ⟨result, said, after, ran, finishes⟩ := on_assembleFile request "" folder
  obtain ⟨rfl, rfl⟩ := finishes.eq_of_writing ready (folder.write_of_locate imageAt _) asked
    (Folder.write_of_locate (Folder.locate_eq_ok _ tableAt) _)
  exact ⟨said, Work.run_reply ran⟩

/-- However assembling ends, the source is as it was, unless the symbol file is to go onto it. If it ends
well, the symbol file is where it is to go, and the image is where it should be unless that is the same
place. A source that the symbol file went onto is never what it was. -/
theorem assembleFile_spares (request : AssembleRequest) (before : σ) : ∃ reply after,
    Id.run (StateT.run (assembleFile request).reply before) = (reply, after) ∧
      (¬Overlaid request before request.input →
        at? after request.input = at? before request.input) ∧
      (reply.outcome = .done →
        (Overlaid request before request.input →
          at? after request.input ≠ at? before request.input) ∧
        ∃ assembly, Assembles before request.input assembly ∧
          (¬Overlaid request after request.image →
            at? after request.image = .ok (bytesOf assembly.bytes)) ∧
          ∀ path, Overlaid request after path → at? after path = .ok (symbolFile assembly)) := by
  obtain ⟨result, said, after, ran, finishes⟩ := on_assembleFile request "" before
  refine ⟨_, after, Work.run_reply ran, finishes.source_kept, fun done => ?_⟩
  cases result with
  | error failure => cases done
  | ok =>
    obtain ⟨assembly, source, image, table⟩ := finishes.written_out
    refine ⟨fun overlaid same => ?_, assembly, source, image, table⟩
    have replaced := table request.input (finishes.overlaid overlaid)
    exact source.ne_symbolFile assembly (same.symm.trans replaced)

theorem ready_source {text : List Char} {assembly : Assembly}
    (assembled : WordMachine.assemble text = .ok assembly) (symbols : List Char) :
    Ready ⟨['s'], some ['o'], some symbols⟩ (⟨[(['s'], textBytes text)]⟩ : Folder) assembly := by
  refine ⟨⟨text, ⟨_, rfl, textOfBytes_textBytes _⟩, assembled⟩, ?_⟩
  rintro (alike | same)
  · exact absurd alike (show Path.components ['o'] ≠ Path.components ['s'] by decide)
  · have aside (folder : Folder) : folder.locate ['o'] = .ok (.entry ['o']) := rfl
    exact Folder.not_alias (aside _) rfl (by decide) same

theorem ready_label (symbols : List Char) : Ready ⟨['s'], some ['o'], some symbols⟩
    (⟨[(['s'], textBytes ['.', 'a'])]⟩ : Folder) ⟨[.padding], Symbols.empty.declare ['a'] 0⟩ :=
  ready_source rfl symbols

theorem assembleFile_spares_beside : ∃ (request : AssembleRequest) (before : Folder) (reply : Reply)
    (after : Folder), request = ⟨['s'], some ['o'], some ['t']⟩ ∧
    before = ⟨[(['s'], textBytes ['.', 'a'])]⟩ ∧
    Id.run (StateT.run (assembleFile request).reply before) = (reply, after) ∧
    reply.outcome = .done ∧ at? after request.input = at? before request.input ∧
    ∃ assembly : Assembly, Assembles before request.input assembly ∧
      at? after request.image = .ok (bytesOf assembly.bytes) := by
  obtain ⟨said, puts⟩ := assembleFile_puts (ready_label ['t']) rfl rfl rfl
  obtain ⟨reply, after, ran, source, ended⟩ := assembleFile_spares ⟨['s'], some ['o'], some ['t']⟩
    (⟨[(['s'], textBytes ['.', 'a'])]⟩ : Folder)
  have spared (folder : Folder) {path : List Char} {place : Place} (there : folder.locate path = .ok place)
      (different : .entry ['t'] ≠ place) : ¬Overlaid ⟨['s'], some ['o'], some ['t']⟩ folder path := by
    rintro ⟨_, ⟨⟩, same⟩
    exact Folder.not_alias rfl there different same
  have done : reply.outcome = .done := by
    cases puts.symm.trans ran
    rfl
  obtain ⟨-, assembly, assembles, image, -⟩ := ended done
  have kept := source (spared _ rfl (by decide))
  exact ⟨_, _, reply, after, rfl, rfl, ran, done, kept, assembly, assembles,
    image (spared after rfl (by decide))⟩

/-- The symbol file may be put in the place of the source. -/
theorem not_forall_assembleFile_spares : ¬∀ (request : AssembleRequest) (before : Folder) (reply : Reply)
    (after : Folder), Id.run (StateT.run (assembleFile request).reply before) = (reply, after) →
      at? after request.input = at? before request.input ∧
      (reply.outcome = .done → ∃ assembly, Assembles before request.input assembly ∧
        at? after request.image = .ok (bytesOf assembly.bytes)) := by
  intro spares
  have ready := ready_label ['s']
  obtain ⟨said, puts⟩ := assembleFile_puts ready rfl rfl rfl
  obtain ⟨same, -⟩ := spares _ _ _ _ puts
  exact ready.source.ne_symbolFile _ (same.symm.trans rfl)

end WordMachine.Tool
