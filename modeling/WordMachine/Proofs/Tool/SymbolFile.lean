import WordMachine.Proofs.Json.Spelling
import WordMachine.Proofs.Source.NamedListing
import WordMachine.Proofs.Tool.Overwriting
import WordMachine.Tool.Inspect

/-! Symbol files on their way from one tool to the other. The assembler writes the addresses of the names,
the disassembler reads the names of the addresses. Nothing is lost on the way, since a name comes through
whatever its characters are, and since no two names share an address. -/

namespace WordMachine

open Json Text FileSystem

/-- The names by address are the addresses by name, read the other way: an entry for every name, and no
address twice. -/
structure Labels.Inverts (labels : Labels) (symbols : Symbols) : Prop where
  listed : labels.entries.Perm (symbols.declared.map Prod.swap)
  distinct : (labels.entries.map Prod.fst).Nodup
  named : ∀ address name, labels.name? address = some name ↔ symbols.offset? name = some address

section Inverse

variable {lines : List Line} {assembly : Assembly} (assembled : assembleLines lines = .ok assembly)

include assembled in
theorem nodup_names : (assembly.symbols.declared.map Prod.fst).Nodup :=
  Symbols.nodup_of_ofLines (assembleLines_eq_ok_iff.1 assembled).1

include assembled in
theorem offset?_eq_some_iff_mem {name : List Char} {address : UInt32} :
    assembly.symbols.offset? name = some address ↔ (name, address) ∈ assembly.symbols.declared :=
  Table.lookup_eq_some_iff_mem (nodup_names assembled)

include assembled in
theorem nodup_addresses (short : lines.length < 2 ^ 30) :
    (assembly.symbols.declared.map Prod.snd).Nodup := by
  refine (List.Nodup.of_map _ (nodup_names assembled)).map_on ?_
  intro first listed second also same
  have found := (offset?_eq_some_iff_mem assembled).2 listed
  have again : assembly.symbols.offset? second.1 = some first.2 := by
    rw [same]
    exact (offset?_eq_some_iff_mem assembled).2 also
  exact Prod.ext (name_unique assembled short _ _ _ found again) same

include assembled in
theorem inverts_ofNames (short : lines.length < 2 ^ 30) {members : List (List Char × UInt32)}
    (listed : members.Perm assembly.symbols.declared) :
    (Labels.ofNames (Table.ofList members)).Inverts assembly.symbols := by
  have names : (members.map Prod.fst).Nodup := (listed.map Prod.fst).symm.nodup (nodup_names assembled)
  have sorted : (Table.ofList members).Perm assembly.symbols.declared :=
    (Table.perm_ofList names).trans listed
  have swapped : ((Table.ofList members).map Prod.swap).Perm
    (assembly.symbols.declared.map Prod.swap) := sorted.map Prod.swap
  have addresses : ((assembly.symbols.declared.map Prod.swap).map Prod.fst).Nodup := by
    rw [List.map_map]
    exact nodup_addresses assembled short
  have entries : (Labels.ofNames (Table.ofList members)).entries.Perm
      (assembly.symbols.declared.map Prod.swap) :=
    (Table.perm_ofList ((swapped.map Prod.fst).symm.nodup addresses)).trans swapped
  have distinct := (entries.map Prod.fst).symm.nodup addresses
  refine ⟨entries, distinct, ?_⟩
  intro address name
  calc
    (Labels.ofNames (Table.ofList members)).name? address = some name
      ↔ (address, name) ∈ (Labels.ofNames (Table.ofList members)).entries :=
        Table.lookup_eq_some_iff_mem distinct
    _ ↔ (address, name) ∈ assembly.symbols.declared.map Prod.swap := entries.mem_iff
    _ ↔ (name, address) ∈ assembly.symbols.declared := by simp
    _ ↔ assembly.symbols.offset? name = some address := (offset?_eq_some_iff_mem assembled).symm

include assembled in
theorem exists_labels_of_writesObject (short : lines.length < 2 ^ 30)
    {members : List (List Char × UInt32)} (listed : members.Perm assembly.symbols.declared)
    {text : List Char} (writes : WritesObject members text) :
    ∃ labels, Labels.ofSymbolFile? text = some labels ∧ labels.Inverts assembly.symbols := by
  refine ⟨_, ?_, inverts_ofNames assembled short listed⟩
  rw [Labels.ofSymbolFile?, object?_of_writesObject writes, Option.map_some]

end Inverse

namespace Tool

section Files

variable {σ : Type} [FileSystem (StateM σ)] [Lawful σ]

theorem on_loadLabels {files : σ} {path text : List Char} {labels : Labels}
    (holds : HoldsText files path text) (read : Labels.ofSymbolFile? text = some labels)
    (printed : String) :
    (loadLabels path : Work (StateM σ) _).on printed files = ((.ok labels, printed), files) := by
  obtain ⟨result, looked, known⟩ := Work.on_readText path printed files
  obtain rfl := (known text).2 holds
  rw [loadLabels, Work.on_bind_of_ok looked, read]
  rfl

theorem holds_symbolFile {request : AssembleRequest} {before after : σ} {said : String}
    {path : List Char} {assembly : Assembly} (source : Assembles before request.input assembly)
    (asked : request.symbols = some path)
    (ran : Id.run (StateT.run (assembleFile request).reply before) = (⟨said, .done⟩, after)) :
    HoldsText after path assembly.symbols.toJson.pretty := by
  obtain ⟨result, heard, last, on, finishes⟩ := on_assembleFile request "" before
  obtain ⟨replied, rfl⟩ := Prod.mk.inj ((Work.run_reply on).symm.trans ran)
  cases finishes with
  | refused | unwritten | unlisted => cases (Reply.mk.inj replied).2
  | written _ _ bare => cases bare.symm.trans asked
  | listed ready image named table =>
    cases named.symm.trans asked
    cases ready.source.unique source
    exact ⟨_, Lawful.written table, textOfBytes_textBytes _⟩

end Files

/-- The symbol file of a source below `2 ^ 30` lines is an object of its symbols. Any such object, in
whatever order and however it is written, is read as the inverse of the symbols, and so is the file that
the assembler has left behind. -/
theorem symbol_file_read_back {source : List Char} {assembly : Assembly}
    (assembled : WordMachine.assemble source = .ok assembly)
    (short : (lines source).length < 2 ^ 30) :
    (WritesObject assembly.symbols.byName assembly.symbols.toJson.pretty ∧
      assembly.symbols.byName.Perm assembly.symbols.declared) ∧
    (∀ members text, members.Perm assembly.symbols.declared → WritesObject members text →
      ∃ labels, Labels.ofSymbolFile? text = some labels ∧ labels.Inverts assembly.symbols) ∧
    ∀ {σ : Type} [FileSystem (StateM σ)] [Lawful σ] (request : AssembleRequest) (before after : σ)
      (said : String) (path : List Char), HoldsText before request.input source →
        request.symbols = some path →
        Id.run (StateT.run (assembleFile request).reply before) = (⟨said, .done⟩, after) →
        ∃ labels, (∀ printed, (loadLabels path : Work (StateM σ) _).on printed after =
          ((.ok labels, printed), after)) ∧ labels.Inverts assembly.symbols := by
  have few : ((lines source).map Line.ofText).length < 2 ^ 30 := by rwa [List.length_map]
  have written := writesObject_pretty assembly.symbols.byName
  have sorted := Table.perm_ofList (nodup_names assembled)
  refine ⟨⟨written, sorted⟩, ?_, ?_⟩
  · intro members text listed writes
    exact exists_labels_of_writesObject assembled few listed writes
  · intro σ _ _ request before after said path holds asked ran
    obtain ⟨labels, read, inverts⟩ := exists_labels_of_writesObject assembled few sorted written
    have held := holds_symbolFile ⟨source, holds, assembled⟩ asked ran
    exact ⟨labels, on_loadLabels held read, inverts⟩

theorem symbol_file_read_back_quoted :
    let first := "say \"no\" \\ \x01 é".toList
    let second := "😀".toList
    let source := ".say \"no\" \\ \x01 é\nhalt\n. 😀 ; end".toList
    let request : AssembleRequest := ⟨['s'], some ['o'], some ['t']⟩
    ∃ (said : String) (after : Folder) (labels : Labels),
      Id.run (StateT.run (assembleFile request).reply (⟨[(['s'], textBytes source)]⟩ : Folder)) =
        (⟨said, .done⟩, after) ∧
      (loadLabels ['t'] : Work (StateM Folder) _).on "" after = ((.ok labels, ""), after) ∧
      labels.entries.length = 2 ∧ labels.name? 0 = some first ∧ labels.name? 8 = some second := by
  intro first second source request
  have assembled : WordMachine.assemble source =
      .ok ⟨[.padding, (Instr.bare .halt).encode, .padding], ⟨[(first, 0), (second, 8)]⟩⟩ := rfl
  obtain ⟨said, ran⟩ := assembleFile_puts (ready_source assembled ['t']) rfl rfl rfl
  obtain ⟨-, -, loaded⟩ := symbol_file_read_back assembled (by decide)
  have holds : HoldsText (⟨[(['s'], textBytes source)]⟩ : Folder) request.input source :=
    ⟨_, rfl, textOfBytes_textBytes source⟩
  obtain ⟨labels, read, inverts⟩ := loaded request _ _ said ['t'] holds rfl ran
  have counted := inverts.listed.length_eq
  exact ⟨said, _, labels, ran, read "", counted, (inverts.named 0 first).2 rfl,
    (inverts.named 8 second).2 rfl⟩

end Tool

end WordMachine
