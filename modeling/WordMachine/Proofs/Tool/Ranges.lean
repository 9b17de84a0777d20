import WordMachine.Proofs.Flow.Ranges
import WordMachine.Proofs.Tool.Addresses
import WordMachine.Proofs.Tool.SymbolFile

/-! Listings of a range of a file. A listing shows the words of the window that is asked for, by the bytes
of the file that they are made of. -/

namespace WordMachine.Tool

open Text FileSystem

section Windows

variable {file : Array UInt8} {skip : Nat} {length : Option Nat} {image : Image}

/-- A window is whole words inside the file. -/
structure IsWindow (file : Array UInt8) (skip size : Nat) (image : Image) : Prop where
  inside : skip + size ≤ file.size
  aligned : skip % Word.size = 0
  whole : size % Word.size = 0
  bytes : image.bytes = file.extract skip (skip + size)

theorem window_eq_ok_iff : window file skip length = .ok image ↔
    IsWindow file skip (length.getD (file.size - skip)) image := by
  unfold window
  dsimp only
  generalize length.getD (file.size - skip) = size
  constructor
  · intro accepted
    split at accepted
    · cases accepted
    split at accepted
    · cases accepted
    split at accepted
    · cases accepted
    split at accepted
    · cases accepted
    cases accepted
    exact ⟨by omega, by omega, by omega, rfl⟩
  · rintro ⟨inside, aligned, whole, bytes⟩
    rw [if_neg (by omega), if_neg (by omega), if_neg (by omega), if_neg (by omega), ← bytes]

theorem IsWindow.size_eq {size : Nat} (window : IsWindow file skip size image) :
    image.bytes.size = size := by
  have inside := window.inside
  rw [window.bytes, Array.size_extract]
  omega

theorem IsWindow.standsAt {size : Nat} (window : IsWindow file skip size image) {pc : UInt32} {w : Word}
    (found : image.word? pc = some w) : w.StandsAt file (skip + pc.toNat) := by
  have stands : (image.bytes.extract pc.toNat (pc.toNat + 4)).toList = [w.b0, w.b1, w.b2, w.b3] :=
    Image.standsAt_of_word? found
  have long : (image.bytes.extract pc.toNat (pc.toNat + 4)).size = 4 := congrArg List.length stands
  have fits : pc.toNat + 4 ≤ size := by
    rw [Array.size_extract, window.size_eq] at long
    omega
  rw [window.bytes, Array.extract_extract, Nat.min_eq_left (by omega), ← Nat.add_assoc] at stands
  exact stands

end Windows

section Files

variable {σ : Type} [FileSystem (StateM σ)] {files : σ}

/-- The names that a tool takes for the addresses of an image: none, or those of a symbol file. -/
inductive Named (files : σ) : Option (List Char) → Labels → Prop
  | unnamed : Named files none .empty
  | named {path text : List Char} {labels : Labels} (holds : HoldsText files path text)
    (read : Labels.ofSymbolFile? text = some labels) : Named files (some path) labels

structure RangeRequest.Asks (request : RangeRequest) (start stop : UInt32) : Prop where
  start : NamesAddress (trim request.start) start
  stop : NamesAddress (trim request.stop) stop
  aloud : request.out = none

theorem on_listRange {image : Image} {labels : Labels} {request : RangeRequest} {start stop : UInt32}
    (asks : request.Asks start stop) (ordered : start ≤ stop) (aligned : Aligned start)
    (printed : String) (files : σ) :
    (listRange image labels request : Work (StateM σ) Unit).on printed files =
      ((.ok (), printed ++ textOfLines (image.list labels request.showBytes start stop)),
        files) := by
  have forward : ¬stop < start := UInt32.not_lt.2 ordered
  have first : (addressOf request.start : Work (StateM σ) _).Yields (.ok start) :=
    addressResult_eq_ok_iff.2 asks.start ▸ yields_addressOf request.start
  have last : (addressOf request.stop : Work (StateM σ) _).Yields (.ok stop) :=
    addressResult_eq_ok_iff.2 asks.stop ▸ yields_addressOf request.stop
  rw [listRange, Work.on_bind_of_ok (first printed files), Work.on_bind_of_ok (last printed files),
    if_neg forward, if_neg (not_not.2 aligned), asks.aloud]
  rfl

variable [Lawful σ]

theorem on_loadImage {input : List Char} {skip : Nat} {length : Option Nat} {contents : ByteArray}
    {image : Image} (found : at? files input = .ok contents)
    (accepted : window contents.data skip length = .ok image) (printed : String) :
    ∃ name, (loadImage input skip length : Work (StateM σ) _).on printed files =
      ((.ok (name, image), printed), files) := by
  have looked := Work.on_readFile input printed files
  rw [found] at looked
  rw [loadImage, Work.on_bind_of_ok looked, accepted]
  exact ⟨_, rfl⟩

theorem inspectFile_range {source : ImageSource} {request : RangeRequest} {contents : ByteArray}
    {image : Image} {labels : Labels} {start stop : UInt32}
    (found : at? files source.input = .ok contents)
    (accepted : window contents.data source.skip source.length = .ok image)
    (named : Named files source.labels labels) (asks : request.Asks start stop)
    (ordered : start ≤ stop) (aligned : Aligned start) :
    Id.run (StateT.run (inspectFile ⟨source, .range request⟩).reply files) =
      (⟨textOfLines (image.list labels request.showBytes start stop), .done⟩, files) := by
  obtain ⟨name, loaded⟩ := on_loadImage found accepted ""
  have listed : (listRange image labels request : Work (StateM σ) Unit).on "" files = _ :=
    on_listRange asks ordered aligned "" files
  have done : (inspectFile ⟨source, .range request⟩ : Work (StateM σ) Unit).on "" files =
      ((.ok (), "" ++ textOfLines (image.list labels request.showBytes start stop)),
        files) := by
    rw [inspectFile, Work.on_bind_of_ok loaded]
    dsimp only
    generalize source.labels = names at named
    cases named with
    | unnamed => exact listed
    | named holds read =>
      rw [Work.on_bind_of_ok (on_loadLabels holds read "")]
      exact listed
  rw [String.empty_append] at done
  exact Work.run_reply done

end Files

/-- A listing of a range of a window shows every word of the window at a place in the range once and in order,
with the name of its place, as the four bytes of the file that stand there. If the range goes on behind the
window, it shows the first place there as well, and nothing else. It takes a round for each word of the window
and one more, wherever the range ends, and the command prints it. -/
theorem range_lists_window {contents : ByteArray} {source : ImageSource} {image : Image}
    (accepted : window contents.data source.skip source.length = .ok image)
    (small : image.bytes.size < 2 ^ 32) {start stop : UInt32} (ordered : start ≤ stop)
    (aligned : Aligned start) (labels : Labels) (showBytes : Bool) :
    let size := source.length.getD (contents.size - source.skip)
    ∃ (shown : List (UInt32 × Word)) (rounds : Nat),
      ((shown.map Prod.fst).Pairwise (· < ·) ∧
        (∀ pc, pc ∈ shown.map Prod.fst ↔ Aligned pc ∧ start ≤ pc ∧ pc < stop ∧ pc.toNat < size) ∧
        ∀ entry ∈ shown, entry.2.StandsAt contents.data (source.skip + entry.1.toNat)) ∧
      let lines := rangeLines labels showBytes shown (firstBeyond? size start stop)
      (image.ListsIn labels showBytes stop start rounds lines ∧ rounds ≤ size / Word.size + 1) ∧
      ∀ {σ : Type} [FileSystem (StateM σ)] [Lawful σ] (files : σ) (request : RangeRequest),
        at? files source.input = .ok contents → Named files source.labels labels →
          request.Asks start stop → request.showBytes = showBytes →
          Id.run (StateT.run (inspectFile ⟨source, .range request⟩).reply files) =
            (⟨textOfLines lines, .done⟩, files) := by
  intro size
  have window : IsWindow contents.data source.skip size image := window_eq_ok_iff.1 accepted
  have whole : image.bytes.size % Word.size = 0 := by
    rw [window.size_eq]
    exact window.whole
  obtain ⟨shown, rounds, shows, lists, few⟩ :=
    Image.exists_listsIn labels showBytes stop whole small aligned
  have places := shows.places
  rw [window.size_eq] at places lists few
  refine ⟨shown, rounds, ⟨shows.ascending, places, ?_⟩, ⟨lists, few⟩, ?_⟩
  · intro entry listed
    exact window.standsAt (shows.words entry listed)
  · intro σ _ _ files request found named asks bytes
    have enough : rounds ≤ image.bytes.size + 1 := by
      have fewer := Nat.div_le_self size Word.size
      rw [window.size_eq]
      omega
    have lines := lists.listFrom_eq enough
    have printed := inspectFile_range found accepted named asks ordered aligned
    rw [bytes, Image.list, lines] at printed
    exact printed

theorem range_lists_window_beyond :
    let contents : ByteArray := ⟨#[0xFE, 0xFE, 0xFE, 0xFE, 0x0D, 0, 0, 0, 0xAB, 0xAB, 0xAB, 0xAB]⟩
    let files : Folder := ⟨[(['p'], contents), (['t'], textBytes "\x7b\"loop\": 0\x7d".toList)]⟩
    let source : ImageSource := ⟨['p'], 4, some 4, some ['t']⟩
    let request : RangeRequest := ⟨['0'], "0xffffffff".toList, true, none⟩
    Id.run (StateT.run (inspectFile ⟨source, .range request⟩).reply files) =
      (⟨"loop:\n0x000000: 0d 00 00 00   jmp loop\n0x000004: <oob>\n", .done⟩, files) := by
  intro contents files source request
  have accepted : window contents.data source.skip source.length = .ok ⟨#[0x0D, 0, 0, 0]⟩ := by
    decide
  obtain ⟨shown, rounds, ⟨ascending, places, stands⟩, -, prints⟩ :=
    range_lists_window accepted (by decide) (show 0 ≤ 0xFFFFFFFF by decide) rfl
      ⟨[(0, "loop".toList)]⟩ true
  have named : Named files source.labels ⟨[(0, "loop".toList)]⟩ :=
    .named ⟨_, rfl, textOfBytes_textBytes _⟩ rfl
  have printed := prints files request rfl named
    ⟨readAddress_eq_ok_iff.1 rfl, readAddress_eq_ok_iff.1 rfl, rfl⟩ rfl
  have size : source.length.getD (contents.size - source.skip) = 4 := rfl
  have place : ∀ pc, pc ∈ shown.map Prod.fst ↔ pc ∈ [(0 : UInt32)] := by
    intro pc
    have last : (0xFFFFFFFF : UInt32).toNat = 0xFFFFFFFF := rfl
    rw [places pc, size, List.mem_singleton, ← UInt32.toNat_inj]
    simp only [Aligned, Word.size, UInt32.le_iff_toNat_le, UInt32.lt_iff_toNat_lt, last]
    change pc.toNat % 4 = 0 ∧ 0 ≤ pc.toNat ∧ pc.toNat < 0xFFFFFFFF ∧ pc.toNat < 4 ↔ pc.toNat = 0
    omega
  have first : shown.map Prod.fst = [0] :=
    ascending.eq_of_mem_iff (List.pairwise_singleton _ _) place
  obtain ⟨entry, rfl, here⟩ := List.map_eq_singleton_iff.1 first
  obtain ⟨pc, b0, b1, b2, b3⟩ := entry
  obtain rfl : pc = 0 := here
  have part : (contents.data.extract 4 8).toList = [0x0D, 0, 0, 0] := by decide
  have bytes : [0x0D, 0, 0, 0] = [b0, b1, b2, b3] := part.symm.trans (stands _ List.mem_cons_self)
  cases bytes
  have text : textOfLines (rangeLines ⟨[(0, "loop".toList)]⟩ true [(0, ⟨0x0D, 0, 0, 0⟩)]
      (firstBeyond? 4 0 0xFFFFFFFF)) = "loop:\n0x000000: 0d 00 00 00   jmp loop\n0x000004: <oob>\n" := by
    rfl
  rw [size, text] at printed
  exact printed

end WordMachine.Tool
