import WordMachine.Proofs.Flow.BlockGraph
import WordMachine.Proofs.Source.Grammar
import WordMachine.Proofs.Tool.Work
import WordMachine.Tool.Inspect

/-! Addresses as arguments of a tool. They have a grammar of their own, and a list of them comes to each of
them once or to a failure that shows the first text that is none. -/

namespace WordMachine

/-- Either all items are read, or the first that is not decides the fault. -/
theorem mapM_except_cases {α β ε : Type} (read : α → Except ε β) (items : List α) :
    (∃ values, (∀ item ∈ items, ∃ value ∈ values, read item = .ok value) ∧
      (∀ value ∈ values, ∃ item ∈ items, read item = .ok value) ∧ items.mapM read = .ok values) ∨
    ∃ before item after fault, items = before ++ item :: after ∧
      (∀ other ∈ before, ∃ value, read other = .ok value) ∧ read item = .error fault ∧
      items.mapM read = .error fault := by
  induction items with
  | nil => exact .inl ⟨[], List.forall_mem_nil _, List.forall_mem_nil _, rfl⟩
  | cons item rest ih =>
    rw [List.mapM_cons]
    cases first : read item with
    | error fault => exact .inr ⟨[], item, rest, fault, rfl, List.forall_mem_nil _, first, rfl⟩
    | ok value =>
      rcases ih with ⟨values, every, only, others⟩ | ⟨before, bad, after, fault, rfl, good, wrong, failed⟩
      · refine .inl ⟨value :: values, ?_, ?_, by rw [others]; rfl⟩
        · refine List.forall_mem_cons.2 ⟨⟨value, List.mem_cons_self, first⟩, fun other member => ?_⟩
          obtain ⟨found, inside, reads⟩ := every other member
          exact ⟨found, List.mem_cons_of_mem value inside, reads⟩
        · refine List.forall_mem_cons.2 ⟨⟨item, List.mem_cons_self, first⟩, fun other member => ?_⟩
          obtain ⟨source, inside, reads⟩ := only other member
          exact ⟨source, List.mem_cons_of_mem item inside, reads⟩
      · refine .inr ⟨item :: before, bad, after, fault, rfl, ?_, wrong, by rw [failed]; rfl⟩
        exact List.forall_mem_cons.2 ⟨⟨value, first⟩, good⟩

namespace Work

variable {σ α β : Type}

/-- Work that prints nothing, looks at no file and has one result. -/
def Yields (work : Work (StateM σ) α) (result : Except Failure α) : Prop :=
  ∀ printed files, work.on printed files = ((result, printed), files)

theorem Yields.bind {work : Work (StateM σ) α} {next : α → Work (StateM σ) β} {value : α}
    {result : Except Failure β} (first : work.Yields (.ok value)) (rest : (next value).Yields result) :
    (work >>= next).Yields result := by
  intro printed files
  rw [on_bind_of_ok (first printed files), rest printed files]

theorem Yields.bind_error {work : Work (StateM σ) α} {next : α → Work (StateM σ) β}
    {failure : Failure} (first : work.Yields (.error failure)) :
    (work >>= next).Yields (.error failure) :=
  fun printed files => on_bind_of_error (first printed files)

theorem yields_mapM {work : α → Work (StateM σ) β} {result : α → Except Failure β}
    (each : ∀ item, (work item).Yields (result item)) (items : List α) :
    (items.mapM work).Yields (items.mapM result) := by
  induction items with
  | nil => exact fun _ _ => rfl
  | cons item rest ih =>
    have first := each item
    rw [List.mapM_cons, List.mapM_cons]
    generalize result item = found at first
    generalize rest.mapM result = others at ih
    cases found with
    | error failure => exact first.bind_error
    | ok value =>
      cases others with
      | error failure => exact first.bind ih.bind_error
      | ok values => exact first.bind (ih.bind fun _ _ => rfl)

end Work

namespace Tool

open Text Operand

/-- A text stands for an address, in base sixteen behind a mark and else in decimal. -/
def NamesAddress (text : List Char) (address : UInt32) : Prop :=
  (∃ mark ∈ ["0x".toList, "0X".toList], ∃ rest, text = mark ++ rest ∧ Signed 16 rest address.toNat) ∨
    Signed 10 text address.toNat

theorem map_readNumeral_eq_ok_iff {base : Nat} {text : List Char} {address : UInt32} :
    (readNumeral base 0xFFFFFFFF text).map UInt32.ofNat = .ok address ↔ Signed base text address.toNat := by
  have low : address.toNat ≤ 0xFFFFFFFF := Nat.le_of_lt_succ address.toNat_lt
  rw [signed_iff]
  constructor
  · intro read
    cases found : readNumeral base 0xFFFFFFFF text with
    | error fault =>
      rw [found] at read
      cases read
    | ok n =>
      rw [found] at read
      obtain ⟨numeral, small⟩ := readNumeral_eq_ok_iff.1 found
      have same : UInt32.ofNat n = address := Except.ok.inj read
      rwa [← same, UInt32.toNat_ofNat_of_lt' (Nat.lt_succ_of_le small)]
  · intro numeral
    rw [readNumeral_eq_ok_iff.2 ⟨numeral, low⟩]
    exact congrArg Except.ok (UInt32.ofNat_toNat)

theorem readAddress_eq_ok_iff {text : List Char} {address : UInt32} :
    readAddress text = .ok address ↔ NamesAddress text address := by
  have shape {digits : List Char} : (∃ mark ∈ ["0x".toList, "0X".toList], text = mark ++ digits) ↔
      afterHexMark? text = some digits := by
    simp [afterHexMark?_eq_some_iff]
  rw [readAddress, NamesAddress]
  cases marked : afterHexMark? text with
  | some digits =>
    have decimal : ¬Signed 10 text address.toNat := by
      rw [signed_iff]
      exact not_numeral_of_hexMark (afterHexMark?_eq_some_iff.1 marked) _
    obtain ⟨mark, listed, split⟩ := shape.2 marked
    rw [or_iff_left decimal]
    refine map_readNumeral_eq_ok_iff.trans ⟨fun signed => ⟨mark, listed, digits, split, signed⟩, ?_⟩
    rintro ⟨other, member, rest, same, signed⟩
    have again := shape.1 ⟨other, member, same⟩
    rw [marked, Option.some.injEq] at again
    rwa [again]
  | none =>
    have unmarked : ¬∃ mark ∈ ["0x".toList, "0X".toList], ∃ rest, text = mark ++ rest ∧
        Signed 16 rest address.toNat := by
      rintro ⟨mark, listed, rest, split, -⟩
      have found := shape.1 ⟨mark, listed, split⟩
      rw [marked] at found
      cases found
    rw [or_iff_right unmarked]
    exact map_readNumeral_eq_ok_iff

/-- What the texts of entries come to: the first address if there are none, the addresses that they name, once
each and in ascending order, or a failure that shows the first that names none. -/
inductive EntriesOf : List (List Char) → Except Failure (List UInt32) → Prop
  | absent : EntriesOf [] (.ok [0])
  | named {texts : List (List Char)} {entries : List UInt32} (filled : texts ≠ [])
    (every : ∀ text ∈ texts, ∃ address ∈ entries, NamesAddress (trim text) address)
    (only : ∀ address ∈ entries, ∃ text ∈ texts, NamesAddress (trim text) address)
    (ascending : entries.Pairwise (· < ·)) : EntriesOf texts (.ok entries)
  | refused {before after : List (List Char)} {text : List Char} {fault : NumeralFault}
    (good : ∀ other ∈ before, ∃ address, NamesAddress (trim other) address)
    (bad : ∀ address, ¬NamesAddress (trim text) address)
    (cause : readAddress (trim text) = .error fault) :
    EntriesOf (before ++ text :: after)
      (.error ⟨"bad address '" ++ String.ofList (trim text) ++ "'", some fault.message⟩)

section Entries

variable {σ : Type}

def addressResult (text : List Char) : Except Failure UInt32 :=
  (readAddress (trim text)).mapError fun fault =>
    ⟨"bad address '" ++ String.ofList (trim text) ++ "'", some fault.message⟩

theorem yields_addressOf (text : List Char) :
    (addressOf text : Work (StateM σ) UInt32).Yields (addressResult text) :=
  fun printed files => Work.on_require _ _ _ printed files

theorem addressResult_eq_ok_iff {text : List Char} {address : UInt32} :
    addressResult text = .ok address ↔ NamesAddress (trim text) address :=
  Work.mapError_eq_ok_iff.trans readAddress_eq_ok_iff

theorem pairwise_eraseDups_ascending (addresses : List UInt32) :
    (ascending addresses).eraseDups.Pairwise (· < ·) := by
  have ordered := (pairwise_ascending addresses).sublist (eraseDups_sublist _)
  exact (ordered.and (nodup_eraseDups _)).imp fun both => UInt32.lt_of_le_of_ne both.1 both.2

theorem exists_yields_entryAddresses (texts : List (List Char)) :
    ∃ result, EntriesOf texts result ∧
      (entryAddresses texts : Work (StateM σ) (List UInt32)).Yields result := by
  cases texts with
  | nil => exact ⟨_, .absent, fun _ _ => rfl⟩
  | cons text rest =>
    have read := Work.yields_mapM (yields_addressOf (σ := σ)) (text :: rest)
    rcases mapM_except_cases addressResult (text :: rest) with
      ⟨addresses, every, only, found⟩ | ⟨before, bad, after, failure, split, good, wrong, failed⟩
    · rw [found] at read
      have listed (address : UInt32) :
          address ∈ (ascending addresses).eraseDups ↔ address ∈ addresses := by
        rw [List.mem_eraseDups, ascending, List.mem_mergeSort]
      simp only [← listed, addressResult_eq_ok_iff] at every only
      exact ⟨_, .named (List.cons_ne_nil text rest) every only (pairwise_eraseDups_ascending addresses),
        read.bind fun _ _ => rfl⟩
    · rw [failed] at read
      obtain ⟨fault, cause, rfl⟩ := Work.mapError_eq_error_iff.1 wrong
      have unnamed (address : UInt32) : ¬NamesAddress (trim bad) address := by
        intro named
        rw [readAddress_eq_ok_iff.2 named] at cause
        cases cause
      simp only [addressResult_eq_ok_iff] at good
      have failing : (entryAddresses (text :: rest) : Work (StateM σ) _).Yields (.error _) := read.bind_error
      rw [split] at failing ⊢
      exact ⟨_, .refused good unnamed cause, failing⟩

end Entries

end Tool

end WordMachine
