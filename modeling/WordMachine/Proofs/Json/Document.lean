import WordMachine.Proofs.Json.Spelling

/-! Documents as they are written and read. A text is one of the ways to write a document, with blanks around
every part of it, and the parts of a document are looked up by their names. -/

namespace WordMachine.Json

mutual

/-- The ways to write a document. -/
inductive Writes : Json → List Char → Prop
  | null : Writes .null "null".toList
  | number {n : Nat} {text : List Char} (number : WritesNumber n text) : Writes (.number n) text
  | string {text spelled : List Char} (string : WritesString text spelled) :
    Writes (.string text) spelled
  | array {items : List Json} {inside : List Char} (listed : WritesItems items inside) :
    Writes (.array items) ('[' :: (inside ++ [']']))
  | object {fields : List (List Char × Json)} {inside : List Char}
    (listed : WritesFields fields inside) : Writes (.object fields) ('\x7b' :: (inside ++ ['\x7d']))

inductive WritesItems : List Json → List Char → Prop
  | none {inside : List Char} (blank : Blanks inside) : WritesItems [] inside
  | one {item : Json} {before text after : List Char} (ahead : Blanks before)
    (value : Writes item text) (behind : Blanks after) : WritesItems [item] (before ++ text ++ after)
  | more {item next : Json} {items : List Json} {before text after others : List Char}
    (ahead : Blanks before) (value : Writes item text) (behind : Blanks after)
    (rest : WritesItems (next :: items) others) :
    WritesItems (item :: next :: items) (before ++ text ++ after ++ ',' :: others)

inductive WritesFields : List (List Char × Json) → List Char → Prop
  | none {inside : List Char} (blank : Blanks inside) : WritesFields [] inside
  | one {field : List Char × Json} {text : List Char} (only : WritesField field text) :
    WritesFields [field] text
  | more {field next : List Char × Json} {fields : List (List Char × Json)} {text others : List Char}
    (first : WritesField field text) (rest : WritesFields (next :: fields) others) :
    WritesFields (field :: next :: fields) (text ++ ',' :: others)

inductive WritesField : List Char × Json → List Char → Prop
  | field {name quoted before between behind text after : List Char} {value : Json}
    (ahead : Blanks before) (string : WritesString name quoted) (inside : Blanks between)
    (next : Blanks behind) (written : Writes value text) (last : Blanks after) :
    WritesField (name, value) (before ++ quoted ++ between ++ ':' :: (behind ++ text ++ after))

end

section Indented

variable {items : List Json} {fields : List (List Char × Json)}

theorem writesItems_frame {depth : Nat} {write : Json → List Char}
    (each : ∀ item ∈ items, Writes item (write item)) (filled : items ≠ []) :
    WritesItems items ([','].intercalate ((items.map write).map fun text => newLine (depth + 1) ++ text)
      ++ newLine depth) := by
  induction items with
  | nil => exact absurd rfl filled
  | cons item rest ih =>
    obtain ⟨first, others⟩ := List.forall_mem_cons.1 each
    cases rest with
    | nil => simpa using WritesItems.one (blanks_newLine (depth + 1)) first (blanks_newLine depth)
    | cons next more =>
      have later := ih others (List.cons_ne_nil next more)
      have written := WritesItems.more (blanks_newLine (depth + 1)) first (List.forall_mem_nil _) later
      simpa [List.intercalate_cons_cons] using written

theorem writesFields_frame {depth : Nat} {write : Json → List Char}
    (each : ∀ field ∈ fields, Writes field.2 (write field.2)) (filled : fields ≠ []) :
    WritesFields fields ([','].intercalate
      ((fields.map fun field => quote field.1 ++ ':' :: ' ' :: write field.2).map fun text =>
        newLine (depth + 1) ++ text) ++ newLine depth) := by
  have space : Blanks [' '] := List.forall_mem_singleton.2 (by decide)
  have line {field : List Char × Json} (written : Writes field.2 (write field.2)) {after : List Char}
      (last : Blanks after) : WritesField field
        (newLine (depth + 1) ++ (quote field.1 ++ ':' :: ' ' :: write field.2) ++ after) := by
    have spelled := WritesField.field (blanks_newLine (depth + 1)) (writesString_quote field.1)
      (List.forall_mem_nil _) space written last
    simpa using spelled
  induction fields with
  | nil => exact absurd rfl filled
  | cons field rest ih =>
    obtain ⟨first, others⟩ := List.forall_mem_cons.1 each
    cases rest with
    | nil => simpa using WritesFields.one (line first (blanks_newLine depth))
    | cons next more =>
      have later := ih others (List.cons_ne_nil next more)
      have written := WritesFields.more (line first (List.forall_mem_nil _)) later
      simpa [List.intercalate_cons_cons] using written

/-- The indented form is one of the ways to write a document. -/
theorem writes_indented (depth : Nat) (json : Json) : Writes json (json.indented depth) := by
  cases json with
  | null =>
    rw [indented]
    exact .null
  | number n =>
    rw [indented]
    exact .number (writesNumber_decimal n)
  | string text =>
    rw [indented]
    exact .string (writesString_quote text)
  | array items =>
    have each : ∀ item ∈ items, Writes item (item.indented (depth + 1)) :=
      fun item _ => writes_indented (depth + 1) item
    rw [indented, frame]
    split
    · next empty =>
      obtain rfl : items = [] := by simpa using empty
      exact .array (.none (List.forall_mem_nil _))
    · next filled => exact .array (writesItems_frame each (by simpa using filled))
  | object fields =>
    have each : ∀ field ∈ fields, Writes field.2 (field.2.indented (depth + 1)) :=
      fun field _ => writes_indented (depth + 1) field.2
    rw [indented, frame]
    split
    · next empty =>
      obtain rfl : fields = [] := by simpa using empty
      exact .object (.none (List.forall_mem_nil _))
    · next filled => exact .object (writesFields_frame each (by simpa using filled))
termination_by sizeOf json
decreasing_by
  · have smaller := List.sizeOf_lt_of_mem ‹_›
    simp only [array.sizeOf_spec]
    omega
  · have smaller := List.sizeOf_lt_of_mem ‹_›
    have part := sizeOf_snd_lt field
    simp only [object.sizeOf_spec]
    omega

theorem writes_pretty (json : Json) : Writes json json.pretty := writes_indented 0 json

end Indented

def value? (name : String) : Json → Option Json
  | .object fields => fields.lookup name.toList
  | _ => none

def string? : Json → Option (List Char)
  | .string text => some text
  | _ => none

def number? : Json → Option Nat
  | .number value => some value
  | _ => none

def word? (json : Json) : Option UInt32 :=
  (json.number?.filter fun value => decide (value < UInt32.size)).map UInt32.ofNat

def byte? (json : Json) : Option UInt8 :=
  (json.number?.filter fun value => decide (value < UInt8.size)).map UInt8.ofNat

def list? {α : Type} (read : Json → Option α) : Json → Option (List α)
  | .array items => items.mapM read
  | _ => none

/-- A part that may be missing; if it is there, it has to be read. -/
def optional? {α : Type} (read : Json → Option α) : Option Json → Option (Option α)
  | none => some none
  | some json => (read json).map some

theorem word?_word (value : UInt32) : (word value).word? = some value := by
  simp [word, word?, number?, Option.filter, value.toNat_lt]

theorem byte?_number (value : UInt8) : (number value.toNat).byte? = some value := by
  simp [byte?, number?, Option.filter, value.toNat_lt]

theorem list?_array {α β : Type} {read : Json → Option β} {write : α → Json} {value : α → β}
    {items : List α} (reads : ∀ item ∈ items, read (write item) = some (value item)) :
    (array (items.map write)).list? read = some (items.map value) := by
  induction items with
  | nil => rfl
  | cons item rest ih =>
    obtain ⟨first, others⟩ := List.forall_mem_cons.1 reads
    have step : (rest.map write).mapM read = some (rest.map value) := ih others
    rw [list?, List.map_cons, List.mapM_cons, first, step]
    rfl

theorem list?_array_self {α : Type} {read : Json → Option α} {write : α → Json}
    (reads : ∀ item, read (write item) = some item) (items : List α) :
    (array (items.map write)).list? read = some items := by
  have found : (array (items.map write)).list? read = some (items.map id) :=
    list?_array fun item _ => reads item
  rwa [List.map_id] at found

theorem list?_bytes (values : List UInt8) : (bytes values).list? byte? = some values :=
  list?_array_self byte?_number values

end WordMachine.Json
