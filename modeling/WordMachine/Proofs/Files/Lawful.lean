import WordMachine.Files.Folder

/-! What a tool may rely on of the files that it works on, and that a folder lives up to it. -/

namespace WordMachine

namespace FileSystem

section Views

variable {σ : Type} [FileSystem (StateM σ)]

def reading (files : σ) (path : List Char) : Except FileFault ByteArray × σ :=
  Id.run (StateT.run (FileSystem.read path) files)

def naming (files : σ) (path : List Char) : Option (List Char) × σ :=
  Id.run (StateT.run (FileSystem.canonical? path) files)

def writing (files : σ) (path : List Char) (contents : ByteArray) : Except FileFault Unit × σ :=
  Id.run (StateT.run (FileSystem.write path contents) files)

def at? (files : σ) (path : List Char) : Except FileFault ByteArray := (reading files path).1

/-- Paths of the same thing. -/
def Alias (files : σ) (first second : List Char) : Prop :=
  ∃ name, (naming files first).1 = some name ∧ (naming files second).1 = some name

end Views

/-- Files with one name each, so that different names have different files behind them. A look leaves them
alone. A write, even one that fails, leaves alone what has another name; it takes no name away, and it leads
no path to a thing that was there before. -/
class Lawful (σ : Type) [FileSystem (StateM σ)] : Prop where
  reading_quiet (files : σ) (path : List Char) : (reading files path).2 = files
  naming_quiet (files : σ) (path : List Char) : (naming files path).2 = files
  named {files : σ} {path : List Char} {contents : ByteArray} (found : at? files path = .ok contents) :
    Alias files path path
  alike {files : σ} {first second : List Char} (same : Alias files first second) :
    at? files first = at? files second
  written {files after : σ} {path : List Char} {contents : ByteArray}
    (done : writing files path contents = (.ok (), after)) : at? after path = .ok contents
  kept {files after : σ} {path first second : List Char} {contents : ByteArray}
    {result : Except FileFault Unit} (wrote : writing files path contents = (result, after))
    (same : Alias files first second) : Alias after first second
  settled {files after : σ} {path first second : List Char} {contents : ByteArray}
    {result : Except FileFault Unit} (wrote : writing files path contents = (result, after))
    (named : Alias files second second) (same : Alias after first second) : Alias files first second
  apart {files after : σ} {path other : List Char} {contents : ByteArray}
    {result : Except FileFault Unit} (wrote : writing files path contents = (result, after))
    (named : Alias files other other) (different : ¬Alias files path other) :
    at? after other = at? files other

end FileSystem

namespace Folder

variable {folder : Folder} {path name : List Char} {contents : ByteArray}

theorem get?_put_self (folder : Folder) (name : List Char) (contents : ByteArray) :
    (folder.put name contents).get? name = some contents := by
  simp [put, get?]

theorem get?_put_of_ne {other : List Char} (different : other ≠ name) :
    (folder.put name contents).get? other = folder.get? other := by
  obtain ⟨files⟩ := folder
  simp only [put, get?, List.lookup_cons, beq_false_of_ne different]
  induction files with
  | nil => rfl
  | cons file rest ih =>
    obtain ⟨first, held⟩ := file
    by_cases same : first = name
    · subst same
      simpa [List.lookup_cons, beq_false_of_ne different] using ih
    · simp [List.lookup_cons, same, ih]

theorem isSome_get?_put {other : List Char} (there : (folder.get? other).isSome) :
    ((folder.put name contents).get? other).isSome := by
  by_cases same : other = name
  · subst same
    rw [get?_put_self]
    rfl
  · rwa [get?_put_of_ne same]

theorem walk_eq_ok {place there : Place} {parts : List (List Char)} (other : Folder)
    (found : folder.walk place parts = .ok there) : other.walk place parts = .ok there := by
  fun_induction walk folder place parts with
  | case1 => exact found
  | case2 part rest neutral ih => rw [walk, if_pos neutral, ih found]
  | case3 => cases found
  | case4 part rest named down ih => rw [walk, if_neg named, if_neg down, ih found]
  | case5 | case6 => cases found

theorem locate_eq_ok {there : Place} (other : Folder) (found : folder.locate path = .ok there) :
    other.locate path = .ok there := by
  unfold locate at found ⊢
  split at found
  · cases found
  · next relative => rw [if_neg relative, walk_eq_ok other found]

theorem not_neutral_of_walk {parts : List (List Char)}
    (found : folder.walk .folder parts = .ok (.entry name)) : ¬Path.isNeutral name := by
  generalize start : Place.folder = place at found
  fun_induction walk folder place parts with
  | case1 =>
    subst start
    cases found
  | case2 part rest neutral ih => exact ih rfl found
  | case3 => cases found
  | case4 part rest named down ih =>
    cases rest with
    | nil =>
      rw [walk] at found
      cases found
      exact named
    | cons next rest =>
      rw [walk] at found
      split at found <;> cases found
  | case5 | case6 => cases found

theorem ne_dot_of_locate (found : folder.locate path = .ok (.entry name)) : name ≠ ['.'] := by
  rintro rfl
  unfold locate at found
  split at found
  · cases found
  · exact not_neutral_of_walk found rfl

def Present (folder : Folder) : Place → Prop
  | .folder => True
  | .entry name => (folder.get? name).isSome

theorem canonical?_eq_some_iff : folder.canonical? path = some name ↔
    (folder.locate path = .ok .folder ∧ ['.'] = name) ∨
      (folder.locate path = .ok (.entry name) ∧ folder.Present (.entry name)) := by
  rw [canonical?]
  cases folder.locate path with
  | error fault => simp
  | ok place =>
    cases place with
    | folder => simp
    | entry other =>
      simp only [Option.ite_none_right_eq_some, Option.some.injEq, Except.ok.injEq, reduceCtorEq,
        Place.entry.injEq, false_and, false_or, Present]
      constructor
      · rintro ⟨there, rfl⟩
        exact ⟨rfl, there⟩
      · rintro ⟨rfl, there⟩
        exact ⟨there, rfl⟩

theorem alias_iff {first second : List Char} : FileSystem.Alias folder first second ↔
    ∃ place, folder.locate first = .ok place ∧ folder.locate second = .ok place ∧
      folder.Present place := by
  change (∃ name, folder.canonical? first = some name ∧ folder.canonical? second = some name) ↔ _
  simp only [canonical?_eq_some_iff]
  constructor
  · rintro ⟨name, ⟨here, rfl⟩ | ⟨here, there⟩, ⟨again, same⟩ | ⟨again, -⟩⟩
    · exact ⟨_, here, again, trivial⟩
    · exact absurd rfl (ne_dot_of_locate again)
    · exact absurd same.symm (ne_dot_of_locate here)
    · exact ⟨_, here, again, there⟩
  · rintro ⟨place, here, again, there⟩
    cases place with
    | folder => exact ⟨_, .inl ⟨here, rfl⟩, .inl ⟨again, rfl⟩⟩
    | entry name => exact ⟨name, .inr ⟨here, there⟩, .inr ⟨again, there⟩⟩

theorem not_alias {first second : List Char} {place other : Place}
    (here : folder.locate first = .ok place) (there : folder.locate second = .ok other)
    (different : place ≠ other) : ¬FileSystem.Alias folder first second := by
  intro same
  obtain ⟨_, again, found, -⟩ := alias_iff.1 same
  cases here.symm.trans again
  cases there.symm.trans found
  exact different rfl

theorem read_eq_ok_iff : folder.read path = .ok contents ↔
    ∃ name, folder.locate path = .ok (.entry name) ∧ folder.get? name = some contents := by
  rw [read]
  cases folder.locate path with
  | error fault => simp
  | ok place =>
    cases place with
    | folder => simp
    | entry other =>
      simp only [Except.ok.injEq, Place.entry.injEq, exists_eq_left']
      cases folder.get? other <;> simp

theorem target_eq_ok_iff : folder.target path = .ok name ↔ folder.locate path = .ok (.entry name) := by
  rw [target]
  cases folder.locate path with
  | error fault =>
    cases fault with
    | missing => simp only; split <;> simp
    | folder | notFolder | notText | device => simp
  | ok place => cases place <;> simp

theorem write_of_locate (found : folder.locate path = .ok (.entry name)) (contents : ByteArray) :
    folder.write path contents = (.ok (), folder.put name contents) := by
  rw [write, target_eq_ok_iff.2 found]

/-- A write puts a file where its path leads, or nothing. -/
theorem write_cases {result : Except FileFault Unit} {after : Folder}
    (wrote : folder.write path contents = (result, after)) :
    (∃ name, folder.locate path = .ok (.entry name) ∧ result = .ok () ∧
      after = folder.put name contents) ∨ (∃ fault, result = .error fault) ∧ after = folder := by
  unfold write at wrote
  split at wrote
  · next name found =>
    cases wrote
    exact .inl ⟨name, target_eq_ok_iff.1 found, rfl, rfl⟩
  · cases wrote
    exact .inr ⟨⟨_, rfl⟩, rfl⟩

theorem Present.put {place : Place} (there : folder.Present place) (name : List Char)
    (contents : ByteArray) : (folder.put name contents).Present place := by
  cases place with
  | folder => trivial
  | entry other => exact isSome_get?_put there

end Folder

instance : FileSystem.Lawful Folder where
  reading_quiet folder path := rfl
  naming_quiet folder path := rfl
  named {folder path contents} found := by
    obtain ⟨name, here, held⟩ := Folder.read_eq_ok_iff.1 found
    exact Folder.alias_iff.2 ⟨_, here, here, Option.isSome_of_eq_some held⟩
  alike {folder first second} same := by
    obtain ⟨place, here, again, -⟩ := Folder.alias_iff.1 same
    change folder.read first = folder.read second
    rw [Folder.read, here, Folder.read, again]
  written {folder after path contents} done := by
    obtain ⟨name, here, -, rfl⟩ | ⟨⟨fault, failed⟩, -⟩ := Folder.write_cases done
    · exact Folder.read_eq_ok_iff.2 ⟨name, Folder.locate_eq_ok _ here, folder.get?_put_self name contents⟩
    · cases failed
  kept {folder after path first second contents result} wrote same := by
    obtain ⟨place, here, again, there⟩ := Folder.alias_iff.1 same
    obtain ⟨name, -, -, rfl⟩ | ⟨-, rfl⟩ := Folder.write_cases wrote
    · exact Folder.alias_iff.2
        ⟨place, Folder.locate_eq_ok _ here, Folder.locate_eq_ok _ again, there.put name contents⟩
    · exact same
  settled {folder after path first second contents result} wrote named same := by
    obtain ⟨place, here, -, there⟩ := Folder.alias_iff.1 named
    obtain ⟨name, -, -, rfl⟩ | ⟨-, rfl⟩ := Folder.write_cases wrote
    · obtain ⟨other, leads, again, -⟩ := Folder.alias_iff.1 same
      cases again.symm.trans (Folder.locate_eq_ok _ here)
      exact Folder.alias_iff.2 ⟨_, Folder.locate_eq_ok folder leads, here, there⟩
    · exact same
  apart {folder after path other contents result} wrote named different := by
    obtain ⟨place, here, -, there⟩ := Folder.alias_iff.1 named
    obtain ⟨name, written, -, rfl⟩ | ⟨-, rfl⟩ := Folder.write_cases wrote
    · have again := Folder.locate_eq_ok (folder.put name contents) here
      change (folder.put name contents).read other = folder.read other
      cases place with
      | folder => rw [Folder.read, again, Folder.read, here]
      | entry held =>
        have unlike : held ≠ name := by
          rintro rfl
          exact different (Folder.alias_iff.2 ⟨_, written, here, there⟩)
        simp only [Folder.read, again, here, Folder.get?_put_of_ne unlike]
    · rfl

end WordMachine
