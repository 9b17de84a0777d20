/-! Association lists in ascending order of their keys, each key once. -/

namespace WordMachine.Table

variable {κ ν : Type} [LT κ] [DecidableLT κ] [DecidableEq κ]

def insert (key : κ) (value : ν) : List (κ × ν) → List (κ × ν)
  | [] => [(key, value)]
  | entry :: rest =>
    if key < entry.1 then (key, value) :: entry :: rest
    else if key = entry.1 then (key, value) :: rest
    else entry :: insert key value rest

/-- The entries in order; of several with one key the last stays. -/
def ofList (entries : List (κ × ν)) : List (κ × ν) :=
  entries.foldl (fun table entry => insert entry.1 entry.2 table) []

theorem lookup_insert_self (key : κ) (value : ν) (table : List (κ × ν)) :
    (insert key value table).lookup key = some value := by
  induction table with
  | nil => simp [insert]
  | cons entry rest ih =>
    unfold insert
    split
    · simp
    · split
      · simp
      · next different =>
        obtain ⟨first, held⟩ := entry
        have apart : (key == first) = false := beq_eq_false_iff_ne.2 different
        simpa [List.lookup_cons, apart] using ih

theorem lookup_insert_of_ne {key other : κ} (value : ν) (table : List (κ × ν))
    (different : other ≠ key) : (insert key value table).lookup other = table.lookup other := by
  have apart : (other == key) = false := beq_eq_false_iff_ne.2 different
  induction table with
  | nil => simp [insert, List.lookup_cons, apart]
  | cons entry rest ih =>
    obtain ⟨first, held⟩ := entry
    unfold insert
    split
    · simp [List.lookup_cons, apart]
    · split
      · next same =>
        obtain rfl : key = first := same
        simp [List.lookup_cons, apart]
      · simp [List.lookup_cons, ih]

omit [LT κ] [DecidableLT κ] [DecidableEq κ] in
theorem mem_of_lookup [BEq κ] [LawfulBEq κ] {key : κ} {value : ν} {entries : List (κ × ν)}
    (found : entries.lookup key = some value) : (key, value) ∈ entries := by
  obtain ⟨before, after, shape, -⟩ := List.lookup_eq_some_iff.1 found
  rw [shape]
  exact List.mem_append_right before List.mem_cons_self

omit [LT κ] [DecidableLT κ] [DecidableEq κ] in
theorem lookup_eq_some_iff_mem [BEq κ] [LawfulBEq κ] {key : κ} {value : ν} {entries : List (κ × ν)}
    (distinct : (entries.map Prod.fst).Nodup) :
    entries.lookup key = some value ↔ (key, value) ∈ entries := by
  constructor
  · exact mem_of_lookup
  · intro member
    obtain ⟨before, after, rfl⟩ := List.append_of_mem member
    rw [List.map_append, List.map_cons] at distinct
    obtain ⟨-, -, apart⟩ := List.nodup_append.1 distinct
    refine List.lookup_eq_some_iff.2 ⟨before, after, rfl, ?_⟩
    intro entry earlier
    have different := apart entry.1 (List.mem_map_of_mem earlier) key List.mem_cons_self
    simpa using Ne.symm different

theorem mem_of_mem_insert {key : κ} {value : ν} {table : List (κ × ν)} {entry : κ × ν}
    (member : entry ∈ insert key value table) : entry = (key, value) ∨ entry ∈ table := by
  induction table with
  | nil => exact .inl (List.mem_singleton.1 member)
  | cons first rest ih =>
    unfold insert at member
    split at member
    · exact List.mem_cons.1 member
    · split at member
      · exact (List.mem_cons.1 member).imp_right (List.mem_cons_of_mem first)
      · rcases List.mem_cons.1 member with rfl | later
        · exact .inr List.mem_cons_self
        · exact (ih later).imp_right (List.mem_cons_of_mem first)

theorem mem_of_mem_foldl_insert {entries table : List (κ × ν)} {entry : κ × ν}
    (member : entry ∈ entries.foldl (fun table entry => insert entry.1 entry.2 table) table) :
    entry ∈ entries ∨ entry ∈ table := by
  induction entries generalizing table with
  | nil => exact .inr member
  | cons first rest ih =>
    rcases ih member with later | earlier
    · exact .inl (List.mem_cons_of_mem first later)
    · rcases mem_of_mem_insert earlier with rfl | before
      · exact .inl List.mem_cons_self
      · exact .inr before

theorem mem_of_mem_ofList {entries : List (κ × ν)} {entry : κ × ν}
    (member : entry ∈ ofList entries) : entry ∈ entries :=
  (mem_of_mem_foldl_insert member).resolve_right List.not_mem_nil

theorem lookup_foldl_insert {key : κ} {value : ν} {entries table : List (κ × ν)}
    (only : ∀ entry ∈ entries, entry.1 = key → entry.2 = value)
    (listed : (key, value) ∈ entries ∨ table.lookup key = some value) :
    (entries.foldl (fun table entry => insert entry.1 entry.2 table) table).lookup key =
      some value := by
  induction entries generalizing table with
  | nil => exact listed.resolve_left List.not_mem_nil
  | cons first rest ih =>
    obtain ⟨own, held⟩ := first
    obtain ⟨here, others⟩ := List.forall_mem_cons.1 only
    by_cases same : own = key
    · obtain rfl : held = value := here same
      subst same
      exact ih others (.inr (lookup_insert_self own held table))
    · have untouched := lookup_insert_of_ne held table (Ne.symm same)
      refine ih others (listed.imp ?_ untouched.trans)
      intro member
      exact (List.mem_cons.1 member).resolve_left fun equal => same (Prod.mk.inj equal).1.symm

/-- An entry whose key has no other value is found. -/
theorem lookup_ofList {key : κ} {value : ν} {entries : List (κ × ν)}
    (listed : (key, value) ∈ entries) (only : ∀ entry ∈ entries, entry.1 = key → entry.2 = value) :
    (ofList entries).lookup key = some value :=
  lookup_foldl_insert only (.inl listed)

theorem mem_ofList {key : κ} {value : ν} {entries : List (κ × ν)} (listed : (key, value) ∈ entries)
    (only : ∀ entry ∈ entries, entry.1 = key → entry.2 = value) : (key, value) ∈ ofList entries :=
  mem_of_lookup (lookup_ofList listed only)

theorem perm_insert {key : κ} {value : ν} {table : List (κ × ν)}
    (fresh : key ∉ table.map Prod.fst) : (insert key value table).Perm ((key, value) :: table) := by
  induction table with
  | nil => exact .rfl
  | cons first rest ih =>
    obtain ⟨different, later⟩ : key ≠ first.1 ∧ key ∉ rest.map Prod.fst := by simpa using fresh
    unfold insert
    rw [if_neg different]
    split
    · exact .rfl
    · exact ((ih later).cons first).trans (.swap ..)

theorem perm_foldl_insert {entries table : List (κ × ν)}
    (distinct : ((table ++ entries).map Prod.fst).Nodup) :
    (entries.foldl (fun table entry => insert entry.1 entry.2 table) table).Perm
      (table ++ entries) := by
  induction entries generalizing table with
  | nil => rw [List.append_nil, List.foldl_nil]
  | cons first rest ih =>
    have moved : (table ++ first :: rest).Perm (first :: (table ++ rest)) := List.perm_middle
    have apart : (first.1 :: (table ++ rest).map Prod.fst).Nodup :=
      (moved.map Prod.fst).nodup distinct
    have fresh : first.1 ∉ table.map Prod.fst := by
      intro member
      have inside := ((List.sublist_append_left table rest).map Prod.fst).subset member
      exact (List.nodup_cons.1 apart).1 inside
    have put : (insert first.1 first.2 table ++ rest).Perm (first :: (table ++ rest)) :=
      (perm_insert fresh).append_right rest
    exact (ih ((put.map Prod.fst).symm.nodup apart)).trans (put.trans moved.symm)

theorem perm_ofList {entries : List (κ × ν)} (distinct : (entries.map Prod.fst).Nodup) :
    (ofList entries).Perm entries :=
  perm_foldl_insert distinct

end WordMachine.Table
