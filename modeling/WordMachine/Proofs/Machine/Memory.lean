import Mathlib.Algebra.Group.Nat.Defs
import Mathlib.Logic.Function.Basic
import WordMachine.Machine.Bus

/-! A bank as a map. Its cells are what was last written to them, whatever else was asked of it, and both
ways to dump it tell of them what they can. -/

namespace WordMachine

inductive Access
  | read (address : UInt32)
  | write (address : UInt32) (value : UInt8)
  deriving DecidableEq, Repr

namespace Access

def address : Access → UInt32
  | .read address => address
  | .write address _ => address

def written? (place : Nat) : Access → Option UInt8
  | .read _ => none
  | .write address value => if address.toNat = place then some value else none

end Access

/-- The value that was last written to a place, 0 if there was none. -/
def lastWritten (history : List Access) (place : Nat) : UInt8 :=
  (history.filterMap (Access.written? place)).getLastD 0

/-- The answer of a memory of `size` cells after a history: what was last written to the cell that is read,
nothing for a write, and a fault where there is no cell. -/
def Access.answer (size : Nat) (history : List Access) (access : Access) :
    Except BusFault (Option UInt8) :=
  if access.address.toNat < size then
    match access with
    | .read address => .ok (some (lastWritten history address.toNat))
    | .write _ _ => .ok none
  else .error (.outside access.address size)

namespace Bus

variable {β : Type} [Bus β]

def serve (bus : β) : Access → Except BusFault (Option UInt8) × β
  | .read address => ((Bus.read bus address).1.map some, (Bus.read bus address).2)
  | .write address value =>
    ((Bus.write bus address value).1.map fun () => none, (Bus.write bus address value).2)

/-- The answers of a bus to one use after the other. -/
def serveAll (bus : β) : List Access → List (Except BusFault (Option UInt8)) × β
  | [] => ([], bus)
  | access :: later =>
    let answered := serve bus access
    let rest := serveAll answered.2 later
    (answered.1 :: rest.1, rest.2)

theorem serveAll_append (bus : β) (history later : List Access) :
    serveAll bus (history ++ later) =
      ((serveAll bus history).1 ++ (serveAll (serveAll bus history).2 later).1,
        (serveAll (serveAll bus history).2 later).2) := by
  induction history generalizing bus with
  | nil => rfl
  | cons access history ih =>
    rw [List.cons_append, serveAll, serveAll, ih]
    rfl

theorem length_serveAll (bus : β) (history : List Access) :
    (serveAll bus history).1.length = history.length := by
  induction history generalizing bus with
  | nil => rfl
  | cons access history ih => exact congrArg Nat.succ (ih _)

end Bus

theorem lastWritten_read (history : List Access) (address : UInt32) :
    lastWritten (history ++ [.read address]) = lastWritten history := by
  funext place
  rw [lastWritten, List.filterMap_append]
  exact congrArg (List.getLastD · 0) (List.append_nil _)

theorem lastWritten_write (history : List Access) (address : UInt32) (value : UInt8) :
    lastWritten (history ++ [.write address value]) =
      Function.update (lastWritten history) address.toNat value := by
  funext place
  by_cases here : place = address.toNat
  · subst here
    simp [lastWritten, Access.written?]
  · rw [Function.update_of_ne here, lastWritten, List.filterMap_append]
    simp [lastWritten, Access.written?, Ne.symm here]

namespace Bank

variable {size : Nat} {contents others : Nat → UInt8}

def holding (size : Nat) (contents : Nat → UInt8) : Bank := ⟨((List.range size).map contents).toArray⟩

theorem size_holding (size : Nat) (contents : Nat → UInt8) : (holding size contents).size = size := by
  simp [holding, Bank.size]

theorem blank_eq_holding (size : Nat) : blank size = holding size fun _ => 0 := by
  simp [blank, holding, List.map_const']

theorem getElem_holding {place : Nat}
    (inside : place < (holding size contents).cells.size) :
    (holding size contents).cells[place] = contents place := by
  simp [holding]

theorem holding_congr (same : ∀ place < size, contents place = others place) :
    holding size contents = holding size others := by
  have cells : (List.range size).map contents = (List.range size).map others :=
    List.map_congr_left fun place listed => same place (List.mem_range.1 listed)
  rw [holding, cells, holding]

theorem read_holding (size : Nat) (contents : Nat → UInt8) (address : UInt32) :
    (holding size contents).read address =
      (if address.toNat < size then .ok (contents address.toNat) else .error (.outside address size),
        holding size contents) := by
  have cells : (holding size contents).cells.size = size := size_holding size contents
  by_cases inside : address.toNat < size
  · rw [read, dif_pos (cells.symm ▸ inside), getElem_holding, if_pos inside]
  · rw [read, dif_neg (cells.symm ▸ inside), cells, if_neg inside]

theorem holding_update_of_le {place : Nat} (outside : size ≤ place) (value : UInt8) :
    holding size (Function.update contents place value) = holding size contents := by
  apply holding_congr
  intro other inside
  apply Function.update_of_ne
  omega

theorem write_holding (size : Nat) (contents : Nat → UInt8) (address : UInt32) (value : UInt8) :
    (holding size contents).write address value =
      (if address.toNat < size then .ok () else .error (.outside address size),
        holding size (Function.update contents address.toNat value)) := by
  have cells : (holding size contents).cells.size = size := size_holding size contents
  by_cases inside : address.toNat < size
  · have within : address.toNat < (holding size contents).cells.size := cells.symm ▸ inside
    have put : (holding size contents).cells.set address.toNat value within =
        (holding size (Function.update contents address.toNat value)).cells := by
      apply Array.ext
      · rw [Array.size_set, cells]
        exact (size_holding _ _).symm
      · intro place _ _
        rw [Array.getElem_set, getElem_holding, getElem_holding, Function.update_apply]
        simp only [eq_comm]
    rw [write, dif_pos within, put, if_pos inside]
  · have outside : size ≤ address.toNat := Nat.le_of_not_lt inside
    rw [write, dif_neg (cells.symm ▸ inside), cells, holding_update_of_le outside, if_neg inside]

theorem serve_holding (size : Nat) (history : List Access) (access : Access) :
    Bus.serve (holding size (lastWritten history)) access =
      (access.answer size history, holding size (lastWritten (history ++ [access]))) := by
  cases access with
  | read address =>
    have found : Bus.read (holding size (lastWritten history)) address = _ := read_holding _ _ _
    rw [Bus.serve, found, lastWritten_read, Access.answer, Access.address]
    split <;> rfl
  | write address value =>
    have wrote : Bus.write (holding size (lastWritten history)) address value = _ :=
      write_holding _ _ _ _
    rw [Bus.serve, wrote, lastWritten_write, Access.answer, Access.address]
    split <;> rfl

theorem serve_outside {access : Access} (history : List Access) (outside : size ≤ access.address.toNat) :
    Bus.serve (holding size (lastWritten history)) access =
      (.error (.outside access.address size), holding size (lastWritten history)) := by
  have fault : access.answer size history = .error (.outside access.address size) :=
    if_neg (Nat.not_lt.2 outside)
  have kept : holding size (lastWritten (history ++ [access])) = holding size (lastWritten history) := by
    cases access with
    | read address => rw [lastWritten_read]
    | write address value =>
      rw [lastWritten_write]
      exact holding_update_of_le outside value
  rw [serve_holding, fault, kept]

theorem serveAll_holding (size : Nat) (before history : List Access) :
    (Bus.serveAll (holding size (lastWritten before)) history).2 =
      holding size (lastWritten (before ++ history)) := by
  induction history generalizing before with
  | nil => rw [Bus.serveAll, List.append_nil]
  | cons access later ih =>
    rw [Bus.serveAll, serve_holding, ih, List.append_assoc, List.singleton_append]

theorem serveAll_blank (size : Nat) (history : List Access) :
    (Bus.serveAll (blank size) history).2 = holding size (lastWritten history) := by
  rw [blank_eq_holding]
  exact serveAll_holding size [] history

theorem answer_of_serveAll (size : Nat) (before later : List Access) (access : Access) :
    (Bus.serveAll (blank size) (before ++ access :: later)).1[before.length]? =
      some (access.answer size before) := by
  have length := Bus.length_serveAll (blank size) before
  rw [Bus.serveAll_append, List.getElem?_append_right (Nat.le_of_eq length), length, Nat.sub_self,
    serveAll_blank, Bus.serveAll, serve_holding]
  rfl

section Sweeps

variable {size count start : Nat} (contents : Nat → UInt8) (found : Array UInt8)

theorem readFrom_succ (inside : start < size) (named : start < 2 ^ 32) :
    Bus.readFrom read (count + 1) (UInt32.ofNat start) found (holding size contents) =
      Bus.readFrom read count (UInt32.ofNat (start + 1)) (found.push (contents start))
        (holding size contents) := by
  have place : (UInt32.ofNat start).toNat = start := UInt32.toNat_ofNat_of_lt' named
  have cell : (holding size contents).read (UInt32.ofNat start) =
      (.ok (contents start), holding size contents) := by
    rw [read_holding, place, if_pos inside]
  have next : UInt32.ofNat start + 1 = UInt32.ofNat (start + 1) := (UInt32.ofNat_add start 1).symm
  rw [Bus.readFrom, cell, ← next]

theorem read_holding_end (named : size < 2 ^ 32) :
    (holding size contents).read (UInt32.ofNat size) =
      (.error (.outside (UInt32.ofNat size) size), holding size contents) := by
  have place : (UInt32.ofNat size).toNat = size := UInt32.toNat_ofNat_of_lt' named
  rw [read_holding, place, if_neg (Nat.lt_irrefl size)]

theorem readFrom_holding (fits : start + count ≤ size) (named : start + count ≤ 2 ^ 32) :
    Bus.readFrom read count (UInt32.ofNat start) found (holding size contents) =
      (.ok (found ++ ((List.range' start count).map contents).toArray), holding size contents) := by
  induction count generalizing start found with
  | zero => simp [Bus.readFrom]
  | succ count ih =>
    rw [readFrom_succ contents found (by omega) (by omega), ih _ (by omega) (by omega)]
    simp [List.range'_succ]

theorem readFrom_holding_error (inside : start ≤ size) (short : size < start + count)
    (named : start + count ≤ 2 ^ 32) :
    Bus.readFrom read count (UInt32.ofNat start) found (holding size contents) =
      (.error (.outside (UInt32.ofNat size) size), holding size contents) := by
  induction count generalizing start found with
  | zero => omega
  | succ count ih =>
    by_cases last : start = size
    · subst last
      rw [Bus.readFrom, read_holding_end contents (by omega)]
    · rw [readFrom_succ contents found (by omega) (by omega)]
      exact ih _ (by omega) (by omega) (by omega)

theorem sweep_holding (large : addressSpace ≤ size) :
    Bus.sweep read (holding size contents) =
      (.ok (holding addressSpace contents).cells, holding size contents) := by
  have fits : 0 + addressSpace ≤ size := by omega
  have named : 0 + addressSpace ≤ 2 ^ 32 := by decide
  have swept := readFrom_holding contents #[] fits named
  rw [Array.empty_append, ← List.range_eq_range'] at swept
  exact swept

theorem sweep_holding_error (small : size < addressSpace) :
    Bus.sweep read (holding size contents) =
      (.error (.outside (UInt32.ofNat size) size), holding size contents) := by
  have short : size < 0 + addressSpace := by omega
  have named : 0 + addressSpace ≤ 2 ^ 32 := by decide
  exact readFrom_holding_error contents #[] (Nat.zero_le size) short named

theorem sweep_eq_dump_iff : (Bus.sweep read (holding size contents)).1 =
    (Bus.dump (holding size contents)).1 ↔ size = addressSpace := by
  have dump : (Bus.dump (holding size contents)).1 = .ok (holding size contents).cells := rfl
  by_cases small : size < addressSpace
  · have apart : size ≠ addressSpace := Nat.ne_of_lt small
    rw [sweep_holding_error contents small, dump]
    simp [apart]
  · rw [sweep_holding contents (Nat.le_of_not_lt small), dump, Except.ok.injEq]
    constructor
    · intro same
      have sizes : (holding addressSpace contents).size = (holding size contents).size :=
        congrArg Array.size same
      rw [size_holding, size_holding] at sizes
      exact sizes.symm
    · rintro rfl
      rfl

end Sweeps

end Bank

/-- A blank bank answers every use by what was written before, and keeps its size. What is read or asked for
behind the last cell changes nothing. Its own dump has all cells, each as it was last written. A sweep has as
many of them as the address space, or stops with the fault of the first cell that is not there, so that it
agrees with the dump just for a bank of the whole address space. -/
theorem bank_refines_map (size : Nat) (history : List Access) :
    let answers := (Bus.serveAll (Bank.blank size) history).1
    let bank := (Bus.serveAll (Bank.blank size) history).2
    let cells := fun count => ((List.range count).map (lastWritten history)).toArray
    answers.length = history.length ∧
    (∀ before access later, history = before ++ access :: later →
      answers[before.length]? = some (access.answer size before)) ∧
    (∀ access, size ≤ access.address.toNat →
      Bus.serve bank access = (.error (.outside access.address size), bank)) ∧
    bank.size = size ∧ Bus.dump bank = (.ok (cells size), bank) ∧
    (addressSpace ≤ size → Bus.sweep Bus.read bank = (.ok (cells addressSpace), bank)) ∧
    (size < addressSpace → ∃ fault, (Bus.read bank (UInt32.ofNat size)).1 = .error fault ∧
      Bus.sweep Bus.read bank = (.error fault, bank)) ∧
    ((Bus.sweep Bus.read bank).1 = (Bus.dump bank).1 ↔ size = addressSpace) := by
  intro answers bank cells
  have holds : bank = .holding size (lastWritten history) := Bank.serveAll_blank size history
  rw [holds]
  refine ⟨Bus.length_serveAll _ history, ?_, fun _ => Bank.serve_outside history,
    Bank.size_holding size _, rfl, Bank.sweep_holding _, fun small => ?_, Bank.sweep_eq_dump_iff _⟩
  · rintro before access later rfl
    exact Bank.answer_of_serveAll size before later access
  · have named : size < 2 ^ 32 := Nat.lt_trans small (by decide)
    have missing := Bank.read_holding_end (lastWritten history) named
    exact ⟨_, congrArg Prod.fst missing, Bank.sweep_holding_error _ small⟩

theorem bank_refines_map_four :
    let history : List Access := [.write 3 7, .read 3, .write 4 9, .read 4, .write 3 8, .read 3]
    let bank := (Bus.serveAll (Bank.blank 4) history).2
    (Bus.serveAll (Bank.blank 4) history).1 = [.ok none, .ok (some 7), .error (.outside 4 4),
      .error (.outside 4 4), .ok none, .ok (some 8)] ∧
    Bus.dump bank = (.ok #[0, 0, 0, 8], bank) ∧
    Bus.sweep Bus.read bank = (.error (.outside 4 4), bank) := by
  intro history bank
  obtain ⟨-, -, -, -, dump, -, short, -⟩ := bank_refines_map 4 history
  obtain ⟨fault, stopped, swept⟩ := short (by decide)
  have missing : (Bus.read bank 4).1 = .error (.outside 4 4) := rfl
  cases missing.symm.trans stopped
  exact ⟨rfl, dump, swept⟩

end WordMachine
