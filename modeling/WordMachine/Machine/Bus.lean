/-! Data memory as the machine reaches it: single cells through a bus, and a flat bank behind it. -/

namespace WordMachine

inductive BusFault
  | outside (address : UInt32) (cells : Nat)
  | device (reason : String)
  deriving DecidableEq, Repr

def addressSpace : Nat := 0x10000

/-- A device may change with every access, a failing one too. -/
class Bus (β : Type) where
  read : β → UInt32 → Except BusFault UInt8 × β
  write : β → UInt32 → UInt8 → Except BusFault Unit × β
  /-- The whole contents. -/
  dump : β → Except BusFault (Array UInt8) × β

namespace Bus

def readFrom {β : Type} (read : β → UInt32 → Except BusFault UInt8 × β) :
    Nat → UInt32 → Array UInt8 → β → Except BusFault (Array UInt8) × β
  | 0, _, found, bus => (.ok found, bus)
  | count + 1, address, found, bus =>
    match read bus address with
    | (.ok cell, bus) => readFrom read count (address + 1) (found.push cell) bus
    | (.error fault, bus) => (.error fault, bus)

/-- The dump of a device that has none of its own: every cell of the address space in turn. -/
def sweep {β : Type} (read : β → UInt32 → Except BusFault UInt8 × β) (bus : β) :
    Except BusFault (Array UInt8) × β :=
  readFrom read addressSpace 0 #[] bus

end Bus

structure Bank where
  cells : Array UInt8
  deriving DecidableEq

namespace Bank

def blank (size : Nat) : Bank := ⟨Array.replicate size 0⟩

def size (bank : Bank) : Nat := bank.cells.size

def nonzero (bank : Bank) : Nat := bank.cells.countP (· ≠ 0)

def read (bank : Bank) (address : UInt32) : Except BusFault UInt8 × Bank :=
  if bound : address.toNat < bank.cells.size then (.ok bank.cells[address.toNat], bank)
  else (.error (.outside address bank.cells.size), bank)

def write (bank : Bank) (address : UInt32) (value : UInt8) : Except BusFault Unit × Bank :=
  if bound : address.toNat < bank.cells.size then
    (.ok (), ⟨bank.cells.set address.toNat value bound⟩)
  else (.error (.outside address bank.cells.size), bank)

theorem size_write (bank : Bank) (address : UInt32) (value : UInt8) :
    (bank.write address value).2.size = bank.size := by
  unfold write size
  split <;> simp

theorem read_write_self (bank : Bank) (address : UInt32) (value : UInt8)
    (inside : address.toNat < bank.size) :
    ((bank.write address value).2.read address).1 = .ok value := by
  unfold size at inside
  simp [write, read, inside]

theorem read_write_of_ne (bank : Bank) {address other : UInt32} (value : UInt8)
    (different : address ≠ other) :
    ((bank.write address value).2.read other).1 = (bank.read other).1 := by
  have apart : address.toNat ≠ other.toNat := fun same => different (UInt32.toNat_inj.1 same)
  by_cases inside : address.toNat < bank.cells.size
  · by_cases found : other.toNat < bank.cells.size
    · simp [write, read, inside, found, Array.getElem_set_ne, apart]
    · simp [write, read, inside, found]
  · simp [write, inside]

instance : Bus Bank where
  read := read
  write := write
  dump bank := (.ok bank.cells, bank)

def summary (bank : Bank) : String :=
  "LinearMemory \x7b size: " ++ toString bank.size ++ ", nonzero: " ++ toString bank.nonzero
    ++ " \x7d"

end Bank

/-- A bank that can only be dumped cell by cell. -/
structure PlainBank where
  bank : Bank

namespace PlainBank

def read (plain : PlainBank) (address : UInt32) : Except BusFault UInt8 × PlainBank :=
  match plain.bank.read address with
  | (result, bank) => (result, ⟨bank⟩)

def write (plain : PlainBank) (address : UInt32) (value : UInt8) :
    Except BusFault Unit × PlainBank :=
  match plain.bank.write address value with
  | (result, bank) => (result, ⟨bank⟩)

instance : Bus PlainBank where
  read := read
  write := write
  dump := Bus.sweep read

end PlainBank

end WordMachine
