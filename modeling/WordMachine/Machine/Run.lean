import WordMachine.Image
import WordMachine.Machine.Execute

/-! Steps and runs of a machine. A step yields an outcome and the machine after it, also when it traps. What a
run reports is no part of the state of its processor. -/

namespace WordMachine

inductive Event
  | fetch (pc : UInt32) (word : Word)
  | registers (regs : Registers)
  | memory (cells : Array UInt8)
  deriving DecidableEq

/-- The events so far. `room` counts those that can still be written, if that is limited. -/
structure Journal where
  newestFirst : List Event
  room : Option Nat
  deriving DecidableEq

namespace Journal

def fresh (room : Option Nat) : Journal := ⟨[], room⟩

def events (journal : Journal) : List Event := journal.newestFirst.reverse

def write? (journal : Journal) (event : Event) : Option Journal :=
  match journal.room with
  | none => some ⟨event :: journal.newestFirst, none⟩
  | some 0 => none
  | some (left + 1) => some ⟨event :: journal.newestFirst, some left⟩

theorem events_of_write? {journal after : Journal} {event : Event}
    (written : journal.write? event = some after) : after.events = journal.events ++ [event] := by
  unfold write? at written
  split at written
  all_goals simp_all only [reduceCtorEq, Option.some.injEq]
  all_goals subst written; simp [events]

def note? (journal : Journal) (wanted : Bool) (event : Event) : Option Journal :=
  if wanted then journal.write? event else some journal

end Journal

namespace Event

def spaced (values : List UInt8) : String :=
  " ".intercalate (values.map fun value => toString value.toNat)

def line : Event → String
  | .fetch pc w =>
    toString pc.toNat ++ ": " ++ ", ".intercalate (w.toList.map fun b => toString b.toNat)
  | .registers regs => "registers: " ++ spaced regs.toList
  | .memory cells => "memory: " ++ spaced cells.toList

end Event

def Journal.text (journal : Journal) : String :=
  String.join (journal.events.map fun event => event.line ++ "\n")

structure Machine (β : Type) where
  cpu : Cpu
  bus : β
  journal : Journal

namespace Machine

variable {β : Type}

def report (m : Machine β) (exit : Option Exit) : Except Trap (Option Exit) × Machine β :=
  match m.journal.note? m.cpu.dump.regsEachStep (.registers m.cpu.regs) with
  | none => (.error .journalFull, m)
  | some journal => (.ok exit, { m with journal })

/-- Moves the program counter from the word that was executed. -/
def follow (m : Machine β) (flow : Flow) : Except Trap (Option Exit) × Machine β :=
  match flow with
  | .next => report { m with cpu.pc := nextWord m.cpu.pc } none
  | .jump target =>
    if Aligned target then report { m with cpu.pc := target } none
    else (.error (.unaligned m.cpu.pc target), m)
  | .halt => report m (some .halted)

def perform [Bus β] (m : Machine β) (i : Instr Reg UInt32) :
    Except Trap (Option Exit) × Machine β :=
  match m with
  | ⟨cpu, bus, journal⟩ =>
    match execute i cpu bus with
    | (.error trap, cpu, bus) => (.error trap, ⟨cpu, bus, journal⟩)
    | (.ok flow, cpu, bus) => follow ⟨{ cpu with steps := cpu.steps + 1 }, bus, journal⟩ flow

/-- Executes the word at the program counter. No exit means that the machine goes on. -/
def step [Bus β] (program : Program) (m : Machine β) : Except Trap (Option Exit) × Machine β :=
  match program.fetch? m.cpu.pc with
  | none => (.ok (some .endOfImage), m)
  | some w =>
    match m.journal.note? m.cpu.dump.trace (.fetch m.cpu.pc w) with
    | none => (.error .journalFull, m)
    | some journal =>
      match w.decode? with
      | none => (.error (.unknownOpcode m.cpu.pc w.b0), { m with journal })
      | some i => perform { m with journal } i

def conclude [Bus β] (m : Machine β) (exit : Exit) : Except Trap Exit × Machine β :=
  match m.journal.note? m.cpu.dump.regsAtEnd (.registers m.cpu.regs) with
  | none => (.error .journalFull, m)
  | some journal =>
    if m.cpu.dump.memoryAtEnd then
      match Bus.dump m.bus with
      | (.error fault, bus) => (.error (.bus 0 fault), { m with bus, journal })
      | (.ok cells, bus) =>
        match journal.write? (.memory cells) with
        | none => (.error .journalFull, { m with bus, journal })
        | some journal => (.ok exit, { m with bus, journal })
    else (.ok exit, { m with journal })

def limitReached? (cpu : Cpu) : Option Nat :=
  cpu.stepLimit.filter fun limit => limit ≤ cpu.steps

/-- Runs to an exit or a trap; none if that takes more than `fuel` rounds. -/
def runWithin [Bus β] (program : Program) :
    (fuel : Nat) → Machine β → Option (Except Trap Exit × Machine β)
  | 0, _ => none
  | fuel + 1, m =>
    match limitReached? m.cpu with
    | some limit => some (.error (.stepLimit limit), m)
    | none =>
      match step program m with
      | (.error trap, m) => some (.error trap, m)
      | (.ok none, m) => runWithin program fuel m
      | (.ok (some exit), m) => some (conclude m exit)

/-- More rounds than a step counter of 64 bits can count. -/
def horizon : Nat := 0x10000000000000000

/-- Runs to an exit or a trap. The horizon limits every run that has no limit of its own. -/
def run [Bus β] (program : Program) (m : Machine β) : Except Trap Exit × Machine β :=
  (runWithin program horizon m).getD (.error (.stepLimit horizon), m)

end Machine

end WordMachine
