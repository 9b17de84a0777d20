import WordMachine.Proofs.Machine.Move

/-! What a step and the end of a run write into a journal without a limit. -/

namespace WordMachine

structure Round where
  pc : UInt32
  word : Word
  /-- The registers after the word; none if it trapped. -/
  regs : Option Registers

/-- The registers as they are reported in between; a trap leaves none to report. -/
def Dump.between (dump : Dump) (regs : Option Registers) : List Event :=
  if dump.regsEachStep then (regs.map Event.registers).toList else []

def Round.events (dump : Dump) (round : Round) : List Event :=
  (if dump.trace then [.fetch round.pc round.word] else []) ++ dump.between round.regs

def exitEvents (dump : Dump) (cpu : Cpu) (bank : Bank) : List Event :=
  (if dump.regsAtEnd then [.registers cpu.regs] else []) ++
    if dump.memoryAtEnd then [.memory bank.cells] else []

theorem Journal.events_of_note? {journal after : Journal} {wanted : Bool} {event : Event}
    (written : journal.note? wanted event = some after) :
    after.events = journal.events ++ if wanted then [event] else [] := by
  cases wanted with
  | true => exact events_of_write? written
  | false =>
    obtain rfl : journal = after := Option.some.inj written
    exact (List.append_nil _).symm

namespace Machine

def RunsTo {β : Type} [Bus β] (program : Program) (m : Machine β)
    (ending : Except Trap Exit × Machine β) : Prop :=
  ∃ fuel, runWithin program fuel m = some ending

variable {β : Type}

def regsAfter (taken : StepResult × Machine β) : Option Registers :=
  match taken with
  | (.ok _, after) => some after.cpu.regs
  | (.error _, _) => none

theorem between_trap (dump : Dump) : dump.between none = [] := by
  rw [Dump.between]
  split <;> rfl

section Journals

variable (m : Machine β) (boundless : m.journal.room = none)

include boundless

theorem events_report (exit : Option Exit) : (m.report exit).2.journal.events =
    m.journal.events ++ m.cpu.dump.between (regsAfter (m.report exit)) := by
  rw [report]
  cases written : m.journal.note? m.cpu.dump.regsEachStep (.registers m.cpu.regs) with
  | none => exact absurd boundless (Journal.room_ne_none_of_note? written)
  | some journal => exact Journal.events_of_note? written

theorem events_follow (flow : Flow) : (m.follow flow).2.journal.events =
    m.journal.events ++ m.cpu.dump.between (regsAfter (m.follow flow)) := by
  cases flow with
  | next => exact events_report { m with cpu.pc := nextWord m.cpu.pc } boundless none
  | jump target =>
    by_cases aligned : Aligned target
    · simp only [follow, if_pos aligned]
      exact events_report { m with cpu.pc := target } boundless none
    · simp only [follow, if_neg aligned]
      rw [regsAfter, between_trap, List.append_nil]
  | halt => exact events_report m boundless (some .halted)

variable [Bus β]

theorem events_perform (i : Instr Reg UInt32) : (m.perform i).2.journal.events =
    m.journal.events ++ m.cpu.dump.between (regsAfter (m.perform i)) := by
  obtain ⟨cpu, bus, journal⟩ := m
  obtain ⟨regs, returns, kept⟩ := Cpu.exists_execute i cpu bus
  rw [perform]
  generalize execute i cpu bus = executed at kept
  obtain ⟨trap | flow, after, memory⟩ := executed
  · rw [regsAfter, between_trap, List.append_nil]
  · obtain rfl : after = _ := kept
    exact events_follow ⟨{ cpu with regs := regs, returns := returns, steps := cpu.steps + 1 }, memory,
      journal⟩ boundless flow

theorem events_step {program : Program} {w : Word} (fetched : program.fetch? m.cpu.pc = some w) :
    (step program m).2.journal.events =
      m.journal.events ++ Round.events m.cpu.dump ⟨m.cpu.pc, w, regsAfter (step program m)⟩ := by
  rw [Round.events, step, fetched]
  dsimp only
  cases written : m.journal.note? m.cpu.dump.trace (.fetch m.cpu.pc w) with
  | none => exact absurd boundless (Journal.room_ne_none_of_note? written)
  | some journal =>
    have traced := Journal.events_of_note? written
    dsimp only
    rw [← List.append_assoc, ← traced]
    cases w.decode? with
    | none => rw [regsAfter, between_trap, List.append_nil]
    | some i => exact events_perform { m with journal } (Journal.boundless_of_note? written boundless) i

end Journals

theorem exists_conclude_eq (m : Machine Bank) (boundless : m.journal.room = none) (exit : Exit) :
    ∃ journal, journal.room = none ∧
      journal.events = m.journal.events ++ exitEvents m.cpu.dump m.cpu m.bus ∧
      m.conclude exit = (.ok exit, { m with journal }) := by
  rw [conclude, exitEvents, ← List.append_assoc]
  cases written : m.journal.note? m.cpu.dump.regsAtEnd (.registers m.cpu.regs) with
  | none => exact absurd boundless (Journal.room_ne_none_of_note? written)
  | some journal =>
    have free := Journal.boundless_of_note? written boundless
    rw [← Journal.events_of_note? written]
    have dumped : Bus.dump m.bus = (.ok m.bus.cells, m.bus) := rfl
    have recorded : journal.write? (.memory m.bus.cells) =
        some ⟨.memory m.bus.cells :: journal.newestFirst, none⟩ := by rw [Journal.write?, free]
    dsimp only
    split
    · simp only [dumped, recorded]
      exact ⟨_, rfl, Journal.events_of_write? recorded, rfl⟩
    · exact ⟨journal, free, (List.append_nil _).symm, rfl⟩

end Machine

end WordMachine
