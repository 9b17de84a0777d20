import WordMachine.Machine.Run

/-! Steps without a journal. What a machine writes has no part in what it does, so long as it can be
written. -/

namespace WordMachine

abbrev StepResult := Except Trap (Option Exit)

namespace Journal

theorem room_ne_none_of_note? {journal : Journal} {wanted : Bool} {event : Event}
    (full : journal.note? wanted event = none) : journal.room ≠ none := by
  intro boundless
  cases wanted <;> simp [note?, write?, boundless] at full

theorem boundless_of_note? {journal after : Journal} {wanted : Bool} {event : Event}
    (written : journal.note? wanted event = some after) (boundless : journal.room = none) :
    after.room = none := by
  cases wanted with
  | true =>
    simp only [note?, ↓reduceIte, write?, boundless, Option.some.injEq] at written
    rw [← written]
  | false =>
    obtain rfl : journal = after := Option.some.inj written
    exact boundless

end Journal

namespace Cpu

def follow (cpu : Cpu) (flow : Flow) : StepResult × Cpu :=
  match flow with
  | .next => (.ok none, { cpu with pc := nextWord cpu.pc })
  | .jump target =>
    if Aligned target then (.ok none, { cpu with pc := target })
    else (.error (.unaligned cpu.pc target), cpu)
  | .halt => (.ok (some .halted), cpu)

def count (cpu : Cpu) : Cpu := { cpu with steps := cpu.steps + 1 }

variable {β : Type} [Bus β]

def perform (i : Instr Reg UInt32) (cpu : Cpu) (bus : β) : StepResult × Cpu × β :=
  match execute i cpu bus with
  | (.error trap, cpu, bus) => (.error trap, cpu, bus)
  | (.ok flow, cpu, bus) => ((cpu.count.follow flow).1, (cpu.count.follow flow).2, bus)

def step (program : Program) (cpu : Cpu) (bus : β) : StepResult × Cpu × β :=
  match program.fetch? cpu.pc with
  | none => (.ok (some .endOfImage), cpu, bus)
  | some w =>
    match w.decode? with
    | none => (.error (.unknownOpcode cpu.pc w.b0), cpu, bus)
    | some i => perform i cpu bus

theorem step_of_fetch? {program : Program} {cpu : Cpu} {w : Word} {i : Instr Reg UInt32}
    (fetched : program.fetch? cpu.pc = some w) (decoded : w.decode? = some i) (bus : β) :
    step program cpu bus = perform i cpu bus := by
  simp only [step, fetched, decoded]

theorem step_of_fetch?_none {program : Program} {cpu : Cpu} (ended : program.fetch? cpu.pc = none)
    (bus : β) : step program cpu bus = (.ok (some .endOfImage), cpu, bus) := by
  simp only [step, ended]

end Cpu

namespace Machine

variable {β : Type}

/-- A step that ended in `outcome`: the journal was full, or processor and memory did what they do
without a journal, and a journal without a limit still has none. -/
def Faithful (before after : Machine β) (outcome : StepResult)
    (silent : StepResult × Cpu × β) : Prop :=
  outcome = .error .journalFull ∧ before.journal.room ≠ none ∨
    silent = (outcome, after.cpu, after.bus) ∧
      (before.journal.room = none → after.journal.room = none)

theorem report_faithful (m : Machine β) (exit : Option Exit) :
    Faithful m (m.report exit).2 (m.report exit).1 (.ok exit, m.cpu, m.bus) := by
  rw [report]
  cases written : m.journal.note? m.cpu.dump.regsEachStep (.registers m.cpu.regs) with
  | none => exact .inl ⟨rfl, Journal.room_ne_none_of_note? written⟩
  | some journal => exact .inr ⟨rfl, Journal.boundless_of_note? written⟩

theorem follow_faithful (m : Machine β) (flow : Flow) :
    Faithful m (m.follow flow).2 (m.follow flow).1
      ((m.cpu.follow flow).1, (m.cpu.follow flow).2, m.bus) := by
  cases flow with
  | next => exact report_faithful { m with cpu.pc := nextWord m.cpu.pc } none
  | jump target =>
    by_cases aligned : Aligned target
    · simp only [follow, Cpu.follow, if_pos aligned]
      exact report_faithful { m with cpu.pc := target } none
    · simp only [follow, Cpu.follow, if_neg aligned]
      exact .inr ⟨rfl, id⟩
  | halt => exact report_faithful m (some .halted)

theorem report_state (m : Machine β) (exit : Option Exit) :
    (m.report exit).2.cpu = m.cpu ∧ (m.report exit).2.bus = m.bus := by
  rw [report]
  cases m.journal.note? m.cpu.dump.regsEachStep (.registers m.cpu.regs) <;> exact ⟨rfl, rfl⟩

theorem follow_state (m : Machine β) (flow : Flow) :
    (m.follow flow).2.cpu = (m.cpu.follow flow).2 ∧ (m.follow flow).2.bus = m.bus := by
  cases flow with
  | next => exact report_state { m with cpu.pc := nextWord m.cpu.pc } none
  | jump target =>
    by_cases aligned : Aligned target
    · simp only [follow, Cpu.follow, if_pos aligned]
      exact report_state { m with cpu.pc := target } none
    · simp only [follow, Cpu.follow, if_neg aligned, and_self]
  | halt => exact report_state m (some .halted)

variable [Bus β]

theorem perform_faithful (m : Machine β) (i : Instr Reg UInt32) :
    Faithful m (m.perform i).2 (m.perform i).1 (Cpu.perform i m.cpu m.bus) := by
  obtain ⟨cpu, bus, journal⟩ := m
  rw [perform, Cpu.perform]
  obtain ⟨trap | flow, after, memory⟩ := execute i cpu bus
  · exact .inr ⟨rfl, id⟩
  · exact follow_faithful ⟨after.count, memory, journal⟩ flow

theorem step_faithful (program : Program) (m : Machine β) :
    Faithful m (step program m).2 (step program m).1 (Cpu.step program m.cpu m.bus) := by
  rw [step, Cpu.step]
  cases program.fetch? m.cpu.pc with
  | none => exact .inr ⟨rfl, id⟩
  | some w =>
    dsimp only
    cases written : m.journal.note? m.cpu.dump.trace (.fetch m.cpu.pc w) with
    | none => exact .inl ⟨rfl, Journal.room_ne_none_of_note? written⟩
    | some journal =>
      have free := Journal.boundless_of_note? written
      cases w.decode? with
      | none => exact .inr ⟨rfl, free⟩
      | some i =>
        rcases perform_faithful { m with journal } i with ⟨full, limited⟩ | ⟨same, kept⟩
        · exact .inl ⟨full, fun boundless => limited (free boundless)⟩
        · exact .inr ⟨same, fun boundless => kept (free boundless)⟩

theorem step_of_boundless (program : Program) {m : Machine β} (boundless : m.journal.room = none) :
    Cpu.step program m.cpu m.bus =
        ((step program m).1, (step program m).2.cpu, (step program m).2.bus) ∧
      (step program m).2.journal.room = none := by
  rcases step_faithful program m with ⟨-, limited⟩ | ⟨same, kept⟩
  · exact absurd boundless limited
  · exact ⟨same, kept boundless⟩

theorem perform_state (m : Machine β) (i : Instr Reg UInt32) :
    (m.perform i).2.cpu = (Cpu.perform i m.cpu m.bus).2.1 ∧
      (m.perform i).2.bus = (Cpu.perform i m.cpu m.bus).2.2 := by
  obtain ⟨cpu, bus, journal⟩ := m
  rw [perform, Cpu.perform]
  obtain ⟨trap | flow, after, memory⟩ := execute i cpu bus
  · exact ⟨rfl, rfl⟩
  · exact follow_state ⟨after.count, memory, journal⟩ flow

theorem step_state (program : Program) (m : Machine β) :
    (step program m).2.cpu = m.cpu ∧ (step program m).2.bus = m.bus ∨
      (step program m).2.cpu = (Cpu.step program m.cpu m.bus).2.1 ∧
        (step program m).2.bus = (Cpu.step program m.cpu m.bus).2.2 := by
  rw [step, Cpu.step]
  cases program.fetch? m.cpu.pc with
  | none => exact .inl ⟨rfl, rfl⟩
  | some w =>
    dsimp only
    cases m.journal.note? m.cpu.dump.trace (.fetch m.cpu.pc w) with
    | none => exact .inl ⟨rfl, rfl⟩
    | some journal =>
      cases w.decode? with
      | none => exact .inl ⟨rfl, rfl⟩
      | some i => exact .inr (perform_state { m with journal } i)

/-- The outcomes of `n` steps, one after another, and the machine after them. A machine that has
stopped may be stepped on. -/
def calls (program : Program) : (n : Nat) → Machine β → List StepResult × Machine β
  | 0, m => ([], m)
  | n + 1, m =>
    let rest := calls program n (step program m).2
    ((step program m).1 :: rest.1, rest.2)

end Machine

end WordMachine
