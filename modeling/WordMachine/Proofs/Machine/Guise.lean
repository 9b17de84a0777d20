import WordMachine.Proofs.Machine.Step

/-! Machines under a guise: processors and events are seen another way. A guise that has no part in
where the processor goes and in what it reports goes along with everything that a machine does after
its instruction is executed. -/

namespace WordMachine

/-- Another sight of processors and of what is reported. A processor keeps its place, and what it is
asked to report; the registers that it reports are the ones that it is seen with. -/
structure Guise where
  cpu : Cpu → Cpu
  event : Event → Event
  dump_cpu : ∀ c, (cpu c).dump = c.dump
  move : ∀ (c : Cpu) (pc : UInt32), cpu { c with pc } = { cpu c with pc }
  count : ∀ c : Cpu, cpu c.count = (cpu c).count
  registers : ∀ c, event (.registers c.regs) = .registers (cpu c).regs
  memory : ∀ cells, event (.memory cells) = .memory cells

theorem Guise.pc_cpu (g : Guise) (c : Cpu) : (g.cpu c).pc = c.pc := by
  have stays : g.cpu c = { g.cpu c with pc := c.pc } := g.move c c.pc
  rw [stays]

namespace Journal

def map (see : Event → Event) (journal : Journal) : Journal :=
  ⟨journal.newestFirst.map see, journal.room⟩

theorem map_id (journal : Journal) : journal.map id = journal := by
  rw [map, List.map_id]

theorem note?_map (see : Event → Event) (journal : Journal) (wanted : Bool) (event : Event) :
    (journal.map see).note? wanted (see event) = (journal.note? wanted event).map (map see) := by
  obtain ⟨events, room⟩ := journal
  cases wanted with
  | false => rfl
  | true => rcases room with _ | _ | room <;> rfl

end Journal

namespace Machine

variable {β : Type} (g : Guise)

def under (m : Machine β) : Machine β := ⟨g.cpu m.cpu, m.bus, m.journal.map g.event⟩

theorem bus_under (m : Machine β) : (m.under g).bus = m.bus := rfl

theorem note?_registers_under (m : Machine β) (wanted : Bool) :
    (m.under g).journal.note? wanted (.registers (m.under g).cpu.regs) =
      (m.journal.note? wanted (.registers m.cpu.regs)).map (Journal.map g.event) := by
  have shown : g.event (.registers m.cpu.regs) = .registers (m.under g).cpu.regs := g.registers m.cpu
  rw [← shown]
  apply Journal.note?_map

theorem report_under (m : Machine β) (exit : Option Exit) :
    (m.under g).report exit = (m.report exit).map id (under g) := by
  have asked : (m.under g).cpu.dump = m.cpu.dump := g.dump_cpu m.cpu
  rw [report, report, note?_registers_under, asked]
  cases m.journal.note? m.cpu.dump.regsEachStep (.registers m.cpu.regs) <;> rfl

theorem moved_under (m : Machine β) (pc : UInt32) :
    { m.under g with cpu.pc := pc } = under g { m with cpu.pc := pc } :=
  congrArg (Machine.mk · m.bus (m.journal.map g.event)) (g.move m.cpu pc).symm

theorem follow_under (m : Machine β) (flow : Flow) :
    (m.under g).follow flow = (m.follow flow).map id (under g) := by
  have here : (m.under g).cpu.pc = m.cpu.pc := g.pc_cpu m.cpu
  cases flow with
  | next =>
    rw [follow, follow, here, moved_under]
    apply report_under
  | jump target =>
    rw [follow, follow, here, moved_under]
    by_cases aligned : Aligned target
    · rw [if_pos aligned, if_pos aligned]
      apply report_under
    · rw [if_neg aligned, if_neg aligned]
      rfl
  | halt =>
    rw [follow, follow]
    apply report_under

variable [Bus β] {i j : Instr Reg UInt32}

/-- An instruction and the one that it is seen as are performed alike if they are executed alike. -/
theorem perform_under (m : Machine β)
    (executed : execute j (g.cpu m.cpu) m.bus = (execute i m.cpu m.bus).map id (.map g.cpu id)) :
    (m.under g).perform j = (m.perform i).map id (under g) := by
  obtain ⟨cpu, bus, journal⟩ := m
  rw [under, perform, perform, executed]
  obtain ⟨trap | flow, after, memory⟩ := execute i cpu bus
  · rfl
  · have counted := follow_under g ⟨after.count, memory, journal⟩ flow
    rw [under, g.count] at counted
    exact counted

theorem conclude_under (m : Machine β) (exit : Exit) :
    (m.under g).conclude exit = (m.conclude exit).map id (under g) := by
  have asked : (m.under g).cpu.dump = m.cpu.dump := g.dump_cpu m.cpu
  rw [conclude, conclude, note?_registers_under, asked, bus_under]
  cases m.journal.note? m.cpu.dump.regsAtEnd (.registers m.cpu.regs) with
  | none => rfl
  | some journal =>
    dsimp only [Option.map_some]
    by_cases atEnd : m.cpu.dump.memoryAtEnd
    · rw [if_pos atEnd, if_pos atEnd]
      obtain ⟨fault | cells, memory⟩ := Bus.dump m.bus
      · rfl
      · have dumped : (journal.map g.event).write? (.memory cells) =
            (journal.write? (.memory cells)).map (Journal.map g.event) := by
          have shown := Journal.note?_map g.event journal true (.memory cells)
          rw [g.memory] at shown
          exact shown
        dsimp only
        rw [dumped]
        cases journal.write? (.memory cells) <;> rfl
    · rw [if_neg atEnd, if_neg atEnd]
      rfl

end Machine

end WordMachine
