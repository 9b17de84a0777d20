import Mathlib.Data.List.Basic
import WordMachine.Machine.Report
import WordMachine.Proofs.Machine.Move
import WordMachine.Proofs.Machine.Reporting

/-! Runs and their journals. What a machine is asked to report has no part in what it does, and its
journal holds what was asked for: nothing else, and in the order in which it came about. -/

namespace WordMachine

namespace Cpu

def watched (dump : Dump) (cpu : Cpu) : Cpu := { cpu with dump := dump }

theorem follow_watched (dump : Dump) (cpu : Cpu) (flow : Flow) :
    (cpu.watched dump).follow flow = (cpu.follow flow).map id (watched dump) := by
  cases flow with
  | next | halt => rfl
  | jump target =>
    rw [follow, follow]
    split <;> rfl

variable {β : Type} [Bus β]

theorem execute_watched (dump : Dump) (i : Instr Reg UInt32) (cpu : Cpu) (bus : β) :
    execute i (cpu.watched dump) bus = (execute i cpu bus).map id (.map (watched dump) id) := by
  have same := execute_configured cpu.stepLimit dump i cpu bus
  obtain ⟨regs, returns, kept⟩ := exists_execute i cpu bus
  refine same.trans (Prod.ext rfl (Prod.ext ?_ rfl))
  change (execute i cpu bus).2.1.configured cpu.stepLimit dump = (execute i cpu bus).2.1.watched dump
  rw [kept]
  rfl

theorem perform_watched (dump : Dump) (i : Instr Reg UInt32) (cpu : Cpu) (bus : β) :
    perform i (cpu.watched dump) bus = (perform i cpu bus).map id (.map (watched dump) id) := by
  rw [perform, perform, execute_watched]
  obtain ⟨trap | flow, after, memory⟩ := execute i cpu bus
  · rfl
  · change (((after.count.watched dump).follow flow).1, ((after.count.watched dump).follow flow).2, memory) = _
    rw [follow_watched]
    rfl

theorem step_watched (program : Program) (dump : Dump) (cpu : Cpu) (bus : β) :
    step program (cpu.watched dump) bus =
      (step program cpu bus).map id (.map (watched dump) id) := by
  rw [step, step, show (cpu.watched dump).pc = cpu.pc from rfl]
  cases program.fetch? cpu.pc with
  | none => rfl
  | some w =>
    dsimp only
    cases w.decode? with
    | none => rfl
    | some i => exact perform_watched dump i cpu bus

theorem dump_step (program : Program) (cpu : Cpu) (bus : β) :
    (step program cpu bus).2.1.dump = cpu.dump :=
  congrArg (fun taken => taken.2.1.dump) (step_watched program cpu.dump cpu bus)

end Cpu

/-- A run without a journal: the rounds that it makes, what it ends in, and the processor and the memory
after it. -/
inductive Course {β : Type} [Bus β] (program : Program) :
    Cpu → β → List Round → Except Trap Exit → Cpu → β → Prop
  | limit {cpu : Cpu} {bus : β} {limit : Nat} (reached : Machine.limitReached? cpu = some limit) :
    Course program cpu bus [] (.error (.stepLimit limit)) cpu bus
  | past {cpu : Cpu} {bus : β} (below : Machine.limitReached? cpu = none)
    (ended : program.fetch? cpu.pc = none) : Course program cpu bus [] (.ok .endOfImage) cpu bus
  | traps {cpu last : Cpu} {bus memory : β} {w : Word} {trap : Trap}
    (below : Machine.limitReached? cpu = none) (fetched : program.fetch? cpu.pc = some w)
    (trapped : cpu.step program bus = (.error trap, last, memory)) :
    Course program cpu bus [⟨cpu.pc, w, none⟩] (.error trap) last memory
  | halts {cpu last : Cpu} {bus memory : β} {w : Word} {exit : Exit}
    (below : Machine.limitReached? cpu = none) (fetched : program.fetch? cpu.pc = some w)
    (halted : cpu.step program bus = (.ok (some exit), last, memory)) :
    Course program cpu bus [⟨cpu.pc, w, some last.regs⟩] (.ok exit) last memory
  | goes {cpu next last : Cpu} {bus between memory : β} {w : Word} {rounds : List Round}
    {result : Except Trap Exit} (below : Machine.limitReached? cpu = none)
    (fetched : program.fetch? cpu.pc = some w) (went : cpu.step program bus = (.ok none, next, between))
    (rest : Course program next between rounds result last memory) :
    Course program cpu bus (⟨cpu.pc, w, some next.regs⟩ :: rounds) result last memory

namespace Course

variable {β : Type} [Bus β] {program : Program} {cpu last : Cpu} {bus memory : β} {rounds : List Round}
  {result : Except Trap Exit}

theorem watched (course : Course program cpu bus rounds result last memory) (dump : Dump) :
    Course program (cpu.watched dump) bus rounds result (last.watched dump) memory := by
  induction course with
  | limit reached => exact .limit reached
  | past below ended => exact .past below ended
  | @traps cpu last bus memory w trap below fetched trapped =>
    have taken := Cpu.step_watched program dump cpu bus
    rw [trapped] at taken
    exact .traps below fetched taken
  | @halts cpu last bus memory w exit below fetched halted =>
    have taken : (cpu.watched dump).step program bus = (.ok (some exit), last.watched dump, memory) := by
      rw [Cpu.step_watched, halted]
      rfl
    have course : Course program (cpu.watched dump) bus [⟨cpu.pc, w, some (last.watched dump).regs⟩]
      (.ok exit) (last.watched dump) memory := .halts below fetched taken
    exact course
  | @goes cpu next last bus between memory w rounds result below fetched went rest ih =>
    have taken : (cpu.watched dump).step program bus = (.ok none, next.watched dump, between) := by
      rw [Cpu.step_watched, went]
      rfl
    have course : Course program (cpu.watched dump) bus
      (⟨cpu.pc, w, some (next.watched dump).regs⟩ :: rounds) result (last.watched dump) memory :=
        .goes below fetched taken ih
    exact course

theorem unique {others : List Round} {found : Except Trap Exit} {final : Cpu} {cells : β}
    (course : Course program cpu bus rounds result last memory)
    (other : Course program cpu bus others found final cells) :
    others = rounds ∧ found = result ∧ final = last ∧ cells = memory := by
  induction course generalizing others found final cells with
  | limit reached =>
    cases other with
    | limit again =>
      cases reached.symm.trans again
      exact ⟨rfl, rfl, rfl, rfl⟩
    | past below | traps below | halts below | goes below => cases reached.symm.trans below
  | past below ended =>
    cases other with
    | limit reached => cases reached.symm.trans below
    | past => exact ⟨rfl, rfl, rfl, rfl⟩
    | traps _ fetched | halts _ fetched | goes _ fetched => cases ended.symm.trans fetched
  | traps below fetched trapped =>
    cases other with
    | limit reached => cases reached.symm.trans below
    | past _ ended => cases ended.symm.trans fetched
    | traps _ again taken =>
      cases fetched.symm.trans again
      cases trapped.symm.trans taken
      exact ⟨rfl, rfl, rfl, rfl⟩
    | halts _ _ taken | goes _ _ taken => cases trapped.symm.trans taken
  | halts below fetched halted =>
    cases other with
    | limit reached => cases reached.symm.trans below
    | past _ ended => cases ended.symm.trans fetched
    | halts _ again taken =>
      cases fetched.symm.trans again
      cases halted.symm.trans taken
      exact ⟨rfl, rfl, rfl, rfl⟩
    | traps _ _ taken | goes _ _ taken => cases halted.symm.trans taken
  | goes below fetched went rest ih =>
    cases other with
    | limit reached => cases reached.symm.trans below
    | past _ ended => cases ended.symm.trans fetched
    | traps _ _ taken | halts _ _ taken => cases went.symm.trans taken
    | goes _ again taken others =>
      cases fetched.symm.trans again
      cases went.symm.trans taken
      obtain ⟨rfl, rfl, rfl, rfl⟩ := ih others
      exact ⟨rfl, rfl, rfl, rfl⟩

end Course

def endEvents (dump : Dump) (result : Except Trap Exit) (cpu : Cpu) (bank : Bank) : List Event :=
  match result with
  | .ok _ => exitEvents dump cpu bank
  | .error _ => []

namespace Machine

variable {program : Program}

/-- A run of a machine is a run without a journal, and the journal has what is reported of it. -/
theorem course_of_runWithin {fuel : Nat} {m last : Machine Bank} {result : Except Trap Exit}
    (boundless : m.journal.room = none) (ran : runWithin program fuel m = some (result, last)) :
    ∃ rounds, Course program m.cpu m.bus rounds result last.cpu last.bus ∧
      last.journal.events = m.journal.events ++ (rounds.flatMap (Round.events m.cpu.dump) ++
        endEvents m.cpu.dump result last.cpu last.bus) := by
  induction fuel generalizing m with
  | zero => cases ran
  | succ fuel ih =>
    rw [runWithin] at ran
    cases reached : limitReached? m.cpu with
    | some limit =>
      rw [reached] at ran
      cases ran
      exact ⟨[], .limit reached, (List.append_nil _).symm⟩
    | none =>
      rw [reached] at ran
      dsimp only at ran
      obtain ⟨silent, free⟩ := step_of_boundless program boundless
      cases fetched : program.fetch? m.cpu.pc with
      | none =>
        simp only [step, fetched] at ran
        obtain ⟨journal, -, events, concluded⟩ := exists_conclude_eq m boundless .endOfImage
        cases concluded.symm.trans (Option.some.inj ran)
        exact ⟨[], .past reached fetched, events⟩
      | some w =>
        have shown := events_step m boundless fetched
        have same := Cpu.dump_step program m.cpu m.bus
        rw [silent] at same
        generalize step program m = taken at ran silent free shown same
        obtain ⟨trap | _ | exit, next⟩ := taken
        · cases ran
          refine ⟨_, .traps reached fetched silent, ?_⟩
          rw [shown, List.flatMap_singleton, endEvents, List.append_nil, regsAfter]
        · obtain ⟨rounds, course, events⟩ := ih free ran
          refine ⟨_, .goes reached fetched silent course, ?_⟩
          rw [events, shown, same, List.flatMap_cons, List.append_assoc, List.append_assoc]
          rfl
        · obtain ⟨journal, -, events, concluded⟩ := exists_conclude_eq next free exit
          cases concluded.symm.trans (Option.some.inj ran)
          refine ⟨_, .halts reached fetched silent, ?_⟩
          change journal.events = _
          rw [events, shown, same, List.append_assoc]
          simp [endEvents, regsAfter]

theorem exists_step_eq {m : Machine Bank} (boundless : m.journal.room = none) {outcome : StepResult}
    {after : Cpu} {memory : Bank} (taken : m.cpu.step program m.bus = (outcome, after, memory)) :
    ∃ journal, journal.room = none ∧ step program m = (outcome, ⟨after, memory, journal⟩) := by
  obtain ⟨silent, free⟩ := step_of_boundless program boundless
  rw [taken] at silent
  obtain ⟨rfl, rest⟩ := Prod.mk.inj silent
  obtain ⟨rfl, rfl⟩ := Prod.mk.inj rest
  exact ⟨_, free, rfl⟩

theorem exists_runsTo_of_course {cpu after : Cpu} {bank memory : Bank} {rounds : List Round}
    {result : Except Trap Exit} (course : Course program cpu bank rounds result after memory) :
    ∀ m : Machine Bank, m.cpu = cpu → m.bus = bank → m.journal.room = none →
      ∃ last, m.RunsTo program (result, last) := by
  induction course with
  | limit reached =>
    rintro m rfl rfl boundless
    refine ⟨m, 1, ?_⟩
    rw [runWithin, reached]
  | past below ended =>
    rintro m rfl rfl boundless
    obtain ⟨journal, -, -, concluded⟩ := exists_conclude_eq m boundless .endOfImage
    refine ⟨{ m with journal }, 1, ?_⟩
    rw [runWithin, below]
    simp only [step, ended]
    exact congrArg some concluded
  | @traps cpu last bus memory w trap below fetched trapped =>
    rintro m rfl rfl boundless
    obtain ⟨journal, -, taken⟩ := exists_step_eq boundless trapped
    refine ⟨⟨last, memory, journal⟩, 1, ?_⟩
    rw [runWithin, below]
    simp only [taken]
  | @halts cpu last bus memory w exit below fetched halted =>
    rintro m rfl rfl boundless
    obtain ⟨journal, free, taken⟩ := exists_step_eq boundless halted
    obtain ⟨kept, -, -, concluded⟩ := exists_conclude_eq ⟨last, memory, journal⟩ free exit
    refine ⟨⟨last, memory, kept⟩, 1, ?_⟩
    rw [runWithin, below]
    simp only [taken]
    exact congrArg some concluded
  | @goes cpu next last bus between memory w rounds result below fetched went rest ih =>
    rintro m rfl rfl boundless
    obtain ⟨journal, free, taken⟩ := exists_step_eq boundless went
    obtain ⟨last, fuel, ran⟩ := ih ⟨next, between, journal⟩ rfl rfl free
    refine ⟨last, fuel + 1, ?_⟩
    rw [runWithin, below]
    simp only [taken]
    exact ran

end Machine

def Event.fetch? : Event → Option (UInt32 × Word)
  | .fetch pc w => some (pc, w)
  | _ => none

def Event.registers? : Event → Option Registers
  | .registers regs => some regs
  | _ => none

def Event.memory? : Event → Option (Array UInt8)
  | .memory cells => some cells
  | _ => none

structure Recording where
  fetches : List (UInt32 × Word)
  registers : List Registers
  memory : Option (Array UInt8)

def Journal.recording (journal : Journal) : Recording where
  fetches := journal.fetches
  registers := journal.events.filterMap Event.registers?
  memory := (journal.events.filterMap Event.memory?).getLast?

theorem Round.filterMap_events (dump : Dump) (round : Round) :
    (round.events dump).filterMap Event.fetch? = (if dump.trace then [(round.pc, round.word)] else []) ∧
      (round.events dump).filterMap Event.registers? =
        (if dump.regsEachStep then round.regs.toList else []) ∧
      (round.events dump).filterMap Event.memory? = [] := by
  obtain ⟨trace, each, atEnd, memoryAtEnd⟩ := dump
  obtain ⟨pc, w, regs⟩ := round
  cases trace <;> cases each <;> cases regs <;> exact ⟨rfl, rfl, rfl⟩

theorem filterMap_endEvents (dump : Dump) (result : Except Trap Exit) (cpu : Cpu) (bank : Bank) :
    (endEvents dump result cpu bank).filterMap Event.fetch? = [] ∧
      (endEvents dump result cpu bank).filterMap Event.registers? =
        (if dump.regsAtEnd && result.isOk then [cpu.regs] else []) ∧
      (endEvents dump result cpu bank).filterMap Event.memory? =
        (if dump.memoryAtEnd && result.isOk then [bank.cells] else []) := by
  obtain ⟨trace, each, atEnd, memoryAtEnd⟩ := dump
  cases result <;> cases atEnd <;> cases memoryAtEnd <;> exact ⟨rfl, rfl, rfl⟩

theorem recording_of_events {journal : Journal} {dump : Dump} {rounds : List Round}
    {result : Except Trap Exit} {cpu : Cpu} {bank : Bank}
    (written : journal.events = rounds.flatMap (Round.events dump) ++ endEvents dump result cpu bank) :
    journal.recording = {
      fetches := if dump.trace then rounds.map fun round => (round.pc, round.word) else []
      registers := (if dump.regsEachStep then rounds.filterMap Round.regs else []) ++
        if dump.regsAtEnd && result.isOk then [cpu.regs] else []
      memory := if dump.memoryAtEnd && result.isOk then some bank.cells else none } := by
  obtain ⟨fetches, registers, memory⟩ := filterMap_endEvents dump result cpu bank
  have shown : journal.fetches = journal.events.filterMap Event.fetch? := by
    rw [Journal.fetches]
    congr
  rw [Journal.recording, shown, written]
  simp only [List.filterMap_append, List.filterMap_flatMap, Round.filterMap_events, fetches, registers,
    memory, List.append_nil]
  congr 1
  · cases dump.trace <;> simp [List.map_eq_flatMap]
  · cases dump.regsEachStep <;> simp [List.filterMap_eq_flatMap_toList]
  · cases dump.memoryAtEnd && result.isOk <;> simp

def Machine.reporting (cpu : Cpu) (bank : Bank) (dump : Dump) (events : List Event) : Machine Bank :=
  ⟨cpu.watched dump, bank, ⟨events, none⟩⟩

/-- Whatever machines in the same state are asked to report, their runs end alike or not at all. What is
recorded of a run is what was asked for: each word that was fetched, the registers after each word that
did not trap, and after an exit the registers once more and the memory. -/
theorem reports_are_passive (program : Program) (cpu : Cpu) (bank : Bank) :
    (∀ dump other events records,
      ((∃ ending, (Machine.reporting cpu bank dump events).RunsTo program ending) ↔
        ∃ ending, (Machine.reporting cpu bank other records).RunsTo program ending) ∧
      ∀ result last found final,
        (Machine.reporting cpu bank dump events).RunsTo program (result, last) →
        (Machine.reporting cpu bank other records).RunsTo program (found, final) →
        found = result ∧ final.cpu = last.cpu.watched other ∧ final.bus = last.bus) ∧
    ∀ dump result last, (Machine.reporting cpu bank dump []).RunsTo program (result, last) →
      ∃ rounds, Course program cpu bank rounds result (last.cpu.watched cpu.dump) last.bus ∧
        last.journal.recording = {
          fetches := if dump.trace then rounds.map fun round => (round.pc, round.word) else []
          registers := (if dump.regsEachStep then rounds.filterMap Round.regs else []) ++
            if dump.regsAtEnd && result.isOk then [last.cpu.regs] else []
          memory := if dump.memoryAtEnd && result.isOk then some last.bus.cells else none } := by
  have course : ∀ dump events result last,
      (Machine.reporting cpu bank dump events).RunsTo program (result, last) →
      ∃ rounds, Course program (cpu.watched dump) bank rounds result last.cpu last.bus ∧
        last.journal.events = events.reverse ++ (rounds.flatMap (Round.events dump) ++
          endEvents dump result last.cpu last.bus) := by
    rintro dump events result last ⟨fuel, ran⟩
    exact Machine.course_of_runWithin rfl ran
  refine ⟨?_, ?_⟩
  · have carried : ∀ dump other events records ending,
        (Machine.reporting cpu bank dump events).RunsTo program ending →
        ∃ ending, (Machine.reporting cpu bank other records).RunsTo program ending := by
      rintro dump other events records ⟨result, last⟩ runs
      obtain ⟨rounds, course, -⟩ := course dump events result last runs
      obtain ⟨final, reruns⟩ := Machine.exists_runsTo_of_course (course.watched other)
        (Machine.reporting cpu bank other records) rfl rfl rfl
      exact ⟨_, reruns⟩
    intro dump other events records
    refine ⟨⟨fun ⟨ending, runs⟩ => carried dump other events records ending runs,
      fun ⟨ending, runs⟩ => carried other dump records events ending runs⟩, ?_⟩
    intro result last found final runs reruns
    obtain ⟨rounds, mine, -⟩ := course dump events result last runs
    obtain ⟨others, theirs, -⟩ := course other records found final reruns
    obtain ⟨-, same, cpus, buses⟩ := (mine.watched other).unique theirs
    exact ⟨same, cpus, buses⟩
  · intro dump result last runs
    obtain ⟨rounds, course, written⟩ := course dump [] result last runs
    exact ⟨rounds, course.watched cpu.dump, recording_of_events written⟩

theorem reports_are_passive_underflow : ∃ program last final rounds,
    program = .ofWords [⟨0x01, 7, 2, 3⟩, .fill 0xFD] ∧
    (Machine.reporting (.start none {}) ⟨#[]⟩ ⟨true, true, true, true⟩ []).RunsTo program
      (.error (.stackUnderflow 4), last) ∧
    (Machine.reporting (.start none {}) ⟨#[]⟩ {} []).RunsTo program (.error (.stackUnderflow 4), final) ∧
    final.cpu = last.cpu.watched {} ∧
    Course program (.start none {}) (⟨#[]⟩ : Bank) rounds (.error (.stackUnderflow 4))
      (last.cpu.watched {}) last.bus ∧
    (rounds.map fun round => (round.pc, round.word)) = [(0, ⟨0x01, 7, 2, 3⟩), (4, .fill 0xFD)] ∧
    rounds.filterMap Round.regs = [(Vector.replicate 16 0).set 3 7] := by
  have runs : (Machine.reporting (.start none {}) ⟨#[]⟩ ⟨true, true, true, true⟩ []).RunsTo
      (.ofWords [⟨0x01, 7, 2, 3⟩, .fill 0xFD]) (.error (.stackUnderflow 4),
        ⟨{ (Cpu.start none ⟨true, true, true, true⟩).setReg 3 7 with pc := 4, steps := 1 }, ⟨#[]⟩,
          ⟨[.fetch 4 (.fill 0xFD), .registers ((Vector.replicate 16 0).set 3 7),
            .fetch 0 ⟨0x01, 7, 2, 3⟩], none⟩⟩) := ⟨2, rfl⟩
  obtain ⟨alike, records⟩ :=
    reports_are_passive (.ofWords [⟨0x01, 7, 2, 3⟩, .fill 0xFD]) (.start none {}) ⟨#[]⟩
  obtain ⟨⟨found, final⟩, reruns⟩ := (alike _ {} [] []).1.1 ⟨_, runs⟩
  obtain ⟨rfl, cpus, -⟩ := (alike _ {} [] []).2 _ _ _ _ runs reruns
  obtain ⟨rounds, course, recorded⟩ := records _ _ _ runs
  refine ⟨_, _, final, rounds, rfl, runs, reruns, cpus, course, ?_, ?_⟩
  · exact (congrArg Recording.fetches recorded).symm
  · exact (List.append_nil _).symm.trans (congrArg Recording.registers recorded).symm

end WordMachine
