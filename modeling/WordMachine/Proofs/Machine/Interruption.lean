import WordMachine.Proofs.Machine.History
import WordMachine.Proofs.Machine.Slicing

/-! Runs that a full journal breaks off. It breaks them off between two steps, so that a second run goes
on from there; only a halt that was executed already is executed once more. -/

namespace WordMachine

theorem Machine.limitReached?_eq_none {cpu : Cpu} (unlimited : cpu.stepLimit = none) :
    limitReached? cpu = none := by
  rw [limitReached?, unlimited, Option.filter_none]

namespace Cpu

variable {β : Type} [Bus β] {program : Program} {cpu after : Cpu} {bus memory : β}

theorem exists_fetch?_of_step (went : step program cpu bus = (.ok none, after, memory)) :
    ∃ w, program.fetch? cpu.pc = some w := by
  cases fetched : program.fetch? cpu.pc with
  | none =>
    rw [step_of_fetch?_none fetched] at went
    cases went
  | some w => exact ⟨w, rfl⟩

theorem step_halted (halted : step program cpu bus = (.ok (some .halted), after, memory)) :
    (∃ w, program.fetch? cpu.pc = some w ∧ w.decode? = some (.bare .halt)) ∧
      after = cpu.count ∧ memory = bus := by
  cases fetched : program.fetch? cpu.pc with
  | none =>
    rw [step_of_fetch?_none fetched] at halted
    cases halted
  | some w =>
    rcases step_ending fetched bus with ⟨-, unknown⟩ | ⟨i, decoded, ending⟩
    · rw [halted] at unknown
      cases unknown
    · rw [halted] at ending
      cases ending with
      | halted halt =>
        subst halt
        rw [step_of_fetch? fetched decoded] at halted
        cases halted
        exact ⟨⟨w, rfl, decoded⟩, rfl, rfl⟩

theorem step_halted_again (halted : step program cpu bus = (.ok (some .halted), after, memory)) :
    step program after memory = (.ok (some .halted), after.count, memory) := by
  obtain ⟨⟨w, fetched, decoded⟩, rfl, rfl⟩ := step_halted halted
  have stays : program.fetch? cpu.count.pc = some w := fetched
  exact step_of_fetch? stays decoded memory

end Cpu

namespace Machine

variable {β : Type} {m next : Machine β}

theorem follow_interrupted {flow : Flow} (full : m.follow flow = (.error .journalFull, next)) :
    ∃ exit, exit ≠ some Exit.endOfImage ∧ m.cpu.follow flow = (.ok exit, next.cpu) ∧
      next.bus = m.bus := by
  have state := m.follow_state flow
  rw [full] at state
  rw [state.1]
  cases flow with
  | next => exact ⟨none, nofun, rfl, state.2⟩
  | jump target =>
    by_cases aligned : Aligned target
    · refine ⟨none, nofun, ?_, state.2⟩
      rw [Cpu.follow, if_pos aligned]
    · rw [follow, if_neg aligned] at full
      cases full
  | halt => exact ⟨some .halted, by decide, rfl, state.2⟩

variable [Bus β]

theorem perform_interrupted {i : Instr Reg UInt32}
    (full : m.perform i = (.error .journalFull, next)) :
    ∃ exit, exit ≠ some Exit.endOfImage ∧
      Cpu.perform i m.cpu m.bus = (.ok exit, next.cpu, next.bus) := by
  obtain ⟨cpu, bus, journal⟩ := m
  have ending := Cpu.perform_ending i cpu bus
  rw [perform] at full
  rw [Cpu.perform] at ending
  rw [Cpu.perform]
  generalize execute i cpu bus = executed at full ending
  obtain ⟨trap | flow, after, memory⟩ := executed
  · cases full
    -- No instruction traps for want of room: only what is reported of it does.
    cases ending with
    | trapped known able => exact absurd rfl able
  · obtain ⟨exit, here, followed, same⟩ :=
      follow_interrupted (m := ⟨after.count, memory, journal⟩) full
    refine ⟨exit, here, ?_⟩
    dsimp only
    rw [followed, same]

/-- A step that finds the journal full has done nothing, or all that it does. -/
theorem step_interrupted {program : Program}
    (full : step program m = (.error .journalFull, next)) :
    next.cpu = m.cpu ∧ next.bus = m.bus ∨
      ∃ exit, exit ≠ some Exit.endOfImage ∧
        m.cpu.step program m.bus = (.ok exit, next.cpu, next.bus) := by
  rw [step] at full
  cases fetched : program.fetch? m.cpu.pc with
  | none =>
    rw [fetched] at full
    cases full
  | some w =>
    rw [fetched] at full
    dsimp only at full
    cases written : m.journal.note? m.cpu.dump.trace (.fetch m.cpu.pc w) with
    | none =>
      rw [written] at full
      cases full
      exact .inl ⟨rfl, rfl⟩
    | some journal =>
      rw [written] at full
      dsimp only at full
      cases decoded : w.decode? with
      | none =>
        rw [decoded] at full
        cases full
      | some i =>
        rw [decoded] at full
        rw [Cpu.step_of_fetch? fetched decoded]
        exact .inr (perform_interrupted (m := { m with journal }) full)

theorem conclude_interrupted {m next : Machine Bank} {exit : Exit}
    (full : m.conclude exit = (.error .journalFull, next)) : next.cpu = m.cpu ∧ next.bus = m.bus := by
  have dumped : Bus.dump m.bus = (.ok m.bus.cells, m.bus) := rfl
  rw [conclude, dumped] at full
  dsimp only at full
  split at full
  · cases full
    exact ⟨rfl, rfl⟩
  · split at full
    · split at full
      · cases full
        exact ⟨rfl, rfl⟩
      · cases full
    · cases full

end Machine

/-- Where a run without a limit can be broken off: between two of its steps, and then a run from there has
nothing to execute `again`, or with its halt executed, and then it has that one word. -/
inductive Seam {β : Type} [Bus β] (program : Program) : Cpu → β → Nat → Cpu → β → Prop
  | between {cpu : Cpu} {bus : β} : Seam program cpu bus 0 cpu bus
  | halted {cpu after : Cpu} {bus memory : β}
    (halted : cpu.step program bus = (.ok (some .halted), after, memory)) :
    Seam program cpu bus 1 after memory
  | goes {cpu next left : Cpu} {bus between memory : β} {again : Nat}
    (went : cpu.step program bus = (.ok none, next, between))
    (rest : Seam program next between again left memory) : Seam program cpu bus again left memory

namespace Seam

variable {β : Type} [Bus β] {program : Program} {cpu left : Cpu} {bus memory : β} {again : Nat}

theorem of_runWithin {fuel : Nat} {m stopped : Machine Bank} (unlimited : m.cpu.stepLimit = none)
    (ran : Machine.runWithin program fuel m = some (.error .journalFull, stopped)) :
    ∃ again, Seam program m.cpu m.bus again stopped.cpu stopped.bus := by
  induction fuel generalizing m with
  | zero => cases ran
  | succ fuel ih =>
    rw [Machine.runWithin, Machine.limitReached?_eq_none unlimited] at ran
    dsimp only at ran
    have faithful := Machine.step_faithful program m
    -- The journal is full in this step, in a later one, or after the last.
    rcases taken : Machine.step program m with ⟨trap | _ | exit, next⟩
    · rw [taken] at ran
      cases ran
      rcases Machine.step_interrupted taken with ⟨same, kept⟩ | ⟨_ | exit, here, silent⟩
      · exact ⟨0, same ▸ kept ▸ .between⟩
      · exact ⟨0, .goes silent .between⟩
      · cases exit with
        | halted => exact ⟨1, .halted silent⟩
        | endOfImage => exact absurd rfl here
    · rw [taken] at ran faithful
      rcases faithful with ⟨full, -⟩ | ⟨silent, -⟩
      · cases full
      · have kept := Cpu.stepLimit_step program m.cpu m.bus
        rw [silent] at kept
        obtain ⟨again, rest⟩ := ih (kept.trans unlimited) ran
        exact ⟨again, .goes silent rest⟩
    · rw [taken] at ran faithful
      obtain ⟨same, kept⟩ := Machine.conclude_interrupted (Option.some.inj ran)
      rw [same, kept]
      rcases faithful with ⟨full, -⟩ | ⟨silent, -⟩
      · cases full
      · cases exit with
        | halted => exact ⟨1, .halted silent⟩
        | endOfImage =>
          rcases Machine.step_ok taken with ⟨-, rfl⟩ | ⟨here, -⟩
          · exact ⟨0, .between⟩
          · exact absurd rfl here

/-- A machine that can write all that is asked for passes the seam: it makes some number of steps that go
on, and there it is between two of them, or its next step is the halt. -/
theorem exists_after (seam : Seam program cpu bus again left memory) :
    ∀ m : Machine β, m.journal.room = none → m.cpu = cpu → m.bus = bus →
      ∃ n, (∀ outcome ∈ (m.calls program n).1, outcome = .ok none) ∧
        (again = 0 ∧ left = (m.after program n).cpu ∧ memory = (m.after program n).bus ∨
          again = 1 ∧ (Machine.step program (m.after program n)).1 = .ok (some .halted) ∧
            left = (m.after program (n + 1)).cpu ∧ memory = (m.after program (n + 1)).bus) := by
  induction seam with
  | between =>
    rintro m - rfl rfl
    exact ⟨0, List.forall_mem_nil _, .inl ⟨rfl, rfl, rfl⟩⟩
  | halted halted =>
    rintro m boundless rfl rfl
    have silent := (m.step_of_boundless program boundless).1
    rw [halted] at silent
    obtain ⟨outcome, state⟩ := Prod.mk.inj silent
    obtain ⟨same, kept⟩ := Prod.mk.inj state
    exact ⟨0, List.forall_mem_nil _, .inr ⟨rfl, outcome.symm, same, kept⟩⟩
  | goes went rest ih =>
    rintro m boundless rfl rfl
    obtain ⟨silent, free⟩ := m.step_of_boundless program boundless
    rw [went] at silent
    obtain ⟨outcome, state⟩ := Prod.mk.inj silent
    obtain ⟨same, kept⟩ := Prod.mk.inj state
    obtain ⟨n, goes, reached⟩ := ih _ free same.symm kept.symm
    exact ⟨n + 1, List.forall_mem_cons.2 ⟨outcome.symm, goes⟩, reached⟩

section Unlimited

variable (unlimited : cpu.stepLimit = none)

include unlimited

/-- A run that is broken off and goes on ends as the whole run does; its step counter has counted what is
executed again. -/
theorem course_resumed (seam : Seam program cpu bus again left memory) {rounds : List Round}
    {result : Except Trap Exit} {last : Cpu} {cells : β}
    (course : Course program cpu bus rounds result last cells) :
    ∃ others, Course program left memory others result { last with steps := last.steps + again } cells := by
  induction seam generalizing rounds with
  | between => exact ⟨rounds, course⟩
  | @halted cpu after bus memory halted =>
    obtain ⟨⟨w, fetched, -⟩, stays, -⟩ := Cpu.step_halted halted
    have below := Machine.limitReached?_eq_none unlimited
    obtain ⟨-, rfl, rfl, rfl⟩ := (Course.halts below fetched halted).unique course
    have again := Cpu.step_halted_again halted
    subst stays
    exact ⟨_, .halts (Machine.limitReached?_eq_none unlimited) fetched again⟩
  | @goes cpu next left bus between memory again went rest ih =>
    have kept := Cpu.stepLimit_step program cpu bus
    rw [went] at kept
    obtain ⟨w, fetched⟩ := Cpu.exists_fetch?_of_step went
    obtain ⟨others, -, onward⟩ :=
      (Course.goes_iff (Machine.limitReached?_eq_none unlimited) fetched went).1 course
    exact ih (kept.trans unlimited) onward

theorem exists_course (seam : Seam program cpu bus again left memory) {others : List Round}
    {found : Except Trap Exit} {final : Cpu} {cells : β}
    (course : Course program left memory others found final cells) :
    ∃ rounds result last kept, Course program cpu bus rounds result last kept := by
  induction seam with
  | between => exact ⟨_, _, _, _, course⟩
  | halted halted =>
    obtain ⟨⟨w, fetched, -⟩, -, -⟩ := Cpu.step_halted halted
    exact ⟨_, _, _, _, .halts (Machine.limitReached?_eq_none unlimited) fetched halted⟩
  | @goes cpu next left bus between memory again went rest ih =>
    have kept := Cpu.stepLimit_step program cpu bus
    rw [went] at kept
    obtain ⟨w, fetched⟩ := Cpu.exists_fetch?_of_step went
    obtain ⟨rounds, result, last, cells, onward⟩ := ih (kept.trans unlimited) course
    exact ⟨_, _, _, _, .goes (Machine.limitReached?_eq_none unlimited) fetched went onward⟩

end Unlimited

end Seam

namespace Machine

def writing {β : Type} (journal : Journal) (m : Machine β) : Machine β := { m with journal }

end Machine

/-- A run without a limit that a full journal breaks off has processor and memory as the undisturbed run
has them, either after some number of its steps, of which none is the last, or after the halt that is its
last. A second run with room for all that it writes goes on from there. It ends if the undisturbed run
ends, and only then: in the same exit or trap, with the same memory and the same processor, but that a
halt which had been executed is counted again. -/
theorem run_interrupted {program : Program} {m stopped : Machine Bank}
    (unlimited : m.cpu.stepLimit = none)
    (interrupted : m.RunsTo program (.error .journalFull, stopped)) {first second : Journal}
    (roomy : first.room = none) (free : second.room = none) :
    let undisturbed := m.writing first
    ∃ n again, (∀ outcome ∈ (undisturbed.calls program n).1, outcome = .ok none) ∧
      (again = 0 ∧ stopped.cpu = (undisturbed.after program n).cpu ∧
          stopped.bus = (undisturbed.after program n).bus ∨
        again = 1 ∧ (Machine.step program (undisturbed.after program n)).1 = .ok (some .halted) ∧
          stopped.cpu = (undisturbed.after program (n + 1)).cpu ∧
          stopped.bus = (undisturbed.after program (n + 1)).bus) ∧
      ((∃ ending, (stopped.writing second).RunsTo program ending) ↔
        ∃ ending, undisturbed.RunsTo program ending) ∧
      ∀ found final result last, (stopped.writing second).RunsTo program (found, final) →
        undisturbed.RunsTo program (result, last) →
        found = result ∧ final.cpu = { last.cpu with steps := last.cpu.steps + again } ∧
          final.bus = last.bus := by
  dsimp only
  obtain ⟨fuel, ran⟩ := interrupted
  obtain ⟨again, seam⟩ := Seam.of_runWithin unlimited ran
  obtain ⟨n, goes, reached⟩ := seam.exists_after (m.writing first) roomy rfl rfl
  refine ⟨n, again, goes, reached, ⟨?_, ?_⟩, ?_⟩
  · rintro ⟨⟨found, final⟩, resumed⟩
    obtain ⟨others, rest, -⟩ := resumed.course free
    obtain ⟨rounds, result, last, memory, course⟩ := seam.exists_course unlimited rest
    obtain ⟨journal, whole, -⟩ := Machine.exists_runsTo (m := m.writing first) roomy course
    exact ⟨_, whole⟩
  · rintro ⟨⟨result, last⟩, whole⟩
    obtain ⟨rounds, course, -⟩ := whole.course roomy
    obtain ⟨others, rest⟩ := seam.course_resumed unlimited course
    obtain ⟨journal, resumed, -⟩ := Machine.exists_runsTo (m := stopped.writing second) free rest
    exact ⟨_, resumed⟩
  · intro found final result last resumed whole
    obtain ⟨rounds, course, -⟩ := whole.course roomy
    obtain ⟨others, rest⟩ := seam.course_resumed unlimited course
    obtain ⟨following, mine, -⟩ := resumed.course free
    obtain ⟨-, outcome, cpus, banks⟩ := rest.unique mine
    exact ⟨outcome, cpus, banks⟩

/-- The journal has room for the word of the halt, but not for the registers after it: the halt is
executed, and the second run counts it again. -/
theorem run_interrupted_halt : ∃ program m stopped final last, program = .ofWords [.fill 0xFE] ∧
    m = (⟨.start none ⟨true, true, false, false⟩, ⟨#[7]⟩, .fresh (some 1)⟩ : Machine Bank) ∧
    m.RunsTo program (.error .journalFull, stopped) ∧
    (m.writing (.fresh none)).RunsTo program (.ok .halted, last) ∧ last.cpu.steps = 1 ∧
    (stopped.writing (.fresh none)).RunsTo program (.ok .halted, final) ∧ final.cpu.steps = 2 ∧
    final.bus = last.bus := by
  have broken : (⟨.start none ⟨true, true, false, false⟩, ⟨#[7]⟩, .fresh (some 1)⟩ :
      Machine Bank).RunsTo (.ofWords [.fill 0xFE]) (.error .journalFull, _) := ⟨1, rfl⟩
  have whole : (⟨.start none ⟨true, true, false, false⟩, ⟨#[7]⟩, .fresh none⟩ :
      Machine Bank).RunsTo (.ofWords [.fill 0xFE]) (.ok .halted, _) := ⟨1, rfl⟩
  have resumed : (⟨{ Cpu.start none ⟨true, true, false, false⟩ with steps := 1 }, ⟨#[7]⟩,
      .fresh none⟩ : Machine Bank).RunsTo (.ofWords [.fill 0xFE]) (.ok .halted, _) := ⟨1, rfl⟩
  have roomy : (Journal.fresh none).room = none := rfl
  obtain ⟨n, again, -, -, -, alike⟩ := run_interrupted rfl broken roomy roomy
  obtain ⟨-, -, banks⟩ := alike _ _ _ _ resumed whole
  exact ⟨_, _, _, _, _, rfl, rfl, broken, whole, rfl, resumed, rfl, banks⟩

end WordMachine
