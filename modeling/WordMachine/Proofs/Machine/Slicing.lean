import WordMachine.Proofs.Machine.Limit
import WordMachine.Proofs.Machine.Observation
import WordMachine.Proofs.Machine.Refusal

/-! Runs in slices. A limit stops a run between two steps and before anything is reported of its end, so a
second run goes on from there, and the two are one run under the limit of the second. -/

namespace WordMachine

namespace Cpu

variable {β : Type} [Bus β] {program : Program} {cpu after : Cpu} {bus memory : β}

theorem step_limited (program : Program) (limit : Option Nat) (cpu : Cpu) (bus : β) :
    step program (cpu.limited limit) bus =
      (step program cpu bus).map id (.map (limited limit) id) := by
  let m : Machine β := ⟨cpu, bus, .fresh none⟩
  have free : step program cpu bus = _ := (Machine.step_of_boundless program (m := m) rfl).1
  have bound : step program (cpu.limited limit) bus = _ :=
    (Machine.step_of_boundless program (m := m.limited limit) rfl).1
  rw [free, bound, Machine.step_limited]
  rfl

theorem stepLimit_step (program : Program) (cpu : Cpu) (bus : β) :
    (step program cpu bus).2.1.stepLimit = cpu.stepLimit :=
  congrArg (fun taken => taken.2.1.stepLimit) (step_limited program cpu.stepLimit cpu bus)

theorem steps_step {w : Word} {exit : Option Exit} (fetched : program.fetch? cpu.pc = some w)
    (done : step program cpu bus = (.ok exit, after, memory)) : after.steps = cpu.steps + 1 := by
  cases decoded : w.decode? with
  | none =>
    simp only [step, fetched, decoded] at done
    cases done
  | some i =>
    rw [step_of_fetch? fetched decoded] at done
    exact steps_perform done

theorem step_ne_stepLimit {trap : Trap} (trapped : step program cpu bus = (.error trap, after, memory))
    (limit : Nat) : trap ≠ .stepLimit limit := by
  obtain ⟨w, -, ⟨-, rfl, -⟩ | ⟨i, -, refused⟩⟩ := step_refused trapped
  · simp
  · cases refused <;> simp

end Cpu

namespace Course

variable {β : Type} [Bus β] {program : Program} {limit : Nat} {later : Option Nat}

theorem exists_limited (program : Program) (limit : Nat) (cpu : Cpu) (bus : β) :
    ∃ rounds result last memory,
      Course program (cpu.limited (some limit)) bus rounds result last memory ∧
        rounds.length ≤ limit - cpu.steps := by
  generalize room : limit - cpu.steps = left
  induction left generalizing cpu bus with
  | zero =>
    have reached : Machine.limitReached? (cpu.limited (some limit)) = some limit := by
      rw [Cpu.limitReached?_limited_some, if_pos (Nat.le_of_sub_eq_zero room)]
    exact ⟨[], _, _, bus, .limit reached, Nat.le_refl 0⟩
  | succ left ih =>
    have below : Machine.limitReached? (cpu.limited (some limit)) = none := by
      rw [Cpu.limitReached?_limited_some, if_neg (by omega)]
    cases fetched : program.fetch? cpu.pc with
    | none => exact ⟨[], _, _, bus, .past below fetched, Nat.zero_le _⟩
    | some w =>
      have taken := Cpu.step_limited program (some limit) cpu bus
      rcases stepped : cpu.step program bus with ⟨trap | _ | exit, next, between⟩
      · rw [stepped] at taken
        exact ⟨_, _, _, _, .traps below fetched taken, Nat.le_add_left 1 left⟩
      · rw [stepped] at taken
        have counted := Cpu.steps_step fetched stepped
        obtain ⟨rounds, result, last, memory, rest, few⟩ := ih next between (by omega)
        exact ⟨_, _, _, _, .goes below fetched taken rest, Nat.succ_le_succ few⟩
      · rw [stepped] at taken
        exact ⟨_, _, _, _, .halts below fetched taken, Nat.le_add_left 1 left⟩

section Wider

variable (wider : ∀ bound, later = some bound → limit ≤ bound) {cpu last : Cpu} {bus memory : β}
  {rounds : List Round} {result : Except Trap Exit}

include wider

theorem below_of_wider (own : cpu.stepLimit = some limit)
    (below : Machine.limitReached? cpu = none) :
    Machine.limitReached? (cpu.limited later) = none := by
  have same : cpu.limited (some limit) = cpu := by rw [Cpu.limited, ← own]
  have room : ¬limit ≤ cpu.steps := by
    intro reached
    rw [← same, Cpu.limitReached?_limited_some, if_pos reached] at below
    cases below
  cases later with
  | none => exact Cpu.limitReached?_limited_none cpu
  | some bound =>
    have wide := wider bound rfl
    rw [Cpu.limitReached?_limited_some, if_neg (by omega)]

/-- A run that ends before its limit does not depend on it. -/
theorem widened (course : Course program cpu bus rounds result last memory)
    (own : cpu.stepLimit = some limit) (ended : result ≠ .error (.stepLimit limit)) :
    Course program (cpu.limited later) bus rounds result (last.limited later) memory := by
  induction course with
  | limit reached =>
    rw [Machine.limitReached?, own, Option.filter_eq_some_iff, Option.some.injEq] at reached
    exact absurd (by rw [reached.1]) ended
  | past below fetched => exact .past (below_of_wider wider own below) fetched
  | @traps cpu last bus memory w trap below fetched trapped =>
    have taken := Cpu.step_limited program later cpu bus
    rw [trapped] at taken
    exact .traps (below_of_wider wider own below) fetched taken
  | @halts cpu last bus memory w exit below fetched halted =>
    have taken := Cpu.step_limited program later cpu bus
    rw [halted] at taken
    exact .halts (below_of_wider wider own below) fetched taken
  | @goes cpu next last bus between memory w rounds result below fetched went rest ih =>
    have taken := Cpu.step_limited program later cpu bus
    have kept := Cpu.stepLimit_step program cpu bus
    rw [went] at taken kept
    exact (goes (below_of_wider wider own below) fetched taken (ih (kept.trans own) ended) :)

end Wider

theorem goes_iff {cpu next last : Cpu} {bus between memory : β} {w : Word} {rounds : List Round}
    {result : Except Trap Exit} (below : Machine.limitReached? cpu = none)
    (fetched : program.fetch? cpu.pc = some w)
    (went : cpu.step program bus = (.ok none, next, between)) :
    Course program cpu bus rounds result last memory ↔
      ∃ others, rounds = ⟨cpu.pc, w, some next.regs⟩ :: others ∧
        Course program next between others result last memory := by
  constructor
  · intro course
    cases course with
    | limit reached => cases reached.symm.trans below
    | past _ ended => cases ended.symm.trans fetched
    | traps _ _ taken | halts _ _ taken => cases went.symm.trans taken
    | goes _ again taken rest =>
      cases fetched.symm.trans again
      cases went.symm.trans taken
      exact ⟨_, rfl, rest⟩
  · rintro ⟨others, rfl, rest⟩
    exact .goes below fetched went rest

/-- The runs under a wider limit are those that go on from where the limit stops a run. -/
theorem resumed_iff (wider : ∀ bound, later = some bound → limit ≤ bound) {cpu last : Cpu}
    {bus memory : β} {rounds : List Round}
    (stopped : Course program cpu bus rounds (.error (.stepLimit limit)) last memory)
    (own : cpu.stepLimit = some limit) (whole : List Round) (found : Except Trap Exit) (final : Cpu)
    (cells : β) : Course program (cpu.limited later) bus whole found final cells ↔
      ∃ others, whole = rounds ++ others ∧
        Course program (last.limited later) memory others found final cells := by
  generalize outcome : (.error (.stepLimit limit) : Except Trap Exit) = result at stopped
  induction stopped generalizing whole with
  | limit reached => simp
  | past => cases outcome
  | traps below fetched trapped =>
    exact absurd (Except.error.inj outcome).symm (Cpu.step_ne_stepLimit trapped limit)
  | halts => cases outcome
  | @goes cpu next last bus between memory w rounds result below fetched went rest ih =>
    have taken : (cpu.limited later).step program bus = (.ok none, next.limited later, between) := by
      rw [Cpu.step_limited, went]
      rfl
    have kept := Cpu.stepLimit_step program cpu bus
    rw [went] at kept
    rw [goes_iff (below_of_wider wider own below) fetched taken]
    simp only [ih (kept.trans own) _ outcome]
    constructor
    · rintro ⟨-, rfl, others, rfl, rest⟩
      exact ⟨others, rfl, rest⟩
    · rintro ⟨others, rfl, rest⟩
      exact ⟨_, rfl, others, rfl, rest⟩

theorem dump_eq {cpu last : Cpu} {bus memory : β} {rounds : List Round} {result : Except Trap Exit}
    (course : Course program cpu bus rounds result last memory) : last.dump = cpu.dump := by
  obtain ⟨-, -, same, -⟩ := (course.watched cpu.dump).unique course
  exact (congrArg Cpu.dump same :)

end Course

namespace Machine

/-- What the rounds of a run and its end add to a journal. -/
def reported (dump : Dump) (rounds : List Round) (result : Except Trap Exit) (cpu : Cpu) (bank : Bank) :
    List Event :=
  rounds.flatMap (Round.events dump) ++ endEvents dump result cpu bank

def resumed {β : Type} (limit : Option Nat) (journal : Journal) (m : Machine β) : Machine β :=
  ⟨m.cpu.limited limit, m.bus, journal⟩

variable {program : Program} {m : Machine Bank} (boundless : m.journal.room = none)

include boundless

theorem RunsTo.course {result : Except Trap Exit} {last : Machine Bank}
    (runs : m.RunsTo program (result, last)) :
    ∃ rounds, Course program m.cpu m.bus rounds result last.cpu last.bus ∧
      last.journal.events =
        m.journal.events ++ reported m.cpu.dump rounds result last.cpu last.bus := by
  obtain ⟨fuel, ran⟩ := runs
  exact course_of_runWithin boundless ran

theorem exists_runsTo {rounds : List Round} {result : Except Trap Exit} {last : Cpu} {memory : Bank}
    (course : Course program m.cpu m.bus rounds result last memory) :
    ∃ journal, m.RunsTo program (result, ⟨last, memory, journal⟩) ∧
      journal.events = m.journal.events ++ reported m.cpu.dump rounds result last memory := by
  obtain ⟨⟨after, left, journal⟩, runs⟩ := exists_runsTo_of_course course m rfl rfl boundless
  obtain ⟨others, again, events⟩ := runs.course boundless
  obtain ⟨rfl, -, rfl, rfl⟩ := course.unique again
  exact ⟨journal, runs, events⟩

end Machine

/-- A run under a limit ends, and looks at no more words than the limit leaves. If the limit does not
stop it, it ends alike under every wider limit. If the limit stops it, a second run under a wider limit
goes on from there: the two end if one run under the wider limit ends, and only then, in the same way and
in the same state, and they report one after the other what the one run reports. -/
theorem run_sliced {program : Program} {m : Machine Bank} (boundless : m.journal.room = none)
    {limit : Nat} {later : Option Nat} (wider : ∀ bound, later = some bound → limit ≤ bound) :
    ∃ rounds result last, (m.limited (some limit)).RunsTo program (result, last) ∧
      Course program (m.cpu.limited (some limit)) m.bus rounds result last.cpu last.bus ∧
      rounds.length ≤ limit - m.cpu.steps ∧
      (result ≠ .error (.stepLimit limit) → ∃ final,
        (m.limited later).RunsTo program (result, final) ∧ final.cpu = last.cpu.limited later ∧
          final.bus = last.bus ∧ final.journal.events = last.journal.events) ∧
      (result = .error (.stepLimit limit) → ∀ journal : Journal, journal.room = none →
        ((∃ ending, (last.resumed later journal).RunsTo program ending) ↔
          ∃ ending, (m.limited later).RunsTo program ending) ∧
        ∀ found final outcome whole, (last.resumed later journal).RunsTo program (found, final) →
          (m.limited later).RunsTo program (outcome, whole) →
          outcome = found ∧ whole.cpu = final.cpu ∧ whole.bus = final.bus ∧
            ∃ events, final.journal.events = journal.events ++ events ∧
              whole.journal.events = last.journal.events ++ events) := by
  obtain ⟨rounds, result, after, memory, course, few⟩ :=
    Course.exists_limited program limit m.cpu m.bus
  have roomy : (m.limited later).journal.room = none := boundless
  obtain ⟨journal, runs, events⟩ := Machine.exists_runsTo (m := m.limited (some limit)) boundless course
  refine ⟨rounds, result, ⟨after, memory, journal⟩, runs, course, few, ?_, ?_⟩
  · intro ended
    obtain ⟨kept, reruns, same⟩ := Machine.exists_runsTo roomy (course.widened wider rfl ended)
    exact ⟨_, reruns, rfl, rfl, same.trans events.symm⟩
  · rintro rfl started free
    have onward := course.resumed_iff wider rfl
    refine ⟨⟨?_, ?_⟩, ?_⟩
    · rintro ⟨⟨found, final⟩, second⟩
      obtain ⟨others, rest, -⟩ := second.course free
      obtain ⟨kept, single, -⟩ :=
        Machine.exists_runsTo roomy ((onward _ found _ _).2 ⟨others, rfl, rest⟩)
      exact ⟨_, single⟩
    · rintro ⟨⟨outcome, whole⟩, single⟩
      obtain ⟨all, mine, -⟩ := single.course roomy
      obtain ⟨others, rfl, rest⟩ := (onward all outcome _ _).1 mine
      obtain ⟨kept, second, -⟩ :=
        Machine.exists_runsTo (m := Machine.resumed later started ⟨after, memory, journal⟩) free rest
      exact ⟨_, second⟩
    · intro found final outcome whole second single
      obtain ⟨others, rest, added⟩ := second.course free
      obtain ⟨all, mine, written⟩ := single.course roomy
      obtain ⟨rfl, rfl, cpus, buses⟩ := ((onward _ found _ _).2 ⟨others, rfl, rest⟩).unique mine
      refine ⟨rfl, cpus, buses, _, added, ?_⟩
      -- What is asked for is the same in all three runs, so the rounds are reported alike.
      have shown : (Machine.resumed later started ⟨after, memory, journal⟩).cpu.dump = m.cpu.dump :=
        course.dump_eq
      rw [written, events, shown, cpus, buses]
      simp [Machine.reported, endEvents]

theorem run_sliced_halt : ∃ program m last final whole, program = .ofWords [.padding, .fill 0xFE] ∧
    m = Machine.reporting (.start none {}) ⟨#[]⟩ ⟨true, false, true, false⟩ [] ∧
    (m.limited (some 1)).RunsTo program (.error (.stepLimit 1), last) ∧
    (last.resumed none (.fresh none)).RunsTo program (.ok .halted, final) ∧
    (m.limited none).RunsTo program (.ok .halted, whole) ∧ whole.cpu = final.cpu ∧
    whole.journal.events = last.journal.events ++ final.journal.events := by
  have stops : ((Machine.reporting (.start none {}) ⟨#[]⟩ ⟨true, false, true, false⟩ []).limited
      (some 1)).RunsTo (.ofWords [.padding, .fill 0xFE]) (.error (.stepLimit 1), _) := ⟨2, rfl⟩
  have single : ((Machine.reporting (.start none {}) ⟨#[]⟩ ⟨true, false, true, false⟩ []).limited
      none).RunsTo (.ofWords [.padding, .fill 0xFE]) (.ok .halted, _) := ⟨2, rfl⟩
  obtain ⟨rounds, result, last, runs, course, -, -, sliced⟩ :=
    @run_sliced (.ofWords [.padding, .fill 0xFE])
      (.reporting (.start none {}) ⟨#[]⟩ ⟨true, false, true, false⟩ []) rfl 1 none nofun
  obtain ⟨first, stopped, -⟩ := stops.course rfl
  obtain ⟨-, rfl, -, -⟩ := stopped.unique course
  obtain ⟨ends, alike⟩ := sliced rfl (.fresh none) rfl
  obtain ⟨⟨found, final⟩, second⟩ := ends.2 ⟨_, single⟩
  obtain ⟨rfl, cpus, -, events, added, written⟩ := alike found final _ _ second single
  refine ⟨_, _, last, final, _, rfl, rfl, runs, second, single, cpus, ?_⟩
  rw [written, added]
  rfl

end WordMachine
