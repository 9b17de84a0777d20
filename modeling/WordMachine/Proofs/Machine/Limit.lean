import WordMachine.Proofs.Machine.Guise
import WordMachine.Proofs.Machine.Move

/-! Runs under a step limit. A limit has no part in what a step does; it only ends a run that has no step
left. A halt takes a step, and so does the look past the end of the image, though no word is executed
there. -/

namespace WordMachine

namespace Cpu

def limited (limit : Option Nat) (cpu : Cpu) : Cpu := { cpu with stepLimit := limit }

theorem execute_limited {β : Type} [Bus β] (limit : Option Nat) (i : Instr Reg UInt32) (cpu : Cpu)
    (bus : β) : execute i (cpu.limited limit) bus =
      ((execute i cpu bus).1, (execute i cpu bus).2.1.limited limit, (execute i cpu bus).2.2) := by
  have same := execute_configured limit cpu.dump i cpu bus
  obtain ⟨regs, returns, kept⟩ := exists_execute i cpu bus
  refine same.trans (Prod.ext rfl (Prod.ext ?_ rfl))
  change (execute i cpu bus).2.1.configured limit cpu.dump = (execute i cpu bus).2.1.limited limit
  rw [kept]
  rfl

theorem limitReached?_limited_none (cpu : Cpu) :
    Machine.limitReached? (cpu.limited none) = none := rfl

theorem limitReached?_limited_some (limit : Nat) (cpu : Cpu) :
    Machine.limitReached? (cpu.limited (some limit)) =
      if limit ≤ cpu.steps then some limit else none := by
  by_cases reached : limit ≤ cpu.steps <;>
    simp [Machine.limitReached?, limited, Option.filter, reached]

theorem steps_perform {β : Type} [Bus β] {i : Instr Reg UInt32} {cpu after : Cpu} {bus memory : β}
    {exit : Option Exit} (done : perform i cpu bus = (.ok exit, after, memory)) :
    after.steps = cpu.steps + 1 := by
  obtain ⟨regs, returns, flow, followed⟩ := perform_ok done
  cases flow with
  | next | halt =>
    cases followed
    rfl
  | jump target =>
    rw [follow] at followed
    split at followed
    · cases followed
      rfl
    · cases followed

end Cpu

def Guise.limited (limit : Option Nat) : Guise where
  cpu := Cpu.limited limit
  event := id
  dump_cpu _ := rfl
  move _ _ := rfl
  count _ := rfl
  registers _ := rfl
  memory _ := rfl

namespace Machine

variable {β : Type}

def limited (limit : Option Nat) (m : Machine β) : Machine β := { m with cpu := m.cpu.limited limit }

@[simp] theorem limited_pc (limit : Option Nat) (m : Machine β) :
    (m.limited limit).cpu.pc = m.cpu.pc := rfl

@[simp] theorem limited_dump (limit : Option Nat) (m : Machine β) :
    (m.limited limit).cpu.dump = m.cpu.dump := rfl

@[simp] theorem limited_journal (limit : Option Nat) (m : Machine β) :
    (m.limited limit).journal = m.journal := rfl

theorem limited_eq_under (limit : Option Nat) : limited (β := β) limit = under (.limited limit) := by
  funext m
  exact congrArg (Machine.mk (m.cpu.limited limit) m.bus) m.journal.map_id.symm

variable [Bus β] {program : Program}

theorem perform_limited (limit : Option Nat) (m : Machine β) (i : Instr Reg UInt32) :
    (m.limited limit).perform i = (m.perform i).map id (limited limit) := by
  rw [limited_eq_under]
  exact perform_under (.limited limit) m (Cpu.execute_limited limit i m.cpu m.bus)

theorem step_limited (limit : Option Nat) (m : Machine β) :
    step program (m.limited limit) = (step program m).map id (limited limit) := by
  rw [step, step, limited_journal, limited_dump, limited_pc]
  cases program.fetch? m.cpu.pc with
  | none => rfl
  | some w =>
    dsimp only
    cases m.journal.note? m.cpu.dump.trace (.fetch m.cpu.pc w) with
    | none => rfl
    | some journal =>
      dsimp only
      cases w.decode? with
      | none => rfl
      | some i => exact perform_limited limit { m with journal } i

theorem conclude_limited (limit : Option Nat) (m : Machine β) (exit : Exit) :
    (m.limited limit).conclude exit = (m.conclude exit).map id (limited limit) := by
  rw [limited_eq_under]
  exact conclude_under (.limited limit) m exit

theorem runWithin_succ (fuel : Nat) (limit : Option Nat) (m : Machine β) :
    runWithin program (fuel + 1) (m.limited limit) =
      match limitReached? (m.cpu.limited limit) with
      | some reached => some (.error (.stepLimit reached), m.limited limit)
      | none => match step program m with
        | (.error trap, next) => some (.error trap, next.limited limit)
        | (.ok none, next) => runWithin program fuel (next.limited limit)
        | (.ok (some exit), next) => some ((next.conclude exit).map id (limited limit)) := by
  rw [runWithin, step_limited, limited]
  dsimp only
  cases limitReached? (m.cpu.limited limit) with
  | some reached => rfl
  | none =>
    obtain ⟨trap | _ | exit, next⟩ := step program m
    · rfl
    · rfl
    · exact congrArg some (conclude_limited limit next exit)

theorem step_ok {m next : Machine β} {exit : Option Exit} (done : step program m = (.ok exit, next)) :
    exit = some .endOfImage ∧ next = m ∨
      exit ≠ some .endOfImage ∧ next.cpu.steps = m.cpu.steps + 1 := by
  cases fetched : program.fetch? m.cpu.pc with
  | none =>
    simp only [step, fetched] at done
    obtain ⟨same, rfl⟩ := Prod.mk.inj done
    exact .inl ⟨(Except.ok.inj same).symm, rfl⟩
  | some w =>
    have faithful := step_faithful program m
    rw [done] at faithful
    rcases faithful with ⟨full, -⟩ | ⟨silent, -⟩
    · cases full
    · rcases Cpu.step_ending fetched m.bus with ⟨-, unknown⟩ | ⟨i, decoded, ending⟩
      · rw [silent] at unknown
        cases unknown
      · rw [silent] at ending
        rw [Cpu.step_of_fetch? fetched decoded] at silent
        refine .inr ⟨?_, Cpu.steps_perform silent⟩
        intro past
        subst past
        cases ending

/-- A machine exits after it has executed `n` words: it goes on until it halts, which is a word executed
too, or until no word is left. -/
inductive ExitsAfter (program : Program) : Machine β → Nat → Exit → Prop
  | past {m next : Machine β} (ended : step program m = (.ok (some .endOfImage), next)) :
    ExitsAfter program m 0 .endOfImage
  | halt {m next : Machine β} (halted : step program m = (.ok (some .halted), next)) :
    ExitsAfter program m 1 .halted
  | word {m next : Machine β} {n : Nat} {exit : Exit} (goes : step program m = (.ok none, next))
    (rest : ExitsAfter program next n exit) : ExitsAfter program m (n + 1) exit

theorem conclude_ok {m last : Machine β} {exit found : Exit}
    (done : m.conclude exit = (.ok found, last)) : found = exit ∧ last.cpu = m.cpu := by
  rw [conclude] at done
  split at done
  · cases done
  · split at done
    · split at done
      · cases done
      · split at done
        · cases done
        · cases done
          exact ⟨rfl, rfl⟩
    · cases done
      exact ⟨rfl, rfl⟩

theorem exitsAfter_of_runWithin {fuel : Nat} {m last : Machine β} {exit : Exit}
    (ran : runWithin program fuel (m.limited none) = some (.ok exit, last)) :
    ∃ n, ExitsAfter program m n exit ∧ last.cpu.steps = m.cpu.steps + n := by
  induction fuel generalizing m with
  | zero => cases ran
  | succ fuel ih =>
    rw [runWithin_succ, Cpu.limitReached?_limited_none] at ran
    rcases taken : step program m with ⟨trap | _ | found, next⟩
    · rw [taken] at ran
      cases ran
    · rw [taken] at ran
      obtain ⟨n, exits, counted⟩ := ih ran
      refine ⟨n + 1, .word taken exits, ?_⟩
      rcases step_ok taken with ⟨past, -⟩ | ⟨-, step⟩
      · cases past
      · omega
    · rw [taken] at ran
      obtain ⟨ended, rfl⟩ := Prod.mk.inj (Option.some.inj ran)
      obtain ⟨rfl, same⟩ := conclude_ok (Prod.ext ended rfl)
      change ∃ n, _ ∧ (next.conclude exit).2.cpu.steps = _
      rw [same]
      rcases step_ok taken with ⟨past, rfl⟩ | ⟨here, step⟩
      · obtain rfl := Option.some.inj past
        exact ⟨0, .past taken, rfl⟩
      · cases exit with
        | halted => exact ⟨1, .halt taken, step⟩
        | endOfImage => exact absurd rfl here

theorem runWithin_of_spared {m : Machine β} {n : Nat} {exit : Exit}
    (exits : ExitsAfter program m n exit) {fuel limit : Nat}
    (spared : m.cpu.steps + n < limit ∨ m.cpu.steps + n = limit ∧ exit = .halted) :
    runWithin program fuel (m.limited (some limit)) =
      (runWithin program fuel (m.limited none)).map (Prod.map id (limited (some limit))) := by
  -- The step counter plus the words to come stays the same along the run.
  induction exits generalizing fuel with
  | @past m next ended =>
    cases fuel with
    | zero => rfl
    | succ fuel =>
      have below : ¬limit ≤ m.cpu.steps := by simp at spared; omega
      rw [runWithin_succ, runWithin_succ, ended, Cpu.limitReached?_limited_some, if_neg below]
      rfl
  | @halt m next halted =>
    cases fuel with
    | zero => rfl
    | succ fuel =>
      have below : ¬limit ≤ m.cpu.steps := by omega
      rw [runWithin_succ, runWithin_succ, halted, Cpu.limitReached?_limited_some, if_neg below]
      rfl
  | @word m next n exit goes rest ih =>
    cases fuel with
    | zero => rfl
    | succ fuel =>
      have below : ¬limit ≤ m.cpu.steps := by omega
      rw [runWithin_succ, runWithin_succ, goes, Cpu.limitReached?_limited_some, if_neg below]
      rcases step_ok goes with ⟨past, -⟩ | ⟨-, counted⟩
      · cases past
      · have same : next.cpu.steps + n = m.cpu.steps + (n + 1) := by omega
        exact ih (same ▸ spared)

/-- A limit that leaves no room for some step of a run stops it there. -/
theorem runWithin_of_stopped {m : Machine β} {n : Nat} {exit : Exit}
    (exits : ExitsAfter program m n exit) {fuel limit : Nat}
    (ends : (runWithin program fuel (m.limited none)).isSome)
    (stopped : limit < m.cpu.steps + n ∨ limit = m.cpu.steps + n ∧ exit = .endOfImage) :
    ∃ last, runWithin program fuel (m.limited (some limit)) =
      some (.error (.stepLimit limit), last) := by
  induction exits generalizing fuel with
  | @past m next ended =>
    cases fuel with
    | zero => cases ends
    | succ fuel =>
      have reached : limit ≤ m.cpu.steps := by omega
      rw [runWithin_succ, Cpu.limitReached?_limited_some, if_pos reached]
      exact ⟨_, rfl⟩
  | @halt m next halted =>
    cases fuel with
    | zero => cases ends
    | succ fuel =>
      have reached : limit ≤ m.cpu.steps := by simp at stopped; omega
      rw [runWithin_succ, Cpu.limitReached?_limited_some, if_pos reached]
      exact ⟨_, rfl⟩
  | @word m next n exit goes rest ih =>
    cases fuel with
    | zero => cases ends
    | succ fuel =>
      rw [runWithin_succ, Cpu.limitReached?_limited_some]
      by_cases reached : limit ≤ m.cpu.steps
      · rw [if_pos reached]
        exact ⟨_, rfl⟩
      · rw [runWithin_succ, goes] at ends
        rw [if_neg reached, goes]
        rcases step_ok goes with ⟨past, -⟩ | ⟨-, counted⟩
        · cases past
        · have same : next.cpu.steps + n = m.cpu.steps + (n + 1) := by omega
          exact ih ends (same ▸ stopped)

theorem run_eq_of_runWithin {m : Machine β} {result : Except Trap Exit × Machine β}
    (ran : runWithin program horizon m = some result) : run program m = result := by
  rw [run, ran, Option.getD_some]

theorem runWithin_of_run {m last : Machine β} {exit : Exit}
    (ran : run program m = (.ok exit, last)) : runWithin program horizon m = some (.ok exit, last) := by
  rw [run] at ran
  cases ended : runWithin program horizon m with
  | none =>
    rw [ended] at ran
    cases ran
  | some result => rw [← ran, ended, Option.getD_some]

end Machine

/-- A run that exits without a limit has executed some number of words. It is the same under a limit that
the step counter does not reach, or reaches with a halt, and stopped under any other limit: also under one
that is reached with the last word before the end of the image. -/
theorem run_limited_of_exit {β : Type} [Bus β] {program : Program} {m last : Machine β} {exit : Exit}
    (exits : Machine.run program (m.limited none) = (.ok exit, last)) :
    ∃ n, m.ExitsAfter program n exit ∧ last.cpu.steps = m.cpu.steps + n ∧ ∀ limit,
      (m.cpu.steps + n < limit ∨ m.cpu.steps + n = limit ∧ exit = .halted →
        Machine.run program (m.limited (some limit)) = (.ok exit, last.limited (some limit))) ∧
      (limit < m.cpu.steps + n ∨ limit = m.cpu.steps + n ∧ exit = .endOfImage →
        ∃ stopped, Machine.run program (m.limited (some limit)) =
          (.error (.stepLimit limit), stopped)) := by
  have ran := Machine.runWithin_of_run exits
  obtain ⟨n, words, counted⟩ := Machine.exitsAfter_of_runWithin ran
  refine ⟨n, words, counted, ?_⟩
  intro limit
  constructor
  · intro spared
    apply Machine.run_eq_of_runWithin
    rw [Machine.runWithin_of_spared words spared, ran]
    rfl
  · intro short
    obtain ⟨stopped, trapped⟩ := Machine.runWithin_of_stopped words (by rw [ran]; rfl) short
    exact ⟨stopped, Machine.run_eq_of_runWithin trapped⟩

theorem run_limited_of_exit_padding :
    ∃ last stopped : Machine Bank,
      Machine.run (.ofWords [.padding]) ⟨.start none {}, ⟨#[]⟩, .fresh none⟩ = (.ok .endOfImage, last) ∧
      Machine.run (.ofWords [.padding]) ⟨.start (some 2) {}, ⟨#[]⟩, .fresh none⟩ =
        (.ok .endOfImage, last.limited (some 2)) ∧
      Machine.run (.ofWords [.padding]) ⟨.start (some 1) {}, ⟨#[]⟩, .fresh none⟩ =
        (.error (.stepLimit 1), stopped) := by
  have exits : Machine.run (.ofWords [.padding])
      (Machine.limited none (⟨.start none {}, ⟨#[]⟩, .fresh none⟩ : Machine Bank)) =
        (.ok .endOfImage, ⟨{ Cpu.start none {} with pc := 4, steps := 1 }, ⟨#[]⟩, .fresh none⟩) := by rfl
  obtain ⟨n, -, counted, limits⟩ := run_limited_of_exit exits
  obtain rfl : n = 1 := (Nat.zero_add n).symm.trans counted.symm
  obtain ⟨stopped, trapped⟩ := (limits 1).2 (.inr ⟨rfl, rfl⟩)
  exact ⟨_, stopped, exits, (limits 2).1 (.inl (by decide)), trapped⟩

/-- A run of one word past the end of its image is stopped by a limit of one step. -/
theorem not_forall_limit_spares_run :
    ¬∀ (program : Program) (m last : Machine Bank) (exit : Exit) (n limit : Nat),
      m.journal.room = none → Machine.run program (m.limited none) = (.ok exit, last) →
        m.ExitsAfter program n exit → m.cpu.steps + n ≤ limit →
          (Machine.run program (m.limited (some limit))).1 = .ok exit := by
  intro spares
  have executed : Machine.step (.ofWords [.padding])
      (⟨.start none {}, ⟨#[]⟩, .fresh none⟩ : Machine Bank) =
        (.ok none, ⟨{ Cpu.start none {} with pc := 4, steps := 1 }, ⟨#[]⟩, .fresh none⟩) := rfl
  have spared := spares (.ofWords [.padding]) ⟨.start none {}, ⟨#[]⟩, .fresh none⟩ _ .endOfImage 1 1
    rfl rfl (.word executed (.past rfl)) (Nat.le_refl 1)
  cases spared

end WordMachine
