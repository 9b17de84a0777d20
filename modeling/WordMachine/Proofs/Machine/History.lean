import WordMachine.Proofs.Machine.Invariant

/-! The machine after so many steps, and the instruction that each of them executes. -/

namespace WordMachine

namespace Machine

variable {β : Type} {program : Program} {m : Machine β} {i : Instr Reg UInt32}

/-- The instruction that the next step executes: none past the end of the image, at a word that is none,
and where the journal has no room for the word. -/
def executed? (program : Program) (m : Machine β) : Option (Instr Reg UInt32) := do
  let w ← program.fetch? m.cpu.pc
  let _ ← m.journal.note? m.cpu.dump.trace (.fetch m.cpu.pc w)
  w.decode?

theorem aligned_of_executed? (executed : m.executed? program = some i) : Aligned m.cpu.pc := by
  obtain ⟨w, fetched, -⟩ := Option.bind_eq_some_iff.1 executed
  exact (Program.mapped_of_fetch? fetched).1.1

variable [Bus β]

/-- The machine after `n` steps, whatever they end in. -/
def after (program : Program) (n : Nat) (m : Machine β) : Machine β := (calls program n m).2

theorem after_succ (program : Program) (n : Nat) (m : Machine β) :
    m.after program (n + 1) = (step program (m.after program n)).2 := by
  induction n generalizing m with
  | zero => rfl
  | succ n ih => exact ih (step program m).2

theorem step_of_executed? (executed : m.executed? program = some i) :
    ∃ journal, step program m = perform { m with journal } i := by
  simp only [executed?, Option.bind_eq_bind, Option.bind_eq_some_iff] at executed
  obtain ⟨w, fetched, journal, written, decoded⟩ := executed
  exact ⟨journal, by simp only [step, fetched, written, decoded]⟩

theorem state_of_executed? (executed : m.executed? program = some i) :
    (step program m).2.cpu = (Cpu.perform i m.cpu m.bus).2.1 ∧
      (step program m).2.bus = (Cpu.perform i m.cpu m.bus).2.2 := by
  obtain ⟨journal, stepped⟩ := step_of_executed? executed
  rw [stepped]
  exact perform_state { m with journal } i

theorem state_of_idle (idle : m.executed? program = none) :
    (step program m).2.cpu = m.cpu ∧ (step program m).2.bus = m.bus := by
  rw [step]
  cases fetched : program.fetch? m.cpu.pc with
  | none => exact ⟨rfl, rfl⟩
  | some w =>
    dsimp only
    cases written : m.journal.note? m.cpu.dump.trace (.fetch m.cpu.pc w) with
    | none => exact ⟨rfl, rfl⟩
    | some journal =>
      have unknown : w.decode? = none := by
        simpa only [executed?, fetched, written, Option.bind_eq_bind, Option.bind_some] using idle
      simp only [unknown, and_self]

/-- What each step of a stretch preserves holds all along it. -/
theorem after_preserves (holds : Machine β → Prop) {first last : Nat} (ordered : first ≤ last)
    (initially : holds (m.after program first))
    (kept : ∀ between, first ≤ between → between < last → holds (m.after program between) →
      holds (step program (m.after program between)).2) : holds (m.after program last) := by
  induction last, ordered using Nat.le_induction with
  | base => exact initially
  | succ last ordered ih =>
    have reached := ih fun between early late => kept between early (Nat.lt_succ_of_lt late)
    rw [after_succ]
    exact kept last ordered (Nat.lt_succ_self last) reached

end Machine

end WordMachine
