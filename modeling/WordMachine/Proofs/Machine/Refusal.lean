import WordMachine.Proofs.Machine.Move

/-! Steps that trap. An unknown word, a return without a call and a cell outside the bank are found
before anything is done. A target that is no place for a word is found last: the instruction is counted
by then, and the return stack is as the instruction leaves it. -/

namespace WordMachine

namespace Bank

theorem read_refused {bank memory : Bank} {addr : UInt32} {fault : BusFault}
    (refused : Bus.read bank addr = (.error fault, memory)) :
    memory = bank ∧ bank.size ≤ addr.toNat := by
  change bank.read addr = _ at refused
  rw [read] at refused
  split at refused
  · cases refused
  · next outside =>
    cases refused
    exact ⟨rfl, Nat.le_of_not_lt outside⟩

theorem write_refused {bank memory : Bank} {addr : UInt32} {value : UInt8} {fault : BusFault}
    (refused : Bus.write bank addr value = (.error fault, memory)) :
    memory = bank ∧ bank.size ≤ addr.toNat := by
  change bank.write addr value = _ at refused
  rw [write] at refused
  split at refused
  · cases refused
  · next outside =>
    cases refused
    exact ⟨rfl, Nat.le_of_not_lt outside⟩

end Bank

namespace Cpu

variable {β : Type} [Bus β]

/-- Why an instruction traps, and what it leaves. -/
inductive Refused (cpu : Cpu) (bus : β) (i : Instr Reg UInt32) : Trap → Cpu → β → Prop
  | underflow (ret : i = .bare .ret) (closed : cpu.returns = []) :
    Refused cpu bus i (.stackUnderflow cpu.pc) cpu bus
  | unwritten {reg : Reg} {addr : UInt32} {fault : BusFault} {memory : β}
    (store : i = .transfer .store reg addr)
    (refused : Bus.write bus addr (cpu.reg reg) = (.error fault, memory)) :
    Refused cpu bus i (.bus addr fault) cpu memory
  | unread {reg : Reg} {addr : UInt32} {fault : BusFault} {memory : β}
    (load : i = .transfer .load reg addr) (refused : Bus.read bus addr = (.error fault, memory)) :
    Refused cpu bus i (.bus addr fault) cpu memory
  | unaligned {target : UInt32} {returns : List UInt32}
    (arrives : cpu.arrival? i = some (target, returns)) (odd : ¬Aligned target) :
    Refused cpu bus i (.unaligned cpu.pc target)
      { cpu with returns := returns, steps := cpu.steps + 1 } bus

theorem Refused.jump {origin cpu after : Cpu} {bus memory : β} {i : Instr Reg UInt32} {trap : Trap}
    {target : UInt32} {returns : List UInt32} (arrives : origin.arrival? i = some (target, returns))
    (counted : cpu = { origin with returns := returns, steps := origin.steps + 1 })
    (trapped : ((cpu.follow (.jump target)).1, (cpu.follow (.jump target)).2, bus) =
      (.error trap, after, memory)) : Refused origin bus i trap after memory := by
  subst counted
  by_cases aligned : Aligned target
  · rw [follow, if_pos aligned] at trapped
    cases trapped
  · rw [follow, if_neg aligned] at trapped
    cases trapped
    exact .unaligned arrives aligned

theorem perform_refused {i : Instr Reg UInt32} {cpu after : Cpu} {bus memory : β} {trap : Trap}
    (trapped : perform i cpu bus = (.error trap, after, memory)) :
    Refused cpu bus i trap after memory := by
  cases i with
  | alu | aluImm | cmp => cases trapped
  | transfer t reg addr =>
    cases t with
    | store =>
      rw [perform, execute] at trapped
      rcases written : Bus.write bus addr (cpu.reg reg) with ⟨fault | done, left⟩
      · rw [written] at trapped
        cases trapped
        exact .unwritten rfl written
      · rw [written] at trapped
        cases trapped
    | load =>
      rw [perform, execute] at trapped
      rcases read : Bus.read bus addr with ⟨fault | value, left⟩
      · rw [read] at trapped
        cases trapped
        exact .unread rfl read
      · rw [read] at trapped
        cases trapped
  | jump j target =>
    cases j with
    | always => exact .jump rfl rfl trapped
    | when condition =>
      rw [perform, execute] at trapped
      cases taken : condition.holds cpu.flag? with
      | true =>
        rw [taken] at trapped
        exact .jump (by simp [arrival?, taken]) rfl trapped
      | false =>
        rw [taken] at trapped
        cases trapped
    | call => exact .jump rfl rfl trapped
  | bare b =>
    cases b with
    | ret =>
      obtain ⟨pc, regs, returns, steps, stepLimit, dump⟩ := cpu
      cases returns with
      | nil =>
        cases trapped
        exact .underflow rfl rfl
      | cons call outer => exact .jump rfl rfl trapped
    | halt | noop => cases trapped

/-- All that a step can trap for. -/
theorem step_refused {program : Program} {cpu after : Cpu} {bus memory : β} {trap : Trap}
    (trapped : step program cpu bus = (.error trap, after, memory)) :
    ∃ w, program.fetch? cpu.pc = some w ∧
      (w.decode? = none ∧ trap = .unknownOpcode cpu.pc w.b0 ∧ after = cpu ∧ memory = bus ∨
        ∃ i, w.decode? = some i ∧ Refused cpu bus i trap after memory) := by
  cases fetched : program.fetch? cpu.pc with
  | none =>
    rw [step_of_fetch?_none fetched] at trapped
    cases trapped
  | some w =>
    cases decoded : w.decode? with
    | none =>
      simp only [step, fetched, decoded] at trapped
      cases trapped
      exact ⟨w, rfl, .inl ⟨decoded, rfl, rfl, rfl⟩⟩
    | some i =>
      rw [step_of_fetch? fetched decoded] at trapped
      exact ⟨w, rfl, .inr ⟨i, decoded, perform_refused trapped⟩⟩

theorem Refused.bank_eq {cpu after : Cpu} {bank memory : Bank} {i : Instr Reg UInt32} {trap : Trap}
    (refused : Refused cpu bank i trap after memory) : memory = bank := by
  cases refused with
  | underflow | unaligned => rfl
  | unwritten store refused => exact (Bank.write_refused refused).1
  | unread load refused => exact (Bank.read_refused refused).1

end Cpu

theorem Machine.step_refused {β : Type} [Bus β] {program : Program} {m after : Machine β} {trap : Trap}
    (trapped : step program m = (.error trap, after)) (roomy : trap ≠ .journalFull) :
    ∃ w, program.fetch? m.cpu.pc = some w ∧
      (w.decode? = none ∧ trap = .unknownOpcode m.cpu.pc w.b0 ∧ after.cpu = m.cpu ∧ after.bus = m.bus ∨
        ∃ i, w.decode? = some i ∧ Cpu.Refused m.cpu m.bus i trap after.cpu after.bus) := by
  have faithful := step_faithful program m
  rw [trapped] at faithful
  rcases faithful with ⟨full, -⟩ | ⟨silent, -⟩
  · exact absurd (Except.error.inj full) roomy
  · exact Cpu.step_refused silent

theorem Machine.ne_journalFull {β : Type} [Bus β] {program : Program} {m after : Machine β} {trap : Trap}
    (boundless : m.journal.room = none) (trapped : step program m = (.error trap, after)) :
    trap ≠ .journalFull := by
  have silent := (step_of_boundless program boundless).1
  rw [trapped] at silent
  obtain ⟨w, -, ⟨-, rfl, -⟩ | ⟨i, -, refused⟩⟩ := Cpu.step_refused silent
  · simp
  · generalize after.cpu = left at refused
    generalize after.bus = memory at refused
    cases refused <;> simp

/-- A step that traps leaves the memory as it was, and the processor too unless it traps at a target
that is no place for a word. Then the processor has counted the instruction, and its return stack is the
one with which the instruction would have arrived; all else in it is as before. -/
theorem trap_leaves_machine {program : Program} {m after : Machine Bank} {trap : Trap}
    (trapped : Machine.step program m = (.error trap, after)) (roomy : trap ≠ .journalFull) :
    after.bus = m.bus ∧
      ((∀ pc target, trap ≠ .unaligned pc target) → after.cpu = m.cpu) ∧
      ∀ pc target, trap = .unaligned pc target → ∃ w i, program.fetch? m.cpu.pc = some w ∧
        w.decode? = some i ∧ m.cpu.arrival? i = some (target, after.cpu.returns) ∧
        after.cpu = { m.cpu with returns := after.cpu.returns, steps := m.cpu.steps + 1 } := by
  obtain ⟨cpu, bus, journal⟩ := m
  obtain ⟨left, memory, later⟩ := after
  obtain ⟨w, fetched, ⟨-, rfl, rfl, rfl⟩ | ⟨i, decoded, refused⟩⟩ :=
    Machine.step_refused trapped roomy
  · exact ⟨rfl, fun _ => rfl, nofun⟩
  · refine ⟨refused.bank_eq, ?_, ?_⟩
    · intro reached
      cases refused with
      | underflow | unwritten | unread => rfl
      | unaligned => exact absurd rfl (reached _ _)
    · intro pc target unaligned
      subst unaligned
      cases refused with
      | unaligned arrives => exact ⟨w, i, fetched, decoded, arrives, rfl⟩

theorem trap_leaves_machine_store_call :
    (Machine.step (.ofWords [⟨0x0A, 3, 0, 9⟩])
        (⟨.start none {}, ⟨#[7]⟩, .fresh none⟩ : Machine Bank)).2.cpu = .start none {} ∧
      ∃ w i, (Program.ofWords [⟨0x12, 0, 0, 5⟩]).fetch? 0 = some w ∧ w.decode? = some i ∧
        (Cpu.start none {}).arrival? i = some (5, [0]) := by
  constructor
  · have trapped : Machine.step (.ofWords [⟨0x0A, 3, 0, 9⟩])
        (⟨.start none {}, ⟨#[7]⟩, .fresh none⟩ : Machine Bank) =
          (.error (.bus 9 (.outside 9 1)), ⟨.start none {}, ⟨#[7]⟩, .fresh none⟩) := rfl
    exact (trap_leaves_machine trapped (by decide)).2.1 nofun
  · have trapped : Machine.step (.ofWords [⟨0x12, 0, 0, 5⟩])
        (⟨.start none {}, ⟨#[7]⟩, .fresh none⟩ : Machine Bank) =
          (.error (.unaligned 0 5),
            ⟨{ Cpu.start none {} with returns := [0], steps := 1 }, ⟨#[7]⟩, .fresh none⟩) := rfl
    obtain ⟨w, i, fetched, decoded, arrives, -⟩ :=
      (trap_leaves_machine trapped (by decide)).2.2 0 5 rfl
    exact ⟨w, i, fetched, decoded, arrives⟩

/-- A call to a place between words is refused, but it is counted and stays open. -/
theorem not_forall_trap_leaves_machine :
    ¬∀ (program : Program) (m after : Machine Bank) (trap : Trap),
      Machine.step program m = (.error trap, after) → trap ≠ .journalFull →
        after.cpu = m.cpu ∧ after.bus = m.bus := by
  intro unchanged
  have call := unchanged (.ofWords [⟨0x12, 0, 0, 5⟩]) ⟨.start none {}, ⟨#[]⟩, .fresh none⟩ _
    (.unaligned 0 5) rfl (by decide)
  exact absurd (congrArg Cpu.returns call.1) (List.cons_ne_nil 0 [])

end WordMachine
