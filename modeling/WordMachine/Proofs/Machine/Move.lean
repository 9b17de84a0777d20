import WordMachine.Proofs.Machine.Step

/-! Where a step leads. An instruction either goes on to a place that it and the processor determine, or
halts, or traps for a reason of its own. -/

namespace WordMachine

namespace Cpu

def arrival? (cpu : Cpu) : Instr Reg UInt32 → Option (UInt32 × List UInt32)
  | .jump .always target => some (target, cpu.returns)
  | .jump (.when condition) target =>
    some (if condition.holds cpu.flag? then target else nextWord cpu.pc, cpu.returns)
  | .jump .call target => some (target, cpu.pc :: cpu.returns)
  | .bare .ret =>
    match cpu.returns with
    | [] => none
    | call :: outer => some (nextWord call, outer)
  | .bare .halt => none
  | .alu .. | .aluImm .. | .transfer .. | .cmp .. | .bare .noop =>
    some (nextWord cpu.pc, cpu.returns)

theorem arrival?_ret {cpu : Cpu} {place : UInt32} {returns : List UInt32}
    (arrives : cpu.arrival? (.bare .ret) = some (place, returns)) :
    ∃ call, cpu.returns = call :: returns ∧ place = nextWord call := by
  rw [arrival?] at arrives
  split at arrives
  · cases arrives
  · next call outer opened =>
    obtain ⟨rfl, rfl⟩ := Prod.mk.inj (Option.some.inj arrives)
    exact ⟨call, opened, rfl⟩

theorem returns_of_arrival? {cpu : Cpu} {i : Instr Reg UInt32} {place : UInt32}
    {returns : List UInt32} (arrives : cpu.arrival? i = some (place, returns))
    (plain : i ≠ .bare .ret) :
    returns = cpu.returns ∨ ∃ target, i = .jump .call target ∧ returns = cpu.pc :: cpu.returns := by
  cases i with
  | alu | aluImm | transfer | cmp => exact .inl (Prod.mk.inj (Option.some.inj arrives)).2.symm
  | jump j target =>
    cases j with
    | always | when => exact .inl (Prod.mk.inj (Option.some.inj arrives)).2.symm
    | call => exact .inr ⟨target, rfl, (Prod.mk.inj (Option.some.inj arrives)).2.symm⟩
  | bare b =>
    cases b with
    | ret => exact absurd rfl plain
    | halt => cases arrives
    | noop => exact .inl (Prod.mk.inj (Option.some.inj arrives)).2.symm

/-- How an instruction can end: it goes on, it halts, or it traps, but never as an unknown word. -/
inductive Ending (cpu : Cpu) (i : Instr Reg UInt32) : StepResult → Cpu → Prop
  | moved {after : Cpu} (arrives : cpu.arrival? i = some (after.pc, after.returns)) :
    Ending cpu i (.ok none) after
  | halted {after : Cpu} (halt : i = .bare .halt) : Ending cpu i (.ok (some .halted)) after
  | trapped {after : Cpu} {trap : Trap} (known : ∀ pc opcode, trap ≠ .unknownOpcode pc opcode)
    (able : trap ≠ .journalFull) : Ending cpu i (.error trap) after

theorem ending_follow (cpu : Cpu) {origin : Cpu} {i : Instr Reg UInt32} {target : UInt32}
    (arrives : origin.arrival? i = some (target, cpu.returns)) :
    Ending origin i (cpu.follow (.jump target)).1 (cpu.follow (.jump target)).2 := by
  by_cases aligned : Aligned target
  · rw [follow, if_pos aligned]
    exact .moved arrives
  · rw [follow, if_neg aligned]
    exact .trapped (by simp) (by simp)

variable {β : Type} [Bus β]

/-- An instruction itself writes nothing in the processor but registers and return stack. -/
theorem exists_execute (i : Instr Reg UInt32) (cpu : Cpu) (bus : β) : ∃ regs returns,
    (execute i cpu bus).2.1 = { cpu with regs := regs, returns := returns } := by
  cases i with
  | alu | aluImm | cmp => exact ⟨_, _, rfl⟩
  | transfer t reg addr =>
    cases t with
    | store =>
      rw [execute]
      obtain ⟨fault | done, memory⟩ := Bus.write bus addr (cpu.reg reg) <;> exact ⟨_, _, rfl⟩
    | load =>
      rw [execute]
      obtain ⟨fault | value, memory⟩ := Bus.read bus addr <;> exact ⟨_, _, rfl⟩
  | jump j target => cases j <;> exact ⟨_, _, rfl⟩
  | bare b =>
    cases b with
    | ret =>
      rw [execute]
      split <;> exact ⟨_, _, rfl⟩
    | halt | noop => exact ⟨_, _, rfl⟩

/-- The return stack that an instruction leaves, also one that traps. -/
def returnsAfter (cpu : Cpu) : Instr Reg UInt32 → List UInt32
  | .jump .call _ => cpu.pc :: cpu.returns
  | .bare .ret => cpu.returns.tail
  | .alu .. | .aluImm .. | .transfer .. | .cmp .. | .jump .always _ | .jump (.when _) _ |
    .bare .halt | .bare .noop => cpu.returns

theorem returns_execute (i : Instr Reg UInt32) (cpu : Cpu) (bus : β) :
    (execute i cpu bus).2.1.returns = cpu.returnsAfter i := by
  cases i with
  | alu | aluImm | cmp => rfl
  | transfer t reg addr =>
    cases t with
    | store =>
      rw [execute]
      split <;> rfl
    | load =>
      rw [execute]
      split <;> rfl
  | jump j target => cases j <;> rfl
  | bare b =>
    cases b with
    | ret =>
      rw [execute]
      split
      · next closed => rw [returnsAfter, closed, List.tail_nil]
      · next call outer opened => rw [returnsAfter, opened, List.tail_cons]
    | halt | noop => rfl

theorem exists_follow (cpu : Cpu) (flow : Flow) : ∃ pc, (cpu.follow flow).2 = { cpu with pc } := by
  cases flow with
  | next | halt => exact ⟨_, rfl⟩
  | jump target =>
    rw [follow]
    split <;> exact ⟨_, rfl⟩

theorem exists_perform (i : Instr Reg UInt32) (cpu : Cpu) (bus : β) : ∃ pc steps,
    (perform i cpu bus).2.1 = { (execute i cpu bus).2.1 with pc, steps } := by
  rw [perform]
  obtain ⟨trap | flow, after, memory⟩ := execute i cpu bus
  · exact ⟨_, _, rfl⟩
  · obtain ⟨pc, moved⟩ := after.count.exists_follow flow
    exact ⟨pc, after.steps + 1, moved⟩

theorem bus_perform (i : Instr Reg UInt32) (cpu : Cpu) (bus : β) :
    (perform i cpu bus).2.2 = (execute i cpu bus).2.2 := by
  rw [perform]
  obtain ⟨trap | flow, after, memory⟩ := execute i cpu bus <;> rfl

theorem returns_perform (i : Instr Reg UInt32) (cpu : Cpu) (bus : β) :
    (perform i cpu bus).2.1.returns = cpu.returnsAfter i := by
  obtain ⟨pc, steps, kept⟩ := exists_perform i cpu bus
  rw [kept, ← returns_execute i cpu bus]

def configured (stepLimit : Option Nat) (dump : Dump) (cpu : Cpu) : Cpu :=
  { cpu with stepLimit := stepLimit, dump := dump }

theorem execute_configured (stepLimit : Option Nat) (dump : Dump) (i : Instr Reg UInt32) (cpu : Cpu)
    (bus : β) : execute i (cpu.configured stepLimit dump) bus =
      (execute i cpu bus).map id (.map (configured stepLimit dump) id) := by
  have read : ∀ r, (cpu.configured stepLimit dump).reg r = cpu.reg r := fun _ => rfl
  cases i with
  | alu | aluImm | cmp => rfl
  | transfer t reg addr =>
    cases t with
    | store =>
      rw [execute, execute, read]
      obtain ⟨fault | done, memory⟩ := Bus.write bus addr (cpu.reg reg) <;> rfl
    | load =>
      rw [execute, execute]
      obtain ⟨fault | value, memory⟩ := Bus.read bus addr <;> rfl
  | jump j target => cases j <;> rfl
  | bare b =>
    cases b with
    | ret =>
      obtain ⟨pc, regs, returns, steps, limit, shown⟩ := cpu
      cases returns <;> rfl
    | halt | noop => rfl

theorem perform_ok {i : Instr Reg UInt32} {cpu after : Cpu} {bus memory : β} {exit : Option Exit}
    (done : perform i cpu bus = (.ok exit, after, memory)) : ∃ regs returns flow,
      ({ cpu with regs := regs, returns := returns, steps := cpu.steps + 1 } : Cpu).follow flow =
        (.ok exit, after) := by
  obtain ⟨regs, returns, kept⟩ := exists_execute i cpu bus
  rw [perform] at done
  generalize execute i cpu bus = executed at kept done
  obtain ⟨trap | flow, between, reached⟩ := executed
  · cases done
  · obtain rfl : between = _ := kept
    obtain ⟨outcome, rest⟩ := Prod.mk.inj done
    exact ⟨regs, returns, flow, Prod.ext outcome (Prod.mk.inj rest).1⟩

theorem perform_ending (i : Instr Reg UInt32) (cpu : Cpu) (bus : β) :
    Ending cpu i (perform i cpu bus).1 (perform i cpu bus).2.1 := by
  cases i with
  | alu f left right dst => exact .moved rfl
  | aluImm f imm src dst => exact .moved rfl
  | transfer t reg addr =>
    cases t with
    | store =>
      rw [perform, execute]
      obtain ⟨fault | done, memory⟩ := Bus.write bus addr (cpu.reg reg)
      · exact .trapped (by simp) (by simp)
      · exact .moved rfl
    | load =>
      rw [perform, execute]
      obtain ⟨fault | value, memory⟩ := Bus.read bus addr
      · exact .trapped (by simp) (by simp)
      · exact .moved rfl
  | cmp left right => exact .moved rfl
  | jump j target =>
    cases j with
    | always => exact ending_follow cpu.count rfl
    | when condition =>
      rw [perform, execute]
      cases taken : condition.holds cpu.flag? with
      | true => exact ending_follow cpu.count (by simp [arrival?, taken, count])
      | false => exact .moved (by simp [arrival?, taken, follow, count])
    | call => exact ending_follow (count { cpu with returns := cpu.pc :: cpu.returns }) rfl
  | bare b =>
    cases b with
    | ret =>
      obtain ⟨pc, regs, returns, steps, stepLimit, dump⟩ := cpu
      cases returns with
      | nil => exact .trapped (by simp) (by simp)
      | cons call outer =>
        exact ending_follow (count ⟨pc, regs, outer, steps, stepLimit, dump⟩) rfl
    | halt => exact .halted rfl
    | noop => exact .moved rfl

theorem step_ending {program : Program} {cpu : Cpu} {w : Word}
    (fetched : program.fetch? cpu.pc = some w) (bus : β) :
    w.decode? = none ∧ (step program cpu bus).1 = .error (.unknownOpcode cpu.pc w.b0) ∨
      ∃ i, w.decode? = some i ∧ Ending cpu i (step program cpu bus).1 (step program cpu bus).2.1 := by
  cases decoded : w.decode? with
  | none => exact .inl ⟨rfl, by simp only [step, fetched, decoded]⟩
  | some i =>
    rw [step_of_fetch? fetched decoded]
    exact .inr ⟨i, rfl, perform_ending i cpu bus⟩

end Cpu

theorem Machine.step_ending {β : Type} [Bus β] {program : Program} {m : Machine β} {w : Word}
    (fetched : program.fetch? m.cpu.pc = some w) : (step program m).1 = .error .journalFull ∨
      w.decode? = none ∧ (step program m).1 = .error (.unknownOpcode m.cpu.pc w.b0) ∨
      ∃ i, w.decode? = some i ∧ Cpu.Ending m.cpu i (step program m).1 (step program m).2.cpu := by
  rcases step_faithful program m with ⟨full, -⟩ | ⟨silent, -⟩
  · exact .inl full
  · have ending := Cpu.step_ending fetched m.bus
    rw [silent] at ending
    exact .inr ending

end WordMachine
