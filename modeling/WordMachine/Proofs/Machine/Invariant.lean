import WordMachine.Proofs.Isa.Decoding
import WordMachine.Proofs.Machine.Fetch
import WordMachine.Proofs.Machine.Refusal

/-! What holds of a machine after any number of steps. The processor stays at places for words, every
open call was made by a call in the image, and the bank keeps its size. -/

namespace WordMachine

theorem Aligned.nextWord {address : UInt32} (aligned : Aligned address) :
    Aligned (nextWord address) := by
  unfold Aligned Word.size at aligned ⊢
  rw [WordMachine.nextWord, UInt32.toNat_add]
  simp only [UInt32.reduceToNat]
  omega

namespace Cpu

variable {β : Type} [Bus β] {program : Program}

def CallSite (program : Program) (address : UInt32) : Prop :=
  ∃ w target, program.fetch? address = some w ∧ w.decode? = some (.jump .call target)

theorem CallSite.mapped {address : UInt32} (site : CallSite program address) :
    program.image.Mapped address := by
  obtain ⟨w, target, fetched, -⟩ := site
  exact (Program.mapped_of_fetch? fetched).1

theorem CallSite.aligned {address : UInt32} (site : CallSite program address) : Aligned address :=
  site.mapped.1

/-- The processor is at a place for a word, and every open call was made by a word that is a call. -/
structure Grounded (program : Program) (cpu : Cpu) : Prop where
  pc : Aligned cpu.pc
  returns : ∀ call ∈ cpu.returns, CallSite program call

theorem grounded_start (program : Program) (stepLimit : Option Nat) (dump : Dump) :
    Grounded program (start stepLimit dump) where
  pc := rfl
  returns := by simp [start]

theorem pc_execute (i : Instr Reg UInt32) (cpu : Cpu) (bus : β) :
    (execute i cpu bus).2.1.pc = cpu.pc := by
  obtain ⟨regs, returns, kept⟩ := exists_execute i cpu bus
  rw [kept]

theorem mem_returnsAfter {i : Instr Reg UInt32} {cpu : Cpu} {call : UInt32}
    (opened : call ∈ cpu.returnsAfter i) :
    call ∈ cpu.returns ∨ call = cpu.pc ∧ ∃ target, i = .jump .call target := by
  cases i with
  | alu | aluImm | transfer | cmp => exact .inl opened
  | jump j target =>
    cases j with
    | always | when => exact .inl opened
    | call =>
      rcases List.mem_cons.1 opened with here | outer
      · exact .inr ⟨here, target, rfl⟩
      · exact .inl outer
  | bare b =>
    cases b with
    | ret => exact .inl (List.mem_of_mem_tail opened)
    | halt | noop => exact .inl opened

theorem aligned_follow {cpu : Cpu} (aligned : Aligned cpu.pc) (flow : Flow) :
    Aligned (cpu.follow flow).2.pc := by
  cases flow with
  | next => exact aligned.nextWord
  | halt => exact aligned
  | jump target =>
    rw [follow]
    split
    · assumption
    · exact aligned

theorem aligned_perform {cpu : Cpu} (aligned : Aligned cpu.pc) (i : Instr Reg UInt32) (bus : β) :
    Aligned (perform i cpu bus).2.1.pc := by
  have pc := pc_execute i cpu bus
  rw [perform]
  generalize execute i cpu bus = executed at pc
  obtain ⟨trap | flow, after, memory⟩ := executed
  · exact pc.symm ▸ aligned
  · have stands : Aligned after.count.pc := pc.symm ▸ aligned
    exact aligned_follow stands flow

theorem Grounded.perform {cpu : Cpu} (grounded : cpu.Grounded program) {w : Word}
    {i : Instr Reg UInt32} (fetched : program.fetch? cpu.pc = some w) (decoded : w.decode? = some i)
    (bus : β) : (perform i cpu bus).2.1.Grounded program where
  pc := aligned_perform grounded.pc i bus
  returns := by
    intro call opened
    rw [returns_perform] at opened
    rcases mem_returnsAfter opened with before | ⟨rfl, target, rfl⟩
    · exact grounded.returns call before
    · exact ⟨w, target, fetched, decoded⟩

theorem Grounded.step {cpu : Cpu} (grounded : cpu.Grounded program) (bus : β) :
    (step program cpu bus).2.1.Grounded program := by
  cases fetched : program.fetch? cpu.pc with
  | none =>
    rw [step_of_fetch?_none fetched]
    exact grounded
  | some w =>
    cases decoded : w.decode? with
    | none =>
      simp only [Cpu.step, fetched, decoded]
      exact grounded
    | some i =>
      rw [step_of_fetch? fetched decoded]
      exact grounded.perform fetched decoded bus

/-- Of what a grounded processor executes only a jump can lead off the word boundaries. -/
theorem Grounded.jump_of_arrival? {cpu : Cpu} (grounded : cpu.Grounded program)
    {i : Instr Reg UInt32} {target : UInt32} {returns : List UInt32}
    (arrives : cpu.arrival? i = some (target, returns)) (odd : ¬Aligned target) :
    ∃ j, i = .jump j target := by
  have passed : target ≠ WordMachine.nextWord cpu.pc := by
    intro next
    exact odd (next ▸ grounded.pc.nextWord)
  cases i with
  | alu | aluImm | transfer | cmp =>
    exact absurd (Prod.mk.inj (Option.some.inj arrives)).1.symm passed
  | jump j goal =>
    cases j with
    | always => exact ⟨_, congrArg _ (Prod.mk.inj (Option.some.inj arrives)).1⟩
    | call => exact ⟨_, congrArg _ (Prod.mk.inj (Option.some.inj arrives)).1⟩
    | «when» condition =>
      rw [arrival?] at arrives
      obtain ⟨place, -⟩ := Prod.mk.inj (Option.some.inj arrives)
      split at place
      · exact ⟨_, congrArg _ place⟩
      · exact absurd place.symm passed
  | bare b =>
    cases b with
    | ret =>
      obtain ⟨call, opened, rfl⟩ := arrival?_ret arrives
      have site := grounded.returns call (opened ▸ List.mem_cons_self)
      exact absurd site.aligned.nextWord odd
    | halt => cases arrives
    | noop => exact absurd (Prod.mk.inj (Option.some.inj arrives)).1.symm passed

theorem size_execute (i : Instr Reg UInt32) (cpu : Cpu) (bank : Bank) :
    (execute i cpu bank).2.2.size = bank.size := by
  cases i with
  | alu | aluImm | cmp => rfl
  | transfer t reg addr =>
    cases t with
    | store =>
      have written : (Bus.write bank addr (cpu.reg reg)).2.size = bank.size :=
        bank.size_write addr (cpu.reg reg)
      rw [execute]
      generalize Bus.write bank addr (cpu.reg reg) = answer at written
      obtain ⟨fault | done, memory⟩ := answer <;> exact written
    | load =>
      have read : (Bus.read bank addr).2.size = bank.size := by
        change (bank.read addr).2.size = _
        rw [Bank.read]
        split <;> rfl
      rw [execute]
      generalize Bus.read bank addr = answer at read
      obtain ⟨fault | value, memory⟩ := answer <;> exact read
  | jump j => cases j <;> rfl
  | bare b =>
    cases b with
    | ret =>
      rw [execute]
      split <;> rfl
    | halt | noop => rfl

theorem size_step (program : Program) (cpu : Cpu) (bank : Bank) :
    (Cpu.step program cpu bank).2.2.size = bank.size := by
  cases fetched : program.fetch? cpu.pc with
  | none => rw [step_of_fetch?_none fetched]
  | some w =>
    cases decoded : w.decode? with
    | none => simp only [step, fetched, decoded]
    | some i =>
      rw [step_of_fetch? fetched decoded, bus_perform, size_execute]

theorem step_ne_bus (program : Program) (cpu : Cpu) {bank : Bank} (whole : bank.size = addressSpace)
    (address : UInt32) (fault : BusFault) :
    (Cpu.step program cpu bank).1 ≠ .error (.bus address fault) := by
  intro trapped
  obtain ⟨w, -, ⟨-, unknown, -⟩ | ⟨i, decoded, refused⟩⟩ :=
    step_refused (show Cpu.step program cpu bank = (_, _, _) from Prod.ext trapped rfl)
  · cases unknown
  · have fits := (Word.of_decode? decoded).2
    generalize (Cpu.step program cpu bank).2.1 = after at refused
    generalize (Cpu.step program cpu bank).2.2 = memory at refused
    cases refused with
    | unwritten store refused =>
      subst store
      exact absurd (Bank.write_refused refused).2 (Nat.not_le_of_lt (whole ▸ fits))
    | unread load refused =>
      subst load
      exact absurd (Bank.read_refused refused).2 (Nat.not_le_of_lt (whole ▸ fits))

end Cpu

namespace Machine

variable {β : Type} [Bus β] {program : Program}

theorem calls_preserve (holds : Machine β → Prop)
    (kept : ∀ m, holds m → holds (step program m).2) (n : Nat) {m : Machine β} (first : holds m) :
    holds (calls program n m).2 := by
  induction n generalizing m with
  | zero => exact first
  | succ n ih => exact ih (kept m first)

theorem grounded_step {m : Machine β} (grounded : m.cpu.Grounded program) :
    (step program m).2.cpu.Grounded program := by
  rcases step_state program m with ⟨same, -⟩ | ⟨moved, -⟩
  · rw [same]
    exact grounded
  · rw [moved]
    exact grounded.step m.bus

theorem grounded_calls (n : Nat) {m : Machine β} (grounded : m.cpu.Grounded program) :
    (calls program n m).2.cpu.Grounded program :=
  calls_preserve (fun m => m.cpu.Grounded program) (fun _ => grounded_step) n grounded

theorem boundless_calls (program : Program) (n : Nat) {m : Machine β}
    (boundless : m.journal.room = none) : (calls program n m).2.journal.room = none :=
  calls_preserve (fun m => m.journal.room = none)
    (fun _ free => (step_of_boundless program free).2) n boundless

theorem size_step (program : Program) (m : Machine Bank) :
    (step program m).2.bus.size = m.bus.size := by
  rcases step_state program m with ⟨-, same⟩ | ⟨-, moved⟩
  · rw [same]
  · rw [moved, Cpu.size_step]

theorem size_calls (program : Program) (n : Nat) (m : Machine Bank) :
    (calls program n m).2.bus.size = m.bus.size :=
  calls_preserve (fun last => last.bus.size = m.bus.size)
    (fun last same => (size_step program last).trans same) n rfl

theorem step_ne_bus (program : Program) {m : Machine Bank} (whole : m.bus.size = addressSpace)
    (address : UInt32) (fault : BusFault) : (step program m).1 ≠ .error (.bus address fault) := by
  rcases step_faithful program m with ⟨full, -⟩ | ⟨silent, -⟩
  · rw [full]
    simp
  · have served := Cpu.step_ne_bus program m.cpu whole address fault
    rwa [silent] at served

theorem conclude_ne_bus (m : Machine Bank) (exit : Exit) (address : UInt32) (fault : BusFault) :
    (m.conclude exit).1 ≠ .error (.bus address fault) := by
  have dumped : Bus.dump m.bus = (.ok m.bus.cells, m.bus) := rfl
  rw [conclude, dumped]
  split
  · simp
  · split
    · dsimp only
      split <;> simp
    · simp

theorem runWithin_ne_bus {fuel : Nat} {m last : Machine Bank} (whole : m.bus.size = addressSpace)
    (address : UInt32) (fault : BusFault) :
    runWithin program fuel m ≠ some (.error (.bus address fault), last) := by
  induction fuel generalizing m with
  | zero => simp [runWithin]
  | succ fuel ih =>
    have served := step_ne_bus program whole address fault
    have kept := size_step program m
    rw [runWithin]
    cases limitReached? m.cpu with
    | some limit => simp
    | none =>
      generalize step program m = taken at served kept
      obtain ⟨trap | _ | exit, next⟩ := taken
      · intro ended
        cases ended
        exact served rfl
      · exact ih (kept.trans whole)
      · intro ended
        exact conclude_ne_bus next exit address fault (congrArg Prod.fst (Option.some.inj ended))

theorem run_ne_bus (program : Program) {m : Machine Bank} (whole : m.bus.size = addressSpace)
    (address : UInt32) (fault : BusFault) : (run program m).1 ≠ .error (.bus address fault) := by
  rw [run]
  cases ran : runWithin program horizon m with
  | none => simp
  | some ending =>
    obtain ⟨result, last⟩ := ending
    intro trapped
    obtain rfl : result = .error (.bus address fault) := trapped
    exact runWithin_ne_bus whole address fault ran

end Machine

end WordMachine
