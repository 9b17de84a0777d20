import Mathlib.Logic.Equiv.Basic
import WordMachine.Proofs.Isa.Decoding
import WordMachine.Proofs.Machine.Fetch
import WordMachine.Proofs.Machine.Guise

/-! Names of registers. A machine makes no difference between its registers, but for the one that
receives the outcome of a comparison: under any other numbering that leaves this one its number, the
image with its registers renumbered does what the image did. -/

namespace WordMachine

variable (π : Equiv.Perm Reg)

def renameByte (b : UInt8) : UInt8 := ((reg? b).map fun r => Instr.regByte (π r)).getD b

/-- The word with the bytes renamed that the operation takes for registers. -/
def Op.rename (w : Word) : Op → Word
  | .alu _ => ⟨w.b0, renameByte π w.b1, renameByte π w.b2, renameByte π w.b3⟩
  | .aluImm _ => ⟨w.b0, w.b1, renameByte π w.b2, renameByte π w.b3⟩
  | .transfer _ => ⟨w.b0, renameByte π w.b1, w.b2, w.b3⟩
  | .cmp => ⟨w.b0, renameByte π w.b1, renameByte π w.b2, w.b3⟩
  | .jump _ => w
  | .bare _ => w

/-- The word with its registers renamed; a word that is no instruction stays. -/
def Word.renamed (w : Word) : Word :=
  match w.decode? with
  | some i => i.op.rename π w
  | none => w

def Program.renamed (program : Program) : Program :=
  .ofWords (program.contents.map (Word.renamed π))

/-- What register `r` holds is in register `π r`. -/
@[irreducible] def Registers.renamed (regs : Registers) : Registers := .ofFn fun r => regs[(π.symm r).val]

def Cpu.renamed (cpu : Cpu) : Cpu := { cpu with regs := cpu.regs.renamed π }

def Event.renamed : Event → Event
  | .fetch pc w => .fetch pc (w.renamed π)
  | .registers regs => .registers (regs.renamed π)
  | .memory cells => .memory cells

def Guise.renamed : Guise where
  cpu := Cpu.renamed π
  event := Event.renamed π
  dump_cpu _ := rfl
  move _ _ := rfl
  count _ := rfl
  registers _ := rfl
  memory _ := rfl

section Words

theorem reg?_renameByte {b : UInt8} {r : Reg} (named : reg? b = some r) :
    reg? (renameByte π b) = some (π r) := by
  rw [renameByte, named]
  apply reg?_regByte

theorem Op.b0_rename (op : Op) (w : Word) : (op.rename π w).b0 = w.b0 := by
  cases op <;> rfl

theorem Op.Reads.rename {op : Op} {w : Word} {i : Instr Reg UInt32} (reads : op.Reads w i) :
    op.Reads (op.rename π w) (i.mapReg π) := by
  cases reads with
  | alu one two three =>
    exact .alu (reg?_renameByte π one) (reg?_renameByte π two) (reg?_renameByte π three)
  | aluImm two three => exact .aluImm (reg?_renameByte π two) (reg?_renameByte π three)
  | transfer one => exact .transfer (reg?_renameByte π one)
  | cmp one two => exact .cmp (reg?_renameByte π one) (reg?_renameByte π two)
  | jump => exact .jump
  | bare repeated => exact .bare repeated

theorem Word.decode?_renamed (w : Word) : (w.renamed π).decode? = w.decode?.map (Instr.mapReg π) := by
  unfold Word.renamed
  cases decoded : w.decode? with
  | none => exact decoded
  | some i =>
    rcases Word.spare_or_reads decoded with ⟨-, rfl⟩ | ⟨coded, reads⟩
    · exact decoded
    · apply Word.decode?_of_reads _ (reads.rename π)
      rw [Op.b0_rename, coded]

theorem Word.renamed_of_decode?_none {w : Word} (unknown : w.decode? = none) : w.renamed π = w := by
  rw [Word.renamed, unknown]

theorem Program.fetch?_renamed (program : Program) (pc : UInt32) :
    (program.renamed π).fetch? pc = (program.fetch? pc).map (Word.renamed π) := by
  by_cases aligned : Aligned pc
  · have here := aligned.eq_four_mul
    calc (program.renamed π).fetch? pc
      _ = (program.contents.map (Word.renamed π))[pc.toNat / 4]? := fetch?_ofWords _ here
      _ = (program.contents[pc.toNat / 4]?).map (Word.renamed π) := List.getElem?_map
      _ = ((ofWords program.contents).fetch? pc).map (Word.renamed π) := by rw [fetch?_ofWords _ here]
      _ = (program.fetch? pc).map (Word.renamed π) := by rw [ofWords_contents]
  · rw [fetch?_of_not_aligned _ aligned, fetch?_of_not_aligned _ aligned]
    rfl

end Words

namespace Cpu

theorem reg_renamed (cpu : Cpu) (r : Reg) : (cpu.renamed π).reg (π r) = cpu.reg r := by
  simp [reg, renamed, Registers.renamed]

theorem setReg_renamed (cpu : Cpu) (r : Reg) (value : UInt8) :
    (cpu.renamed π).setReg (π r) value = (cpu.setReg r value).renamed π := by
  have regs : (cpu.regs.renamed π).set (π r).val value =
      Registers.renamed π (cpu.regs.set r.val value) := by
    ext place inside
    have apart : (π r).val = place ↔ r.val = (π.symm ⟨place, inside⟩).val := by
      rw [← Fin.ext_iff, π.eq_symm_apply, Fin.ext_iff]
    simp only [Registers.renamed, Vector.getElem_set, Vector.getElem_ofFn, apart]
  exact congrArg (fun regs => { cpu with regs := regs }) regs

variable {β : Type} [Bus β] {π} (fixed : π flagReg = flagReg)

include fixed

theorem flag?_renamed (cpu : Cpu) : (cpu.renamed π).flag? = cpu.flag? := by
  have held := cpu.reg_renamed π flagReg
  rw [fixed] at held
  rw [flag?, flag?, held]

theorem execute_renamed (i : Instr Reg UInt32) (cpu : Cpu) (bus : β) :
    execute (i.mapReg π) (cpu.renamed π) bus =
      (execute i cpu bus).map id (.map (renamed π) id) := by
  cases i with
  | alu f left right dst =>
    rw [Instr.mapReg, execute, reg_renamed, reg_renamed, setReg_renamed]
    rfl
  | aluImm f imm src dst =>
    rw [Instr.mapReg, execute, reg_renamed, setReg_renamed]
    rfl
  | transfer t reg addr =>
    cases t with
    | store =>
      rw [Instr.mapReg, execute, execute, reg_renamed]
      obtain ⟨fault | done, memory⟩ := Bus.write bus addr (cpu.reg reg) <;> rfl
    | load =>
      rw [Instr.mapReg, execute, execute]
      obtain ⟨fault | value, memory⟩ := Bus.read bus addr
      · rfl
      · dsimp only
        rw [setReg_renamed]
        rfl
  | cmp left right =>
    -- The outcome goes to the one register that keeps its number.
    have noted := fun value => cpu.setReg_renamed π flagReg value
    rw [fixed] at noted
    rw [Instr.mapReg, execute, reg_renamed, reg_renamed, noted]
    rfl
  | jump j target =>
    cases j with
    | always | call => rfl
    | when condition =>
      rw [Instr.mapReg, execute, flag?_renamed fixed]
      rfl
  | bare b =>
    cases b with
    | ret =>
      obtain ⟨pc, regs, returns, steps, limit, dump⟩ := cpu
      cases returns <;> rfl
    | halt | noop => rfl

end Cpu

namespace Machine

variable {β : Type}

def renamed (m : Machine β) : Machine β := m.under (.renamed π)

variable [Bus β] {π} (fixed : π flagReg = flagReg) (program : Program)

include fixed

theorem step_renamed (m : Machine β) :
    step (program.renamed π) (m.renamed π) = (step program m).map id (renamed π) := by
  have here : (m.renamed π).cpu.pc = m.cpu.pc := rfl
  have asked : (m.renamed π).cpu.dump = m.cpu.dump := rfl
  rw [step, step, here, asked, Program.fetch?_renamed]
  cases program.fetch? m.cpu.pc with
  | none => rfl
  | some w =>
    have written : (m.renamed π).journal.note? m.cpu.dump.trace (.fetch m.cpu.pc (w.renamed π)) =
        (m.journal.note? m.cpu.dump.trace (.fetch m.cpu.pc w)).map (Journal.map (Event.renamed π)) :=
      Journal.note?_map (Event.renamed π) m.journal _ (.fetch m.cpu.pc w)
    dsimp only [Option.map_some]
    rw [written, Word.decode?_renamed]
    cases m.journal.note? m.cpu.dump.trace (.fetch m.cpu.pc w) with
    | none => rfl
    | some journal =>
      cases decoded : w.decode? with
      | none =>
        rw [Word.renamed_of_decode?_none π decoded]
        rfl
      | some i => exact perform_under (.renamed π) { m with journal } (Cpu.execute_renamed fixed i _ _)

theorem calls_renamed (n : Nat) (m : Machine β) :
    (m.renamed π).calls (program.renamed π) n = (m.calls program n).map id (renamed π) := by
  induction n generalizing m with
  | zero => rfl
  | succ n ih =>
    rw [calls, calls, step_renamed fixed]
    simp only [Prod.map_fst, Prod.map_snd, ih]
    rfl

end Machine

/-- Under other names for the registers that leave the flag register its own, steps end as they did:
in the same exits and in the same traps, at the same place, with the same calls open, as many words
counted and the same memory. Each register's content is under its new name, and what is reported is
what was reported under the new names. -/
theorem renamed_steps_alike {β : Type} [Bus β] {π : Equiv.Perm Reg} (fixed : π flagReg = flagReg)
    (program : Program) (m : Machine β) (n : Nat) :
    let before := m.calls program n
    let after := (m.renamed π).calls (program.renamed π) n
    after.1 = before.1 ∧ after.2.cpu.pc = before.2.cpu.pc ∧
      after.2.cpu.returns = before.2.cpu.returns ∧ after.2.cpu.steps = before.2.cpu.steps ∧
      after.2.bus = before.2.bus ∧ (∀ r, after.2.cpu.reg (π r) = before.2.cpu.reg r) ∧
      after.2.journal = before.2.journal.map (Event.renamed π) := by
  dsimp only
  rw [Machine.calls_renamed fixed program n m]
  obtain ⟨outcomes, last⟩ := m.calls program n
  exact ⟨rfl, rfl, rfl, rfl, Machine.bus_under (.renamed π) last, Cpu.reg_renamed π last.cpu, rfl⟩

theorem renamed_steps_alike_swap : ∃ (π : Equiv.Perm Reg) (program other : Program) (m : Machine Bank),
    π flagReg = flagReg ∧ π 0 = 5 ∧ program = .ofWords [⟨0x01, 7, 0, 0⟩, ⟨0x0C, 0, 1, 0⟩] ∧
      m = ⟨.start none {}, ⟨#[]⟩, .fresh none⟩ ∧ program.renamed π = other ∧
      other = .ofWords [⟨0x01, 7, 5, 5⟩, ⟨0x0C, 5, 1, 0⟩] ∧
      ((m.renamed π).calls other 2).1 = [.ok none, .ok none] ∧
      ((m.renamed π).calls other 2).2.cpu.reg 5 = 7 ∧
      ((m.renamed π).calls other 2).2.cpu.reg flagReg = 4 := by
  have fixed : Equiv.swap (0 : Reg) 5 flagReg = flagReg := by decide
  have zero : Equiv.swap (0 : Reg) 5 0 = 5 := by decide
  have image : Program.renamed (Equiv.swap 0 5) (.ofWords [⟨0x01, 7, 0, 0⟩, ⟨0x0C, 0, 1, 0⟩]) =
      .ofWords [⟨0x01, 7, 5, 5⟩, ⟨0x0C, 5, 1, 0⟩] := by
    rw [Program.renamed, Program.contents_ofWords]
    exact congrArg Program.ofWords (by decide)
  obtain ⟨outcomes, -, -, -, -, moved, -⟩ :=
    renamed_steps_alike fixed (.ofWords [⟨0x01, 7, 0, 0⟩, ⟨0x0C, 0, 1, 0⟩])
      (⟨.start none {}, ⟨#[]⟩, .fresh none⟩ : Machine Bank) 2
  have first := moved 0
  have flag := moved flagReg
  rw [zero] at first
  rw [fixed] at flag
  exact ⟨_, _, _, _, fixed, zero, rfl, rfl, rfl, image, outcomes, first, flag⟩

end WordMachine
