import WordMachine.Proofs.Isa.Malformed
import WordMachine.Proofs.Machine.Invariant

/-! One step, said of the four bytes of a word. What they do is read off the opcode as a number, with plain
arithmetic on the other three. -/

namespace WordMachine

namespace Cpu

def held (cpu : Cpu) (b : UInt8) : Nat := (cpu.regs[b.toNat]?.getD 0).toNat

def put (cpu : Cpu) (b : UInt8) (value : Nat) : Cpu :=
  { cpu with regs := cpu.regs.setIfInBounds b.toNat (UInt8.ofNat value) }

def goOn (cpu : Cpu) (bank : Bank) : StepResult × Cpu × Bank :=
  (.ok none, { cpu with pc := cpu.pc + 4, steps := cpu.steps + 1 }, bank)

def goTo (cpu : Cpu) (target : UInt32) (bank : Bank) : StepResult × Cpu × Bank :=
  if target.toNat % 4 = 0 then (.ok none, { cpu with pc := target, steps := cpu.steps + 1 }, bank)
  else (.error (.unaligned cpu.pc target), { cpu with steps := cpu.steps + 1 }, bank)

def refuse (cpu : Cpu) (cell : Nat) (bank : Bank) : StepResult × Cpu × Bank :=
  (.error (.bus (UInt32.ofNat cell) (.outside (UInt32.ofNat cell) bank.cells.size)), cpu, bank)

end Cpu

/-- What the bytes of a word do to the processor that executes it and to the bank. -/
def Word.effect (w : Word) (cpu : Cpu) (bank : Bank) : StepResult × Cpu × Bank :=
  let target := UInt32.ofNat (65536 * w.b1.toNat + 256 * w.b2.toNat + w.b3.toNat)
  let cell := 256 * w.b2.toNat + w.b3.toNat
  let flag := cpu.held 1
  match w.b0.toNat with
  | 0x00 => (cpu.put w.b3 (cpu.held w.b1 + cpu.held w.b2)).goOn bank
  | 0x01 => (cpu.put w.b3 (w.b1.toNat + cpu.held w.b2)).goOn bank
  | 0x02 => (cpu.put w.b3 (cpu.held w.b1 + 256 - cpu.held w.b2)).goOn bank
  | 0x03 => (cpu.put w.b3 (w.b1.toNat + 256 - cpu.held w.b2)).goOn bank
  | 0x04 => (cpu.put w.b3 (cpu.held w.b1 &&& cpu.held w.b2)).goOn bank
  | 0x05 => (cpu.put w.b3 (w.b1.toNat &&& cpu.held w.b2)).goOn bank
  | 0x06 => (cpu.put w.b3 (cpu.held w.b1 ||| cpu.held w.b2)).goOn bank
  | 0x07 => (cpu.put w.b3 (w.b1.toNat ||| cpu.held w.b2)).goOn bank
  | 0x08 => (cpu.put w.b3 (cpu.held w.b1 ^^^ cpu.held w.b2)).goOn bank
  | 0x09 => (cpu.put w.b3 (w.b1.toNat ^^^ cpu.held w.b2)).goOn bank
  | 0x0A =>
    if cell < bank.cells.size then
      cpu.goOn ⟨bank.cells.setIfInBounds cell (UInt8.ofNat (cpu.held w.b1))⟩
    else cpu.refuse cell bank
  | 0x0B =>
    match bank.cells[cell]? with
    | some value => (cpu.put w.b1 value.toNat).goOn bank
    | none => cpu.refuse cell bank
  | 0x0C =>
    (cpu.put 1 (if cpu.held w.b1 = cpu.held w.b2 then 1
      else if cpu.held w.b1 < cpu.held w.b2 then 3 else 4)).goOn bank
  | 0x0D => cpu.goTo target bank
  | 0x0E => if flag = 1 then cpu.goTo target bank else cpu.goOn bank
  | 0x0F => if flag = 2 ∨ flag = 3 ∨ flag = 4 then cpu.goTo target bank else cpu.goOn bank
  | 0x10 => if flag = 3 then cpu.goTo target bank else cpu.goOn bank
  | 0x11 => if flag = 4 then cpu.goTo target bank else cpu.goOn bank
  | 0x12 => { cpu with returns := cpu.pc :: cpu.returns }.goTo target bank
  | 0xFD =>
    match cpu.returns with
    | [] => (.error (.stackUnderflow cpu.pc), cpu, bank)
    | call :: outer => { cpu with returns := outer }.goTo (call + 4) bank
  | 0xFE => (.ok (some .halted), { cpu with steps := cpu.steps + 1 }, bank)
  | _ => cpu.goOn bank

def AluOp.number : AluOp → Nat → Nat → Nat
  | .add, left, right => left + right
  | .sub, left, right => left + 256 - right
  | .and, left, right => left &&& right
  | .or, left, right => left ||| right
  | .xor, left, right => left ^^^ right

theorem AluOp.ofNat_number (f : AluOp) (left right : UInt8) :
    UInt8.ofNat (f.number left.toNat right.toNat) = f.apply left right := by
  have first := left.toNat_lt
  have second := right.toNat_lt
  rw [← UInt8.toNat_inj, UInt8.toNat_ofNat']
  cases f with
  | add => rw [number, apply, UInt8.toNat_add]
  | sub =>
    rw [number, apply, UInt8.toNat_sub]
    omega
  | and =>
    rw [number, apply, UInt8.toNat_and]
    exact Nat.mod_eq_of_lt (Nat.and_lt_two_pow _ second)
  | or =>
    rw [number, apply, UInt8.toNat_or]
    exact Nat.mod_eq_of_lt (Nat.or_lt_two_pow first second)
  | xor =>
    rw [number, apply, UInt8.toNat_xor]
    exact Nat.mod_eq_of_lt (Nat.xor_lt_two_pow first second)

namespace Cpu

theorem held_of_reg? {b : UInt8} {r : Reg} (named : reg? b = some r) (cpu : Cpu) :
    cpu.held b = (cpu.reg r).toNat := by
  have bound : b.toNat < 16 := val_of_reg? named ▸ r.isLt
  rw [held, reg, Vector.getElem?_eq_getElem bound, Option.getD_some]
  simp only [val_of_reg? named]

theorem put_of_reg? {b : UInt8} {r : Reg} (named : reg? b = some r) (cpu : Cpu) (value : Nat) :
    cpu.put b value = cpu.setReg r (UInt8.ofNat value) := by
  rw [put, setReg_eq_setIfInBounds, val_of_reg? named]

variable {i : Instr Reg UInt32} {cpu after : Cpu} {bank memory : Bank}

theorem perform_of_next (executed : execute i cpu bank = (.ok .next, after, memory)) :
    perform i cpu bank = after.goOn memory := by
  rw [perform, executed]
  rfl

theorem perform_of_jump {target : UInt32}
    (executed : execute i cpu bank = (.ok (.jump target), after, memory)) :
    perform i cpu bank = after.goTo target memory := by
  rw [perform, executed, goTo]
  by_cases aligned : Aligned target
  · rw [if_pos (show target.toNat % 4 = 0 from aligned)]
    simp only [follow, if_pos aligned]
    rfl
  · rw [if_neg (show ¬target.toNat % 4 = 0 from aligned)]
    simp only [follow, if_neg aligned]
    rfl

theorem perform_store (r : Reg) (addr : UInt32) (cpu : Cpu) (bank : Bank) :
    perform (.transfer .store r addr) cpu bank =
      if addr.toNat < bank.cells.size then
        cpu.goOn ⟨bank.cells.setIfInBounds addr.toNat (cpu.reg r)⟩
      else cpu.refuse addr.toNat bank := by
  by_cases inside : addr.toNat < bank.cells.size
  · have written : Bus.write bank addr (cpu.reg r) =
        (.ok (), ⟨bank.cells.set addr.toNat (cpu.reg r) inside⟩) := dif_pos inside
    rw [if_pos inside, Array.setIfInBounds, dif_pos inside]
    exact perform_of_next (by rw [execute, written])
  · have refused : Bus.write bank addr (cpu.reg r) =
        (.error (.outside addr bank.cells.size), bank) := dif_neg inside
    rw [if_neg inside, refuse, UInt32.ofNat_toNat, perform, execute, refused]

theorem perform_load (r : Reg) (addr : UInt32) (cpu : Cpu) (bank : Bank) :
    perform (.transfer .load r addr) cpu bank =
      match bank.cells[addr.toNat]? with
      | some value => (cpu.setReg r value).goOn bank
      | none => cpu.refuse addr.toNat bank := by
  by_cases inside : addr.toNat < bank.cells.size
  · have read : Bus.read bank addr = (.ok bank.cells[addr.toNat], bank) := dif_pos inside
    rw [Array.getElem?_eq_getElem inside]
    exact perform_of_next (by rw [execute, read])
  · have refused : Bus.read bank addr =
        (.error (.outside addr bank.cells.size), bank) := dif_neg inside
    rw [Array.getElem?_eq_none (Nat.le_of_not_lt inside)]
    simp only [refuse, UInt32.ofNat_toNat, perform, execute, refused]

theorem perform_cmp (left right : Reg) (cpu : Cpu) (bank : Bank) :
    perform (.cmp left right) cpu bank =
      (cpu.put 1 (if (cpu.reg left).toNat = (cpu.reg right).toNat then 1
        else if (cpu.reg left).toNat < (cpu.reg right).toNat then 3 else 4)).goOn bank := by
  have code : (Flag.compare (cpu.reg left) (cpu.reg right)).code =
      UInt8.ofNat (if (cpu.reg left).toNat = (cpu.reg right).toNat then 1
        else if (cpu.reg left).toNat < (cpu.reg right).toNat then 3 else 4) := by
    rw [Flag.code_compare, apply_ite UInt8.ofNat, apply_ite UInt8.ofNat]
    simp only [UInt8.toNat_inj, UInt8.lt_iff_toNat_lt]
    rfl
  have named : reg? 1 = some flagReg := rfl
  rw [put_of_reg? named, ← code]
  exact perform_of_next rfl

theorem perform_ret (cpu : Cpu) (bank : Bank) :
    perform (.bare .ret) cpu bank =
      match cpu.returns with
      | [] => (.error (.stackUnderflow cpu.pc), cpu, bank)
      | call :: outer => { cpu with returns := outer }.goTo (call + 4) bank := by
  cases opened : cpu.returns with
  | nil => simp only [perform, execute, opened]
  | cons call outer =>
    apply perform_of_jump
    simp only [execute, opened, nextWord]

theorem perform_when (condition : Condition) (target : UInt32) (cpu : Cpu) (bank : Bank) :
    perform (.jump (.when condition) target) cpu bank =
      if condition.holds cpu.flag? then cpu.goTo target bank else cpu.goOn bank := by
  by_cases holds : condition.holds cpu.flag?
  · rw [if_pos holds]
    exact perform_of_jump (by rw [execute, if_pos holds])
  · rw [if_neg holds]
    exact perform_of_next (by rw [execute, if_neg holds])

end Cpu

namespace Word

variable {w : Word}

theorem effect_alu {f : AluOp} (coded : w.b0 = (Op.alu f).opcode) (cpu : Cpu) (bank : Bank) :
    w.effect cpu bank =
      (cpu.put w.b3 (f.number (cpu.held w.b1) (cpu.held w.b2))).goOn bank := by
  rw [effect, coded]
  cases f <;> rfl

theorem effect_aluImm {f : AluOp} (coded : w.b0 = (Op.aluImm f).opcode) (cpu : Cpu) (bank : Bank) :
    w.effect cpu bank =
      (cpu.put w.b3 (f.number w.b1.toNat (cpu.held w.b2))).goOn bank := by
  rw [effect, coded]
  cases f <;> rfl

theorem effect_when {condition : Condition} (coded : w.b0 = (Op.jump (.when condition)).opcode)
    (cpu : Cpu) (bank : Bank) :
    w.effect cpu bank =
      if condition.holds cpu.flag? then cpu.goTo w.target24 bank else cpu.goOn bank := by
  -- The flag register holds a byte there and a number here.
  have flag : cpu.held 1 = (cpu.reg flagReg).toNat := Cpu.held_of_reg? rfl cpu
  rw [effect, coded, target24_eq, Cpu.flag?, Condition.holds_ofCode?, flag]
  cases condition <;> simp only [decide_eq_true_eq, ← UInt8.toNat_inj] <;> rfl

theorem effect_of_reads {op : Op} (coded : w.b0 = op.opcode) {i : Instr Reg UInt32}
    (reads : op.Reads w i) (cpu : Cpu) (bank : Bank) :
    Cpu.perform i cpu bank = w.effect cpu bank := by
  have cell : w.addr16.toNat = 256 * w.b2.toNat + w.b3.toNat := by
    rw [addr16_toNat, Nat.mul_comm]
  cases reads with
  | alu one two three =>
    rw [effect_alu coded, Cpu.held_of_reg? one, Cpu.held_of_reg? two, Cpu.put_of_reg? three,
      AluOp.ofNat_number]
    exact Cpu.perform_of_next rfl
  | aluImm two three =>
    rw [effect_aluImm coded, Cpu.held_of_reg? two, Cpu.put_of_reg? three, AluOp.ofNat_number]
    exact Cpu.perform_of_next (by rw [execute, UInt8.toUInt8_toUInt32])
  | @transfer t reg one =>
    cases t with
    | store =>
      rw [Cpu.perform_store, cell, effect, coded, Cpu.held_of_reg? one, UInt8.ofNat_toNat]
      rfl
    | load =>
      have stored : ∀ value : UInt8, cpu.setReg reg value = cpu.put w.b1 value.toNat := by
        intro value
        rw [Cpu.put_of_reg? one, UInt8.ofNat_toNat]
      simp only [Cpu.perform_load, cell, effect, coded, stored]
      rfl
  | cmp one two =>
    rw [Cpu.perform_cmp, effect, coded, Cpu.held_of_reg? one, Cpu.held_of_reg? two]
    rfl
  | @jump j =>
    cases j with
    | always | call =>
      rw [effect, coded, ← target24_eq]
      exact Cpu.perform_of_jump rfl
    | «when» condition => rw [effect_when coded, Cpu.perform_when]
  | @bare b =>
    rw [effect, coded]
    cases b with
    | ret => exact Cpu.perform_ret cpu bank
    | halt | noop => rfl

theorem effect_of_decode? {i : Instr Reg UInt32} (decoded : w.decode? = some i) (cpu : Cpu)
    (bank : Bank) : Cpu.perform i cpu bank = w.effect cpu bank := by
  rcases spare_or_reads decoded with ⟨rfl, rfl⟩ | ⟨coded, reads⟩
  · rfl
  · exact effect_of_reads coded reads cpu bank

end Word

theorem Program.fetch?_of_bytes {program : Program} {pc : UInt32} {w : Word} {rest : List UInt8}
    (aligned : pc.toNat % 4 = 0)
    (bytes : program.image.bytes.toList.drop pc.toNat = w.toList ++ rest) :
    program.fetch? pc = some w := by
  have byte : ∀ place, program.image.bytes[pc.toNat + place]? = (w.toList ++ rest)[place]? := by
    intro place
    rw [← bytes, List.getElem?_drop, Array.getElem?_toList]
  rw [fetch?, if_pos (show Aligned pc from aligned)]
  simp only [Image.word?, byte 1, byte 2, byte 3,
    show program.image.bytes[pc.toNat]? = some w.b0 from byte 0]
  rfl

/-- A step at a word boundary, as its four bytes say it. It traps for an unknown opcode exactly if they are
no instruction, and then changes nothing; otherwise outcome, processor and bank are what the bytes do to
them, and all that no row of it names stays as it was. -/
theorem step_goes_by_bytes (program : Program) (m : Machine Bank) {w : Word} {rest : List UInt8}
    (aligned : m.cpu.pc.toNat % 4 = 0)
    (bytes : program.image.bytes.toList.drop m.cpu.pc.toNat = w.toList ++ rest)
    (written : (Machine.step program m).1 ≠ .error .journalFull) :
    let after := (Machine.step program m).2
    ((Machine.step program m).1 = .error (.unknownOpcode m.cpu.pc w.b0) ↔ w.Malformed) ∧
      (w.Malformed → after.cpu = m.cpu ∧ after.bus = m.bus) ∧
      (¬w.Malformed → ((Machine.step program m).1, after.cpu, after.bus) = w.effect m.cpu m.bus) := by
  intro after
  have fetched := Program.fetch?_of_bytes aligned bytes
  rcases Machine.step_faithful program m with ⟨full, -⟩ | ⟨silent, -⟩
  · exact absurd full written
  · rw [Word.malformed_iff]
    cases decoded : w.decode? with
    | none =>
      have unknown : Cpu.step program m.cpu m.bus =
          (.error (.unknownOpcode m.cpu.pc w.b0), m.cpu, m.bus) := by
        simp only [Cpu.step, fetched, decoded]
      rw [unknown] at silent
      obtain ⟨outcome, kept⟩ := Prod.mk.inj silent
      obtain ⟨cpu, bus⟩ := Prod.mk.inj kept
      exact ⟨iff_of_true outcome.symm rfl, fun _ => ⟨cpu.symm, bus.symm⟩, fun well => absurd rfl well⟩
    | some i =>
      rw [Cpu.step_of_fetch? fetched decoded] at silent
      have known : (Machine.step program m).1 ≠ .error (.unknownOpcode m.cpu.pc w.b0) := by
        have ending := Cpu.perform_ending i m.cpu m.bus
        intro trapped
        rw [silent, trapped] at ending
        cases ending with
        | trapped known able => exact known _ _ rfl
      rw [Word.effect_of_decode? decoded] at silent
      have decodes : some i ≠ none := Option.some_ne_none i
      exact ⟨iff_of_false known decodes, fun unknown => absurd unknown decodes, fun _ => silent.symm⟩

theorem step_goes_by_bytes_subi :
    let m : Machine Bank := ⟨(Cpu.start none {}).setReg 1 7, .blank 0, .fresh none⟩
    let stepped := Machine.step (.ofWords [⟨0x03, 5, 1, 1⟩]) m
    stepped.1 = .ok none ∧
      stepped.2.cpu = { (Cpu.start none {}).setReg 1 254 with pc := 4, steps := 1 } ∧
      stepped.2.bus = .blank 0 := by
  intro m stepped
  have bytes : (Program.ofWords [⟨0x03, 5, 1, 1⟩]).image.bytes.toList.drop m.cpu.pc.toNat =
      Word.toList ⟨0x03, 5, 1, 1⟩ ++ [] := by decide
  obtain ⟨-, -, effect⟩ := step_goes_by_bytes (.ofWords [⟨0x03, 5, 1, 1⟩]) m (by decide) bytes
    (by decide)
  have done : Word.effect ⟨0x03, 5, 1, 1⟩ m.cpu m.bus = (.ok none,
      { (Cpu.start none {}).setReg 1 254 with pc := 4, steps := 1 }, .blank 0) := by decide
  obtain ⟨outcome, kept⟩ := Prod.mk.inj ((effect (by decide)).trans done)
  exact ⟨outcome, Prod.mk.inj kept⟩

end WordMachine
