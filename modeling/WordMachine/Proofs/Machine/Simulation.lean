import WordMachine.Proofs.Isa.Codec
import WordMachine.Proofs.Machine.Fetch
import WordMachine.Proofs.Machine.LineMachine
import WordMachine.Proofs.Source.Operand
import WordMachine.Proofs.Source.Passes
import WordMachine.Proofs.Source.Statement
import WordMachine.Proofs.Text.Words

/-! The image of a source does what its lines say. The processor at four times a line does in one step
what the line machine does at that line, so the two stay together for as long as both go on. -/

namespace WordMachine

open Text Operand

theorem ofNat_div_line {t : UInt32} (aligned : Aligned t) : UInt32.ofNat (4 * (t.toNat / 4)) = t := by
  rw [← aligned.eq_four_mul, UInt32.ofNat_toNat]

namespace LineMachine

def cpu (s : LineMachine) (stepLimit : Option Nat) (dump : Dump) : Cpu where
  pc := s.address
  regs := s.regs
  returns := s.returns.map fun line => UInt32.ofNat (4 * line)
  steps := s.steps
  stepLimit := stepLimit
  dump := dump

theorem reg_cpu (s : LineMachine) (stepLimit : Option Nat) (dump : Dump) (r : Reg) :
    (s.cpu stepLimit dump).reg r = s.reg r := rfl

def bank (s : LineMachine) : Bank := ⟨s.cells⟩

/-- Every line that the machine is at or comes back to has an address of its own. -/
structure Low (s : LineMachine) : Prop where
  line : s.line ≤ lineSpace
  returns : ∀ line ∈ s.returns, line < lineSpace

def Agrees (stepLimit : Option Nat) (dump : Dump) (mine : Option (StepResult × LineMachine))
    (theirs : StepResult × Cpu × Bank) : Prop :=
  ∃ result s, mine = some (result, s) ∧ theirs = (result, s.cpu stepLimit dump, s.bank) ∧ s.Low

theorem obey_of_idle {texts : List (List Char)} {s : LineMachine} {text : List Char}
    (idle : ∀ tokens, Line.ofStripped text ≠ .statement tokens) : s.obey texts text = some s.goOn := by
  unfold Line.ofStripped at idle
  split at idle
  · rfl
  · rfl
  · exact absurd rfl (idle _)

theorem obey_of_statement {texts : List (List Char)} {s : LineMachine} {text name : List Char}
    {operands : List (List Char)} (line : Line.ofStripped text = .statement (name :: operands)) :
    s.obey texts text = s.instruct texts (String.ofList (lowerCase name)) operands := by
  have spelled := Line.words_of_ofStripped line
  unfold Line.ofStripped at line
  split at line
  · cases line
  · cases line
  · next filled undotted =>
    rw [obey.eq_def]
    split
    · exact absurd rfl filled
    · next rest => exact absurd rfl (undotted rest)
    · rw [spelled]

section Steps

variable {stepLimit : Option Nat} {dump : Dump} {s : LineMachine}

theorem agrees_goTo (low : s.Low) {line : Nat} (inside : line ≤ lineSpace) :
    Agrees stepLimit dump (some (s.goTo line)) (.ok none,
      { s.cpu stepLimit dump with pc := UInt32.ofNat (4 * line), steps := s.steps + 1 }, s.bank) :=
  ⟨_, _, rfl, rfl, inside, low.returns⟩

theorem agrees_goOn (low : s.Low) (inside : s.line < lineSpace) :
    Agrees stepLimit dump (some s.goOn) (.ok none,
      { s.cpu stepLimit dump with pc := nextWord s.address, steps := s.steps + 1 }, s.bank) := by
  rw [address, ← ofNat_succ_line]
  exact agrees_goTo low inside

theorem agrees_assign (low : s.Low) (inside : s.line < lineSpace) (r : Reg) (value : UInt8) :
    Agrees stepLimit dump (some (s.assign r value)) (.ok none,
      { (s.cpu stepLimit dump).setReg r value with
        pc := nextWord s.address, steps := s.steps + 1 }, s.bank) := by
  rw [Cpu.setReg_eq_setIfInBounds]
  exact agrees_goOn (s := { s with regs := s.regs.setIfInBounds r.val value })
    ⟨low.line, low.returns⟩ inside

theorem agrees_store (low : s.Low) (inside : s.line < lineSpace) (addr : UInt32) (reg : Reg) :
    Agrees stepLimit dump (some (s.store addr (s.reg reg)))
      (Cpu.perform (.transfer .store reg addr) (s.cpu stepLimit dump) s.bank) := by
  unfold store
  by_cases found : addr.toNat < s.cells.size
  · rw [dif_pos found]
    have written : Bus.write s.bank addr (s.reg reg) =
        (.ok (), ⟨s.cells.set addr.toNat (s.reg reg) found⟩) := dif_pos found
    have done : Cpu.perform (.transfer .store reg addr) (s.cpu stepLimit dump) s.bank = (.ok none,
        { s.cpu stepLimit dump with pc := nextWord s.address, steps := s.steps + 1 },
        ⟨s.cells.set addr.toNat (s.reg reg) found⟩) := by
      rw [Cpu.perform, execute, reg_cpu, written]
      rfl
    rw [done]
    exact agrees_goOn (s := { s with cells := s.cells.set addr.toNat (s.reg reg) found })
      ⟨low.line, low.returns⟩ inside
  · rw [dif_neg found]
    have refused : Bus.write s.bank addr (s.reg reg) =
        (.error (.outside addr s.cells.size), s.bank) := dif_neg found
    refine ⟨_, s, rfl, ?_, low⟩
    rw [Cpu.perform, execute, reg_cpu, refused]

theorem agrees_load (low : s.Low) (inside : s.line < lineSpace) (addr : UInt32) (reg : Reg) :
    Agrees stepLimit dump (some (s.load addr reg))
      (Cpu.perform (.transfer .load reg addr) (s.cpu stepLimit dump) s.bank) := by
  unfold load
  by_cases found : addr.toNat < s.cells.size
  · rw [dif_pos found]
    have read : Bus.read s.bank addr = (.ok s.cells[addr.toNat], s.bank) := dif_pos found
    have done : Cpu.perform (.transfer .load reg addr) (s.cpu stepLimit dump) s.bank = (.ok none,
        { (s.cpu stepLimit dump).setReg reg s.cells[addr.toNat] with
          pc := nextWord s.address, steps := s.steps + 1 }, s.bank) := by
      rw [Cpu.perform, execute, read]
      rfl
    rw [done]
    exact agrees_assign low inside reg s.cells[addr.toNat]
  · rw [dif_neg found]
    have refused : Bus.read s.bank addr = (.error (.outside addr s.cells.size), s.bank) :=
      dif_neg found
    refine ⟨_, s, rfl, ?_, low⟩
    rw [Cpu.perform, execute, refused]

end Steps

section Jumps

variable {stepLimit : Option Nat} {dump : Dump} {texts : List (List Char)} {symbols : Symbols}
  (known : ∀ name, symbols.offset? name =
    (declaringLine? texts name).map fun line => UInt32.ofNat (4 * line))
  (short : texts.length ≤ lineSpace)

theorem declaringLine?_lt {name : List Char} {line : Nat}
    (found : declaringLine? texts name = some line) : line < texts.length :=
  (List.findIdx?_eq_some_iff_getElem.1 found).1

theorem placeOf?_lt {name : List Char} {line : Nat} (found : placeOf? texts name = some line) :
    line < texts.length := by
  rcases Option.or_eq_some_iff.1 found with exact' | ⟨-, behind⟩
  · exact declaringLine?_lt exact'
  · obtain ⟨rest, -, inner⟩ := Option.bind_eq_some_iff.1 behind
    exact declaringLine?_lt inner

include known in
theorem resolve?_eq (name : List Char) :
    symbols.resolve? name = (placeOf? texts name).map fun line => UInt32.ofNat (4 * line) := by
  rw [Symbols.resolve?, placeOf?, Option.map_or, known]
  congr 1
  cases afterDot? name with
  | none => rfl
  | some rest => exact known rest

include known in
theorem resolve_label_ok {j : Jump} {name : List Char} {i : Instr Reg UInt32}
    (resolved : (Instr.jump j (.label name)).resolve symbols = .ok i) :
    ∃ line, placeOf? texts name = some line ∧ i = .jump j (UInt32.ofNat (4 * line)) := by
  rw [Instr.resolve, resolve?_eq known] at resolved
  cases found : placeOf? texts name with
  | none => simp [found] at resolved
  | some line =>
    rw [found] at resolved
    exact ⟨line, rfl, (Except.ok.inj resolved).symm⟩

include known short in
theorem agrees_jump {s : LineMachine} (low : s.Low) {j : Jump} {token : List Char} {goal : Target}
    {t : UInt32} (read : target? token = some goal)
    (resolved : (Instr.jump j goal).resolve symbols = .ok (.jump j t)) :
    Agrees stepLimit dump (s.jump texts token)
      (((s.cpu stepLimit dump).count.follow (.jump t)).1,
        ((s.cpu stepLimit dump).count.follow (.jump t)).2, s.bank) := by
  cases goal with
  | literal address =>
    obtain ⟨-, rfl⟩ := Instr.jump.inj (Except.ok.inj resolved)
    have small : address.toNat ≤ maxTarget := (target?_eq_literal_iff.1 read).2
    by_cases aligned : Aligned address
    · have inside : address.toNat / 4 ≤ lineSpace := by
        unfold lineSpace
        unfold maxTarget at small
        omega
      have mine : s.jump texts token = some (s.goTo (address.toNat / 4)) := by
        rw [jump, read]
        exact if_pos aligned
      have there : Agrees stepLimit dump _ _ := agrees_goTo low inside
      rw [ofNat_div_line aligned] at there
      rw [mine, Cpu.follow, if_pos aligned]
      exact there
    · have mine : s.jump texts token =
          some (.error (.unaligned s.address address), { s with steps := s.steps + 1 }) := by
        rw [jump, read]
        exact if_neg aligned
      rw [mine, Cpu.follow, if_neg aligned]
      exact ⟨_, _, rfl, rfl, low.line, low.returns⟩
  | label name =>
    obtain ⟨line, found, same⟩ := resolve_label_ok known resolved
    obtain ⟨-, rfl⟩ := Instr.jump.inj same
    have mine : s.jump texts token = some (s.goTo line) := by
      simp only [jump, read, found, Option.map_some]
    rw [mine, Cpu.follow, if_pos (aligned_ofNat_line line)]
    apply agrees_goTo low
    exact Nat.le_trans (Nat.le_of_lt (placeOf?_lt found)) short

theorem exists_of_resolve_jump {j : Jump} {goal : Target} {i : Instr Reg UInt32}
    (resolved : (Instr.jump j goal).resolve symbols = .ok i) : ∃ t, i = .jump j t := by
  cases goal with
  | literal address => exact ⟨address, (Except.ok.inj resolved).symm⟩
  | label name =>
    rw [Instr.resolve] at resolved
    split at resolved
    · exact ⟨_, (Except.ok.inj resolved).symm⟩
    · cases resolved

include known short in
theorem agrees_when {s : LineMachine} (low : s.Low) (inside : s.line < lineSpace)
    {condition : Condition} {token : List Char} {goal : Target} {t : UInt32}
    (read : target? token = some goal)
    (resolved : (Instr.jump (.when condition) goal).resolve symbols =
      .ok (.jump (.when condition) t)) :
    Agrees stepLimit dump (s.instruct texts (Op.jump (.when condition)).mnemonic [token])
      (Cpu.perform (.jump (.when condition) t) (s.cpu stepLimit dump) s.bank) := by
  have flag : (s.cpu stepLimit dump).flag? = Flag.ofCode? (s.reg flagReg) := rfl
  rw [instruct_when, jumpIf, Cpu.perform, execute, flag]
  cases condition.holds (Flag.ofCode? (s.reg flagReg)) with
  | true => exact agrees_jump known short low read resolved
  | false => exact agrees_goOn low inside

theorem agrees_ret {s : LineMachine} (low : s.Low) :
    Agrees stepLimit dump (s.instruct texts (Op.bare .ret).mnemonic [])
      (Cpu.perform (.bare .ret) (s.cpu stepLimit dump) s.bank) := by
  obtain ⟨line, regs, returns, steps, cells⟩ := s
  cases returns with
  | nil => exact ⟨_, _, rfl, rfl, low⟩
  | cons call outer =>
    have back : (call + 1) ≤ lineSpace := low.returns call List.mem_cons_self
    have inner : Low ⟨line, regs, outer, steps, cells⟩ :=
      ⟨low.line, fun other member => low.returns other (List.mem_cons_of_mem call member)⟩
    have there : Agrees stepLimit dump _ _ := agrees_goTo inner back
    rw [ofNat_succ_line] at there
    rw [Cpu.perform]
    change Agrees _ _ _ ((Cpu.follow _ (.jump (nextWord (UInt32.ofNat (4 * call))))).1,
      (Cpu.follow _ (.jump (nextWord (UInt32.ofNat (4 * call))))).2, _)
    rw [Cpu.follow, if_pos (ofNat_succ_line call ▸ aligned_ofNat_line (call + 1))]
    exact there

include known short in
theorem agrees_instruct {s : LineMachine} (low : s.Low) (inside : s.line < lineSpace)
    {written : Instr Reg Target} {operands : List (List Char)} {i : Instr Reg UInt32}
    (spells : Spells written operands) (resolved : written.resolve symbols = .ok i) :
    Agrees stepLimit dump (s.instruct texts written.op.mnemonic operands)
      (Cpu.perform i (s.cpu stepLimit dump) s.bank) := by
  cases spells with
  | @alu f first second third left right dst one two three =>
    obtain rfl := Except.ok.inj resolved
    rw [Instr.op, instruct_alu f one two three]
    exact agrees_assign low inside dst _
  | @aluImm f first second third imm src dst one two three =>
    obtain rfl := Except.ok.inj resolved
    rw [Instr.op, instruct_aluImm f one two three]
    exact agrees_assign low inside dst _
  | @transfer t first second reg addr one two =>
    obtain rfl := Except.ok.inj resolved
    cases t with
    | store =>
      rw [Instr.op, instruct_store one two]
      exact agrees_store low inside addr reg
    | load =>
      rw [Instr.op, instruct_load one two]
      exact agrees_load low inside addr reg
  | @cmp first second left right one two =>
    obtain rfl := Except.ok.inj resolved
    rw [Instr.op, instruct_cmp one two]
    exact agrees_assign low inside flagReg _
  | @jump j token goal one =>
    obtain ⟨t, rfl⟩ := exists_of_resolve_jump resolved
    cases j with
    | always => exact agrees_jump known short low one resolved
    | when condition => exact agrees_when known short low inside one resolved
    | call =>
      have pushed : Low { s with returns := s.line :: s.returns } :=
        ⟨low.line, List.forall_mem_cons.2 ⟨inside, low.returns⟩⟩
      exact agrees_jump known short pushed one resolved
  | @bare b =>
    obtain rfl := Except.ok.inj resolved
    cases b with
    | ret => exact agrees_ret low
    | halt => exact ⟨_, _, rfl, rfl, low.line, low.returns⟩
    | noop => exact agrees_goOn low inside

include known short in
theorem fits_of_resolve {written : Instr Reg Target} {operands : List (List Char)}
    {i : Instr Reg UInt32} (spells : Spells written operands)
    (resolved : written.resolve symbols = .ok i) : i.Fits := by
  cases spells with
  | aluImm one two three =>
    obtain rfl := Except.ok.inj resolved
    exact Nat.lt_succ_of_le (immediate?_eq_some_iff.1 one).2
  | transfer one two =>
    obtain rfl := Except.ok.inj resolved
    exact Nat.lt_succ_of_le (address?_eq_some_iff.1 two).1
  | @jump j token goal one =>
    cases goal with
    | literal address =>
      obtain rfl := Except.ok.inj resolved
      exact Nat.lt_succ_of_le (target?_eq_literal_iff.1 one).2
    | label name =>
      obtain ⟨line, found, rfl⟩ := resolve_label_ok known resolved
      have below := Nat.lt_of_lt_of_le (placeOf?_lt found) short
      change (UInt32.ofNat (4 * line)).toNat < _
      rw [toNat_ofNat_line (Nat.le_of_lt below)]
      unfold lineSpace at below
      omega
  | alu | cmp | bare =>
    obtain rfl := Except.ok.inj resolved
    trivial

include known short in
theorem agrees_obey {s : LineMachine} (low : s.Low) (inside : s.line < lineSpace) {text : List Char}
    {w : Word} (encoded : (Line.ofStripped text).word symbols = .ok w) :
    ∃ i, w.decode? = some i ∧ Agrees stepLimit dump (s.obey texts text)
      (Cpu.perform i (s.cpu stepLimit dump) s.bank) := by
  rcases Line.word_cases encoded with
    ⟨idle, rfl⟩ | ⟨name, operands, written, i, line, named, spells, resolved, rfl⟩
  · rw [obey_of_idle idle]
    exact ⟨_, Word.decode?_padding, agrees_goOn low inside⟩
  · refine ⟨i, Instr.decode?_encode_of_fits (fits_of_resolve known short spells resolved), ?_⟩
    rw [obey_of_statement line, ← named, String.ofList_toList]
    exact agrees_instruct known short low inside spells resolved

end Jumps

section Image

variable {stepLimit : Option Nat} {dump : Dump} {raws : List (List Char)} {assembly : Assembly}

theorem declaringLine?_eq (texts : List (List Char)) (name : List Char) :
    declaringLine? texts name = Symbols.lineOf? (texts.map Line.ofStripped) name := by
  rw [declaringLine?, Symbols.lineOf?, List.findIdx?_map]
  congr 1
  funext text
  have same : declaredName? text = some name ↔ Line.ofStripped text = .label name := by
    rw [Line.ofStripped_eq_label_iff]
    unfold declaredName?
    split
    · next rest => simp
    · next undotted =>
      simp only [reduceCtorEq, false_iff]
      intro declares
      obtain ⟨rest, dotted, -⟩ := declares
      exact undotted rest dotted
  rw [Bool.eq_iff_iff, beq_iff_eq, same, Function.comp_apply, decide_eq_true_eq]

theorem offset?_of_assembled {texts : List (List Char)}
    (assembled : assembleLines (texts.map Line.ofStripped) = .ok assembly) (name : List Char) :
    assembly.symbols.offset? name =
      (declaringLine? texts name).map fun line => UInt32.ofNat (4 * line) := by
  rw [(assembleLines_ok assembled).2, declaringLine?_eq]
  exact congrArg₂ Option.map (funext slot_eq) rfl

/-- A step of the processor on an assembled image is a step on the lines of the source. -/
theorem agrees_step (assembled : assembleLines ((raws.map strip).map Line.ofStripped) = .ok assembly)
    (short : raws.length ≤ lineSpace) {s : LineMachine} (low : s.Low) :
    Agrees stepLimit dump (s.step? (raws.map strip))
      (Cpu.step (.ofWords assembly.words) (s.cpu stepLimit dump) s.bank) := by
  have known := offset?_of_assembled assembled
  have few : (raws.map strip).length ≤ lineSpace := (List.length_map strip).symm ▸ short
  have word := getElem?_word assembled s.line
  simp only [List.getElem?_map] at word
  have fetched : (Program.ofWords assembly.words).fetch? (s.cpu stepLimit dump).pc =
      assembly.words[s.line]? := Program.fetch?_ofWords assembly.words (toNat_ofNat_line low.line)
  rw [step?, List.getElem?_map]
  cases here : raws[s.line]? with
  | none =>
    rw [here] at word
    rw [Option.map_eq_none_iff.1 word.symm] at fetched
    exact ⟨_, s, rfl, Cpu.step_of_fetch?_none fetched s.bank, low⟩
  | some raw =>
    rw [here] at word
    obtain ⟨w, found, encoded⟩ := Option.map_eq_some_iff.1 word.symm
    have inside : s.line < lineSpace :=
      Nat.lt_of_lt_of_le (List.getElem?_eq_some_iff.1 here).1 short
    obtain ⟨i, decoded, agrees⟩ := agrees_obey known few low inside encoded.symm
    rw [Cpu.step_of_fetch? (fetched.trans found) decoded]
    exact agrees

/-- A machine that can write without a limit stands where the line machine does. -/
structure Hosts (stepLimit : Option Nat) (dump : Dump) (s : LineMachine) (m : Machine Bank) :
    Prop where
  cpu : m.cpu = s.cpu stepLimit dump
  bus : m.bus = s.bank
  low : s.Low
  boundless : m.journal.room = none

theorem hosts_start (stepLimit : Option Nat) (dump : Dump) (bank : Bank) (events : List Event) :
    Hosts stepLimit dump (start bank.cells) ⟨.start stepLimit dump, bank, ⟨events, none⟩⟩ where
  cpu := rfl
  bus := rfl
  low := ⟨Nat.zero_le _, by simp [start]⟩
  boundless := rfl

theorem Hosts.step (assembled : assembleLines ((raws.map strip).map Line.ofStripped) = .ok assembly)
    (short : raws.length ≤ lineSpace) {s : LineMachine} {m : Machine Bank}
    (hosts : Hosts stepLimit dump s m) : ∃ result next after,
      s.step? (raws.map strip) = some (result, next) ∧
      m.step (.ofWords assembly.words) = (result, after) ∧ Hosts stepLimit dump next after := by
  obtain ⟨result, next, mine, theirs, stays⟩ : Agrees stepLimit dump _ _ :=
    agrees_step assembled short hosts.low
  obtain ⟨silent, free⟩ := Machine.step_of_boundless (.ofWords assembly.words) hosts.boundless
  rw [hosts.cpu, hosts.bus, theirs] at silent
  simp only [Prod.mk.injEq] at silent
  obtain ⟨same, cpu, bus⟩ := silent
  exact ⟨result, next, _, mine, Prod.ext same.symm rfl, cpu.symm, bus.symm, stays, free⟩

theorem agrees_calls (assembled : assembleLines ((raws.map strip).map Line.ofStripped) = .ok assembly)
    (short : raws.length ≤ lineSpace) (n : Nat) {s : LineMachine} {m : Machine Bank} (low : s.Low)
    (boundless : m.journal.room = none) (cpu : m.cpu = s.cpu stepLimit dump) (bus : m.bus = s.bank) :
    ∃ last, s.calls? (raws.map strip) n = some ((m.calls (.ofWords assembly.words) n).1, last) ∧
      (m.calls (.ofWords assembly.words) n).2.cpu = last.cpu stepLimit dump ∧
      (m.calls (.ofWords assembly.words) n).2.bus = last.bank ∧ last.Low := by
  induction n generalizing s m with
  | zero => exact ⟨s, rfl, cpu, bus, low⟩
  | succ n ih =>
    obtain ⟨result, next, after, mine, theirs, stays⟩ :=
      Hosts.step assembled short ⟨cpu, bus, low, boundless⟩
    obtain ⟨last, rest, placed⟩ := ih stays.low stays.boundless stays.cpu stays.bus
    rw [Machine.calls, theirs]
    refine ⟨last, ?_, placed⟩
    rw [calls?, mine]
    simp only [Option.bind_eq_bind, Option.bind_some, rest]
    rfl

end Image

/-- Processor and memory stand where the line machine does, line `i` at address `4 * i`. -/
structure Mirrors (s : LineMachine) (m : Machine Bank) : Prop where
  pc : m.cpu.pc.toNat = 4 * s.line
  regs : m.cpu.regs = s.regs
  returns : m.cpu.returns.map UInt32.toNat = s.returns.map (4 * ·)
  steps : m.cpu.steps = s.steps
  cells : m.bus.cells = s.cells

theorem mirrors_of_low {s : LineMachine} (low : s.Low) {m : Machine Bank} {stepLimit : Option Nat}
    {dump : Dump} (cpu : m.cpu = s.cpu stepLimit dump) (bus : m.bus = s.bank) : s.Mirrors m where
  pc := by
    rw [cpu]
    exact toNat_ofNat_line low.line
  regs := by rw [cpu]; rfl
  returns := by
    rw [cpu]
    simp only [LineMachine.cpu, List.map_map]
    exact List.map_congr_left fun line member => toNat_ofNat_line (Nat.le_of_lt (low.returns line member))
  steps := by rw [cpu]; rfl
  cells := by rw [bus]; rfl

end LineMachine

/-- The image of a source of no more than `2 ^ 22` lines does what the lines say: any number of steps
from a fresh processor end in the same outcomes as on the lines, and at the same place. -/
theorem image_runs_as_source {source : List Char} {assembly : Assembly}
    (assembled : assemble source = .ok assembly) (short : (lines source).length ≤ 2 ^ 22)
    (stepLimit : Option Nat) (dump : Dump) (bank : Bank) (events : List Event) (n : Nat) :
    ∃ program results s, Program.ofBytes assembly.bytes.toArray = .ok program ∧
      (LineMachine.start bank.cells).calls? (strippedLines source) n = some (results, s) ∧
      (Machine.calls program n ⟨.start stepLimit dump, bank, ⟨events, none⟩⟩).1 = results ∧
      s.Mirrors (Machine.calls program n ⟨.start stepLimit dump, bank, ⟨events, none⟩⟩).2 := by
  have parsed := (assemble_eq source).symm.trans assembled
  have low : (LineMachine.start bank.cells).Low := ⟨Nat.zero_le _, by simp [LineMachine.start]⟩
  have fresh : Cpu.start stepLimit dump = (LineMachine.start bank.cells).cpu stepLimit dump := rfl
  obtain ⟨last, mine, cpu, bus, stays⟩ := LineMachine.agrees_calls parsed short n low
    (m := ⟨.start stepLimit dump, bank, ⟨events, none⟩⟩) rfl fresh rfl
  exact ⟨.ofWords assembly.words, _, last, Program.ofBytes_wordBytes assembly.words, mine, rfl,
    LineMachine.mirrors_of_low stays cpu bus⟩

theorem image_runs_as_source_call :
    ∃ program m, Program.ofBytes #[0x12, 0, 0, 8, 0xFE, 0xFE, 0xFE, 0xFE, 0xFF, 0xFF, 0xFF, 0xFF,
        0x01, 7, 0, 3, 0x0A, 3, 0, 1, 0xFD, 0xFD, 0xFD, 0xFD] = .ok program ∧
      Machine.calls program 6 ⟨.start none {}, Bank.mk #[0, 0], ⟨[], none⟩⟩ =
        ([.ok none, .ok none, .ok none, .ok none, .ok none, .ok (some .halted)], m) ∧
      m.cpu.pc.toNat = 4 ∧ m.bus.cells = #[0, 7] := by
  let source := "jal .f\nhalt ; the end\n.f\nADDI 7 zero 3\nstore 3 0x0001\nret".toList
  have assembled : assemble source =
      .ok ⟨[⟨0x12, 0, 0, 8⟩, ⟨0xFE, 0xFE, 0xFE, 0xFE⟩, .padding, ⟨0x01, 7, 0, 3⟩, ⟨0x0A, 3, 0, 1⟩,
        ⟨0xFD, 0xFD, 0xFD, 0xFD⟩], ⟨[(['f'], 8)]⟩⟩ := rfl
  have run : (LineMachine.start #[0, 0]).calls? (strippedLines source) 6 = some
      ([.ok none, .ok none, .ok none, .ok none, .ok none, .ok (some .halted)],
        ⟨1, #v[0, 0, 0, 7, 0, 0, 0, 0, 0, 0, 0, 0, 0, 0, 0, 0], [], 6, #[0, 7]⟩) := rfl
  obtain ⟨program, results, s, whole, mine, theirs, mirrors⟩ :=
    image_runs_as_source assembled (by decide) none {} ⟨#[0, 0]⟩ [] 6
  obtain ⟨rfl, rfl⟩ := Prod.mk.inj (Option.some.inj (mine.symm.trans run))
  exact ⟨program, _, whole, Prod.ext theirs rfl, mirrors.pc, mirrors.cells⟩

end WordMachine
