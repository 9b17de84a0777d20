import WordMachine.Proofs.Machine.Reporting
import WordMachine.Proofs.Machine.Simulation
import WordMachine.Proofs.Source.Relocation

/-! Lines without an instruction have no part in what a program does. The machine on a source with such a
line put in keeps to the lines of the machine without it, but for a step on the line that it has to pass. -/

namespace WordMachine

open Text Operand

def Trap.displace (spot : Nat) : Trap → Trap
  | .unknownOpcode pc opcode => .unknownOpcode (displaceWord spot pc) opcode
  | .stackUnderflow pc => .stackUnderflow (displaceWord spot pc)
  | .unaligned pc target => .unaligned (displaceWord spot pc) target
  | trap => trap

theorem placeOf?_insertIdx (texts : List (List Char)) (spot : Nat) (name : List Char) :
    placeOf? (texts.insertIdx spot []) name = (placeOf? texts name).map (displace spot) := by
  have declaring : ∀ name, declaringLine? (texts.insertIdx spot []) name =
      (declaringLine? texts name).map (displace spot) :=
    fun name => findIdx?_insertIdx _ rfl texts spot
  rw [placeOf?, placeOf?, Option.map_or, declaring]
  congr 1
  cases afterDot? name with
  | none => rfl
  | some rest => exact declaring rest

namespace LineMachine

/-- Two machines that differ in nothing but where they are and how often they stepped; the open calls of
the second are displaced. -/
structure Alike (spot : Nat) (s t : LineMachine) : Prop where
  regs : t.regs = s.regs
  returns : t.returns = s.returns.map (displace spot)
  cells : t.cells = s.cells

structure Level (spot : Nat) (s t : LineMachine) : Prop extends Alike spot s t where
  line : t.line = displace spot s.line

/-- Both are at the same line, or the second is at the line put in before it. -/
def Near (spot : Nat) (s t : LineMachine) : Prop :=
  Level spot s t ∨ s.line = spot ∧ t.line = spot ∧ Alike spot s t

inductive Matches (spot : Nat) :
    Option (StepResult × LineMachine) → Option (StepResult × LineMachine) → Prop
  | goes {s t : LineMachine} (near : Near spot s t) :
    Matches spot (some (.ok none, s)) (some (.ok none, t))
  | stops {s t : LineMachine} {exit : Exit} (level : Level spot s t) :
    Matches spot (some (.ok (some exit), s)) (some (.ok (some exit), t))
  | traps {s t : LineMachine} {trap : Trap} (level : Level spot s t) :
    Matches spot (some (.error trap, s)) (some (.error (trap.displace spot), t))

section Steps

variable {spot : Nat} {s t : LineMachine}

theorem Alike.reg (alike : Alike spot s t) (r : Reg) : t.reg r = s.reg r := by
  rw [LineMachine.reg, alike.regs]
  rfl

theorem matches_goTo (alike : Alike spot s t) (line : Nat) :
    Matches spot (some (s.goTo line)) (some (t.goTo (displace spot line))) :=
  .goes (.inl ⟨⟨alike.regs, alike.returns, alike.cells⟩, rfl⟩)

theorem matches_goTo_succ (alike : Alike spot s t) (line : Nat) :
    Matches spot (some (s.goTo (line + 1))) (some (t.goTo (displace spot line + 1))) := by
  rcases displace_succ spot line with moves | ⟨here, there⟩
  · rw [moves]
    exact matches_goTo alike (line + 1)
  · exact .goes (.inr ⟨here, there, alike.regs, alike.returns, alike.cells⟩)

theorem matches_goOn (level : Level spot s t) : Matches spot (some s.goOn) (some t.goOn) := by
  rw [goOn, goOn, level.line]
  exact matches_goTo_succ level.toAlike s.line

theorem matches_assign (level : Level spot s t) (r : Reg) (value : UInt8) :
    Matches spot (some (s.assign r value)) (some (t.assign r value)) := by
  refine matches_goOn ⟨⟨?_, level.returns, level.cells⟩, level.line⟩
  rw [level.regs]

theorem matches_store (level : Level spot s t) (addr : UInt32) (value : UInt8) :
    Matches spot (some (s.store addr value)) (some (t.store addr value)) := by
  obtain ⟨line, regs, returns, steps, cells⟩ := t
  obtain ⟨⟨sameRegs, moved, rfl⟩, here⟩ := level
  by_cases found : addr.toNat < s.cells.size
  · rw [store, store, dif_pos found, dif_pos found]
    exact matches_goOn ⟨⟨sameRegs, moved, rfl⟩, here⟩
  · rw [store, store, dif_neg found, dif_neg found]
    exact .traps ⟨⟨sameRegs, moved, rfl⟩, here⟩

theorem matches_load (level : Level spot s t) (addr : UInt32) (r : Reg) :
    Matches spot (some (s.load addr r)) (some (t.load addr r)) := by
  obtain ⟨line, regs, returns, steps, cells⟩ := t
  obtain ⟨⟨sameRegs, moved, rfl⟩, here⟩ := level
  by_cases found : addr.toNat < s.cells.size
  · rw [load, load, dif_pos found, dif_pos found]
    exact matches_assign ⟨⟨sameRegs, moved, rfl⟩, here⟩ r _
  · rw [load, load, dif_neg found, dif_neg found]
    exact .traps ⟨⟨sameRegs, moved, rfl⟩, here⟩

theorem matches_ret (level : Level spot s t) (inside : s.line < lineSpace)
    (texts edited : List (List Char)) :
    Matches spot (s.instruct texts (Op.bare .ret).mnemonic [])
      (t.instruct edited (Op.bare .ret).mnemonic []) := by
  cases opened : s.returns with
  | nil =>
    have closed : t.returns = [] := by rw [level.returns, opened, List.map_nil]
    have moved : (Trap.stackUnderflow s.address).displace spot = .stackUnderflow t.address := by
      rw [address, address, level.line, ← displaceWord_ofNat spot (Nat.le_of_lt inside)]
      rfl
    rw [instruct_ret_nil opened, instruct_ret_nil closed, ← moved]
    exact .traps level
  | cons call outer =>
    have reopened : t.returns = displace spot call :: outer.map (displace spot) := by
      rw [level.returns, opened, List.map_cons]
    have popped : Alike spot { s with returns := outer }
        { t with returns := outer.map (displace spot) } := ⟨level.regs, rfl, level.cells⟩
    rw [instruct_ret_cons opened, instruct_ret_cons reopened]
    exact matches_goTo_succ popped call

end Steps

section Source

variable {spot : Nat} {s t : LineMachine} {texts : List (List Char)} {assembly : Assembly}

theorem matches_jump (alike : Alike spot s t) {token name : List Char} {line : Nat}
    (read : target? token = some (.label name)) (found : placeOf? texts name = some line) :
    Matches spot (s.jump texts token) (t.jump (texts.insertIdx spot []) token) := by
  simp only [jump, read, placeOf?_insertIdx, found, Option.map_some]
  exact matches_goTo alike line

variable (assembled : assembleLines (texts.map Line.ofStripped) = .ok assembly)
  (short : texts.length ≤ lineSpace) (named : ∀ text ∈ texts, ∀ n, ¬JumpsToNumber text n)

include assembled in
theorem matches_instruct (level : Level spot s t) (inside : s.line < lineSpace)
    {written : Instr Reg Target} {operands : List (List Char)} {i : Instr Reg UInt32}
    (spells : Spells written operands) (resolved : written.resolve assembly.symbols = .ok i)
    (labelled : ∀ j address, written ≠ .jump j (.literal address)) :
    Matches spot (s.instruct texts written.op.mnemonic operands)
      (t.instruct (texts.insertIdx spot []) written.op.mnemonic operands) := by
  have reg := level.reg
  cases spells with
  | @alu f first second third left right dst one two three =>
    rw [Instr.op, instruct_alu f one two three, instruct_alu f one two three, reg, reg]
    exact matches_assign level dst _
  | @aluImm f first second third imm src dst one two three =>
    rw [Instr.op, instruct_aluImm f one two three, instruct_aluImm f one two three, reg]
    exact matches_assign level dst _
  | @transfer t first second reg addr one two =>
    cases t with
    | store =>
      rw [Instr.op, instruct_store one two, instruct_store one two, level.reg]
      exact matches_store level addr _
    | load =>
      rw [Instr.op, instruct_load one two, instruct_load one two]
      exact matches_load level addr reg
  | @cmp first second left right one two =>
    rw [Instr.op, instruct_cmp one two, instruct_cmp one two, reg, reg]
    exact matches_assign level flagReg _
  | @jump j token goal one =>
    cases goal with
    | literal address => exact absurd rfl (labelled j address)
    | label name =>
      obtain ⟨line, found, -⟩ := resolve_label_ok (offset?_of_assembled assembled) resolved
      cases j with
      | always => exact matches_jump level.toAlike one found
      | «when» condition =>
        rw [Instr.op, instruct_when, instruct_when, reg]
        cases condition.holds (Flag.ofCode? (s.reg flagReg)) with
        | true => exact matches_jump level.toAlike one found
        | false => exact matches_goOn level
      | call =>
        have pushed : Alike spot { s with returns := s.line :: s.returns }
            { t with returns := t.line :: t.returns } :=
          ⟨level.regs, by rw [level.line, level.returns, List.map_cons], level.cells⟩
        exact matches_jump pushed one found
  | @bare b =>
    cases b with
    | ret => exact matches_ret level inside texts _
    | halt => exact .stops ⟨⟨level.regs, level.returns, level.cells⟩, level.line⟩
    | noop => exact matches_goOn level

include assembled short named in
theorem matches_step (level : Level spot s t) :
    Matches spot (s.step? texts) (t.step? (texts.insertIdx spot [])) := by
  rw [step?, step?, level.line, getElem?_insertIdx_displace]
  cases here : texts[s.line]? with
  | none => exact .stops level
  | some text =>
    have place : (texts.map Line.ofStripped)[s.line]? = some (Line.ofStripped text) := by
      rw [List.getElem?_map, here, Option.map_some]
    obtain ⟨w, -, encoded⟩ := exists_word_of_line assembled place
    have inside : s.line < lineSpace :=
      Nat.lt_of_lt_of_le (List.getElem?_eq_some_iff.1 here).1 short
    rcases Line.word_cases encoded with
      ⟨idle, -⟩ | ⟨name, operands, written, i, line, mnemonic, spells, resolved, -⟩
    · dsimp only
      rw [obey_of_idle idle, obey_of_idle idle]
      exact matches_goOn level
    · dsimp only
      rw [obey_of_statement line, obey_of_statement line, ← mnemonic, String.ofList_toList]
      apply matches_instruct assembled level inside spells resolved
      intro j address literal
      subst literal
      cases spells with
      | @jump j token goal one =>
        exact named text (List.mem_of_getElem? here) address.toNat
          ⟨name, token, j, Line.words_of_ofStripped line, mnemonic.symm,
            (target?_eq_literal_iff.1 one).1⟩

include assembled short named in
theorem exists_step_displaced (level : Level spot s t) {outcome : StepResult × LineMachine}
    (taken : s.step? texts = some outcome) : ∃ moved,
      t.step? (texts.insertIdx spot []) = some moved ∧ Matches spot (some outcome) (some moved) := by
  have step := matches_step assembled short named level
  rw [taken] at step
  generalize t.step? (texts.insertIdx spot []) = found at step ⊢
  cases found with
  | none => cases step
  | some moved => exact ⟨moved, rfl, step⟩

include assembled short named in
theorem exists_step_original (level : Level spot s t) {moved : StepResult × LineMachine}
    (taken : t.step? (texts.insertIdx spot []) = some moved) : ∃ outcome,
      s.step? texts = some outcome ∧ Matches spot (some outcome) (some moved) := by
  have step := matches_step assembled short named level
  rw [taken] at step
  generalize s.step? texts = found at step ⊢
  cases found with
  | none => cases step
  | some outcome => exact ⟨outcome, rfl, step⟩

/-- The line put in is passed in one step. -/
theorem near_cases (inside : spot ≤ texts.length) (near : Near spot s t) : Level spot s t ∨
    ∃ next, t.step? (texts.insertIdx spot []) = some (.ok none, next) ∧ Level spot s next := by
  rcases near with level | ⟨here, there, alike⟩
  · exact .inl level
  · refine .inr ⟨t.goOn.2, ?_, ⟨alike.regs, alike.returns, alike.cells⟩, ?_⟩
    · rw [step?, there, List.getElem?_insertIdx_self, if_pos inside]
      rfl
    · rw [here, displace_of_le (Nat.le_refl spot), ← there]
      rfl

end Source

/-- A machine comes to an end on its lines. -/
inductive Ends (texts : List (List Char)) : LineMachine → Except Trap Exit → LineMachine → Prop
  | stops {s last : LineMachine} {exit : Exit}
    (stopped : s.step? texts = some (.ok (some exit), last)) : Ends texts s (.ok exit) last
  | traps {s last : LineMachine} {trap : Trap}
    (trapped : s.step? texts = some (.error trap, last)) : Ends texts s (.error trap) last
  | goes {s next last : LineMachine} {result : Except Trap Exit}
    (step : s.step? texts = some (.ok none, next)) (rest : Ends texts next result last) :
    Ends texts s result last

section Runs

variable {spot : Nat} {s t last final : LineMachine} {result other : Except Trap Exit}
  {texts : List (List Char)} {assembly : Assembly}

theorem Ends.unique (ends : Ends texts s result last) (again : Ends texts s other final) :
    other = result ∧ final = last := by
  induction ends with
  | stops stopped =>
    cases again with
    | stops found =>
      cases stopped.symm.trans found
      exact ⟨rfl, rfl⟩
    | traps found | goes found => cases stopped.symm.trans found
  | traps trapped =>
    cases again with
    | traps found =>
      cases trapped.symm.trans found
      exact ⟨rfl, rfl⟩
    | stops found | goes found => cases trapped.symm.trans found
  | goes went rest ih =>
    cases again with
    | goes found others =>
      cases went.symm.trans found
      exact ih others
    | stops found | traps found => cases went.symm.trans found

variable (assembled : assembleLines (texts.map Line.ofStripped) = .ok assembly)
  (short : texts.length ≤ lineSpace) (named : ∀ text ∈ texts, ∀ n, ¬JumpsToNumber text n)
  (inside : spot ≤ texts.length)

include inside in
theorem exists_ends_of_near {holds : LineMachine → Prop} (near : Near spot s t)
    (each : ∀ u, Level spot s u → ∃ final, Ends (texts.insertIdx spot []) u result final ∧ holds final) :
    ∃ final, Ends (texts.insertIdx spot []) t result final ∧ holds final := by
  rcases near_cases inside near with level | ⟨next, passed, level⟩
  · exact each t level
  · obtain ⟨final, ends, held⟩ := each next level
    exact ⟨final, .goes passed ends, held⟩

include assembled short named inside in
theorem Ends.displaced (ends : Ends texts s result last) (near : Near spot s t) :
    ∃ final, Ends (texts.insertIdx spot []) t (result.mapError (Trap.displace spot)) final ∧
      Level spot last final := by
  -- Each step without the line is one step with it, once the line is passed.
  induction ends generalizing t with
  | stops stopped =>
    apply exists_ends_of_near inside near
    intro u level
    obtain ⟨moved, taken, step⟩ := exists_step_displaced assembled short named level stopped
    cases step with
    | stops level => exact ⟨_, .stops taken, level⟩
  | traps trapped =>
    apply exists_ends_of_near inside near
    intro u level
    obtain ⟨moved, taken, step⟩ := exists_step_displaced assembled short named level trapped
    cases step with
    | traps level => exact ⟨_, .traps taken, level⟩
  | goes went rest ih =>
    apply exists_ends_of_near inside near
    intro u level
    obtain ⟨moved, taken, step⟩ := exists_step_displaced assembled short named level went
    cases step with
    | goes near =>
      obtain ⟨final, ends, level⟩ := ih near
      exact ⟨final, .goes taken ends, level⟩

include assembled short named inside in
theorem Ends.exists_original (ends : Ends (texts.insertIdx spot []) t result final)
    (near : Near spot s t) : ∃ other last, Ends texts s other last := by
  -- The step that passes the line is one that the other machine does not make.
  induction ends generalizing s with
  | stops stopped =>
    rcases near_cases inside near with level | ⟨next, passed, -⟩
    · obtain ⟨outcome, taken, step⟩ := exists_step_original assembled short named level stopped
      cases step with
      | stops => exact ⟨_, _, .stops taken⟩
    · rw [stopped] at passed
      cases passed
  | traps trapped =>
    rcases near_cases inside near with level | ⟨next, passed, -⟩
    · obtain ⟨outcome, taken, step⟩ := exists_step_original assembled short named level trapped
      cases step with
      | traps => exact ⟨_, _, .traps taken⟩
    · rw [trapped] at passed
      cases passed
  | goes went rest ih =>
    rcases near_cases inside near with level | ⟨next, passed, level⟩
    · obtain ⟨outcome, taken, step⟩ := exists_step_original assembled short named level went
      cases step with
      | goes near =>
        obtain ⟨other, last, ends⟩ := ih near
        exact ⟨other, last, .goes taken ends⟩
    · rw [went] at passed
      cases passed
      exact ih (.inl level)

end Runs

end LineMachine

namespace Machine

def boot (dump : Dump) (bank : Bank) (events : List Event) : Machine Bank :=
  ⟨.start none dump, bank, ⟨events, none⟩⟩

/-- Two machines that differ only in where they are, how often they stepped and what they wrote. -/
structure Displaced (spot : Nat) (m moved : Machine Bank) : Prop where
  pc : moved.cpu.pc = displaceWord spot m.cpu.pc
  regs : moved.cpu.regs = m.cpu.regs
  returns : moved.cpu.returns = m.cpu.returns.map (displaceWord spot)
  memory : moved.bus = m.bus

end Machine

namespace LineMachine

section Machines

variable {dump : Dump} {s last : LineMachine} {m : Machine Bank} {result : Except Trap Exit}
  {raws : List (List Char)} {assembly : Assembly}
  (assembled : assembleLines ((raws.map strip).map Line.ofStripped) = .ok assembly)
  (short : raws.length ≤ lineSpace)

theorem Hosts.unlimited (hosts : Hosts none dump s m) : Machine.limitReached? m.cpu = none := by
  rw [hosts.cpu]
  rfl

theorem Hosts.conclude {stepLimit : Option Nat} (hosts : Hosts stepLimit dump s m) (exit : Exit) :
    ∃ after, m.conclude exit = (.ok exit, after) ∧ Hosts stepLimit dump s after := by
  obtain ⟨journal, free, -, concluded⟩ := Machine.exists_conclude_eq m hosts.boundless exit
  exact ⟨_, concluded, hosts.cpu, hosts.bus, hosts.low, free⟩

include assembled short in
theorem Hosts.ends {fuel : Nat} {after : Machine Bank} (hosts : Hosts none dump s m)
    (ran : m.runWithin (.ofWords assembly.words) fuel = some (result, after)) :
    ∃ last, Ends (raws.map strip) s result last ∧ Hosts none dump last after := by
  induction fuel generalizing s m with
  | zero => cases ran
  | succ fuel ih =>
    obtain ⟨outcome, next, left, mine, theirs, stays⟩ := hosts.step assembled short
    rw [Machine.runWithin, hosts.unlimited, theirs] at ran
    obtain trap | _ | exit := outcome
    · cases ran
      exact ⟨next, .traps mine, stays⟩
    · obtain ⟨last, ends, there⟩ := ih stays ran
      exact ⟨last, .goes mine ends, there⟩
    · obtain ⟨final, concluded, there⟩ := stays.conclude exit
      have same : (.ok exit, final) = (result, after) := concluded.symm.trans (Option.some.inj ran)
      cases same
      exact ⟨next, .stops mine, there⟩

include assembled short in
theorem Hosts.exists_runsTo (hosts : Hosts none dump s m) (ends : Ends (raws.map strip) s result last) :
    ∃ after, m.RunsTo (.ofWords assembly.words) (result, after) := by
  induction ends generalizing m with
  | @stops s last exit stopped =>
    obtain ⟨outcome, next, left, mine, theirs, stays⟩ := hosts.step assembled short
    cases stopped.symm.trans mine
    obtain ⟨after, concluded, -⟩ := stays.conclude exit
    refine ⟨after, 1, ?_⟩
    rw [Machine.runWithin, hosts.unlimited, theirs]
    exact congrArg some concluded
  | traps trapped =>
    obtain ⟨outcome, next, left, mine, theirs, stays⟩ := hosts.step assembled short
    cases trapped.symm.trans mine
    refine ⟨left, 1, ?_⟩
    rw [Machine.runWithin, hosts.unlimited, theirs]
  | goes went rest ih =>
    obtain ⟨outcome, next, left, mine, theirs, stays⟩ := hosts.step assembled short
    cases went.symm.trans mine
    obtain ⟨after, fuel, ran⟩ := ih stays
    refine ⟨after, fuel + 1, ?_⟩
    rw [Machine.runWithin, hosts.unlimited, theirs]
    exact ran

end Machines

theorem Hosts.displaced {spot : Nat} {stepLimit : Option Nat} {dump : Dump} {s t : LineMachine}
    {m moved : Machine Bank} (level : Level spot s t) (hosts : Hosts stepLimit dump s m)
    (others : Hosts stepLimit dump t moved) : m.Displaced spot moved where
  pc := by
    rw [others.cpu, hosts.cpu]
    change UInt32.ofNat (4 * t.line) = displaceWord spot (UInt32.ofNat (4 * s.line))
    rw [level.line, displaceWord_ofNat spot hosts.low.line]
  regs := by
    rw [others.cpu, hosts.cpu]
    exact level.regs
  returns := by
    rw [others.cpu, hosts.cpu]
    simp only [LineMachine.cpu, level.returns, List.map_map]
    apply List.map_congr_left
    intro call member
    exact (displaceWord_ofNat spot (Nat.le_of_lt (hosts.low.returns call member))).symm
  memory := by
    rw [others.bus, hosts.bus, bank, level.cells]
    rfl

theorem near_start (spot : Nat) (cells : Array UInt8) : Near spot (start cells) (start cells) := by
  rcases Nat.eq_zero_or_pos spot with rfl | before
  · exact .inr ⟨rfl, rfl, rfl, rfl, rfl⟩
  · exact .inl ⟨⟨rfl, rfl, rfl⟩, (displace_of_lt before).symm⟩

end LineMachine

/-- A line that holds no instruction can be put in anywhere in a source of less than `2 ^ 22` lines that
jumps to labels only. The image runs to an end if it did so before, and to the same end: what lies behind
the line has moved by a word, and nothing else differs. -/
theorem blank_line_transparent {source edited blank : List Char} {assembly : Assembly} {spot : Nat}
    (assembled : assemble source = .ok assembly) (short : (lines source).length < 2 ^ 22)
    (labelled : ∀ text ∈ strippedLines source, ∀ n, ¬JumpsToNumber text n)
    (inside : spot ≤ (lines source).length) (idle : strip blank = [])
    (inserted : lines edited = (lines source).insertIdx spot blank) (dump : Dump) (bank : Bank)
    (events : List Event) : ∃ program after other, Program.ofBytes assembly.bytes.toArray = .ok program ∧
      assemble edited = .ok after ∧ Program.ofBytes after.bytes.toArray = .ok other ∧
      ((∃ ending, (Machine.boot dump bank events).RunsTo program ending) ↔
        ∃ ending, (Machine.boot dump bank events).RunsTo other ending) ∧
      ∀ result last moved final, (Machine.boot dump bank events).RunsTo program (result, last) →
        (Machine.boot dump bank events).RunsTo other (moved, final) →
        moved = result.mapError (Trap.displace spot) ∧ last.Displaced spot final := by
  have texts := strippedLines_insertIdx inserted idle
  obtain ⟨after, again, -⟩ := (blank_line_relocates short inserted idle).2 assembly assembled
  refine ⟨.ofWords assembly.words, after, .ofWords after.words,
    Program.ofBytes_wordBytes assembly.words, again, Program.ofBytes_wordBytes after.words, ?_⟩
  have few : (lines source).length ≤ lineSpace := Nat.le_of_lt short
  have room : (lines edited).length ≤ lineSpace := by
    rw [inserted, List.length_insertIdx_of_le_length inside]
    exact short
  have place : spot ≤ (strippedLines source).length := (List.length_map strip).symm ▸ inside
  have listed : (strippedLines source).length ≤ lineSpace := (List.length_map strip).symm ▸ few
  rw [assemble_eq] at assembled again
  have hosts := LineMachine.hosts_start none dump bank events
  have near := LineMachine.near_start spot bank.cells
  constructor
  · constructor
    · rintro ⟨⟨result, last⟩, fuel, ran⟩
      obtain ⟨stop, ends, -⟩ := hosts.ends assembled few ran
      obtain ⟨final, moved, -⟩ := ends.displaced assembled listed labelled place near
      rw [← texts] at moved
      obtain ⟨machine, runs⟩ := hosts.exists_runsTo again room moved
      exact ⟨_, runs⟩
    · rintro ⟨⟨result, last⟩, fuel, ran⟩
      obtain ⟨stop, ends, -⟩ := hosts.ends again room ran
      change LineMachine.Ends (strippedLines edited) _ _ _ at ends
      rw [texts] at ends
      obtain ⟨other, final, original⟩ := ends.exists_original assembled listed labelled place near
      obtain ⟨machine, runs⟩ := hosts.exists_runsTo assembled few original
      exact ⟨_, runs⟩
  · rintro result last moved final ⟨fuel, ran⟩ ⟨others, reran⟩
    obtain ⟨s, ends, there⟩ := hosts.ends assembled few ran
    obtain ⟨t, moves, placed⟩ := hosts.ends again room reran
    obtain ⟨u, expected, level⟩ := ends.displaced assembled listed labelled place near
    rw [← texts] at expected
    obtain ⟨rfl, rfl⟩ := expected.unique moves
    exact ⟨rfl, there.displaced level placed⟩

theorem blank_line_transparent_ret : ∃ program other last final,
    Program.ofBytes #[0x12, 0, 0, 8, 0xFE, 0xFE, 0xFE, 0xFE, 0xFF, 0xFF, 0xFF, 0xFF,
        0xFD, 0xFD, 0xFD, 0xFD] = .ok program ∧
      Program.ofBytes #[0x12, 0, 0, 0x0C, 0xFF, 0xFF, 0xFF, 0xFF, 0xFE, 0xFE, 0xFE, 0xFE,
        0xFF, 0xFF, 0xFF, 0xFF, 0xFD, 0xFD, 0xFD, 0xFD] = .ok other ∧
      (Machine.boot {} ⟨#[]⟩ []).RunsTo program (.ok .halted, last) ∧ last.cpu.pc = 4 ∧
      (Machine.boot {} ⟨#[]⟩ []).RunsTo other (.ok .halted, final) ∧ final.cpu.pc = 8 := by
  let source := "jal .f\nhalt\n.f\nret".toList
  let edited := "jal .f\n  ; back\nhalt\n.f\nret".toList
  have assembled : assemble source = .ok ⟨[⟨0x12, 0, 0, 8⟩, ⟨0xFE, 0xFE, 0xFE, 0xFE⟩, .padding,
      ⟨0xFD, 0xFD, 0xFD, 0xFD⟩], ⟨[(['f'], 8)]⟩⟩ := rfl
  have again : assemble edited = .ok ⟨[⟨0x12, 0, 0, 0x0C⟩, .padding, ⟨0xFE, 0xFE, 0xFE, 0xFE⟩, .padding,
      ⟨0xFD, 0xFD, 0xFD, 0xFD⟩], ⟨[(['f'], 12)]⟩⟩ := rfl
  have idle : strip "  ; back".toList = [] := rfl
  have inserted : lines edited = (lines source).insertIdx 1 "  ; back".toList := rfl
  have labelled : ∀ text ∈ strippedLines source, ∀ n, ¬JumpsToNumber text n := by
    intro text member n jumps
    obtain ⟨name, token, j, spelled, -, numeral⟩ := jumps
    have plain : ∀ text ∈ strippedLines source, ∀ token ∈ words text, ¬isLiteral token := by
      decide +kernel
    exact plain text member token (by simp [spelled]) (isLiteral_iff.2 ⟨n, numeral⟩)
  obtain ⟨program, after, other, image, reassembled, reimage, ends, alike⟩ :=
    blank_line_transparent assembled (by decide) labelled (by decide) idle inserted {} ⟨#[]⟩ []
  obtain rfl : Program.ofWords _ = program :=
    Except.ok.inj ((Program.ofBytes_wordBytes _).symm.trans image)
  cases again.symm.trans reassembled
  have runs : (Machine.boot {} ⟨#[]⟩ []).RunsTo (.ofWords [⟨0x12, 0, 0, 8⟩, ⟨0xFE, 0xFE, 0xFE, 0xFE⟩,
      .padding, ⟨0xFD, 0xFD, 0xFD, 0xFD⟩]) (.ok .halted,
        ⟨{ Cpu.start none {} with pc := 4, steps := 4 }, ⟨#[]⟩, ⟨[], none⟩⟩) := ⟨4, rfl⟩
  obtain ⟨⟨moved, final⟩, reruns⟩ := ends.1 ⟨_, runs⟩
  obtain ⟨rfl, displaced⟩ := alike _ _ _ _ runs reruns
  exact ⟨_, other, _, final, image, reimage, runs, rfl, reruns, displaced.pc⟩

end WordMachine
