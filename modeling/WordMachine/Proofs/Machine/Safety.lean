import WordMachine.Proofs.Machine.Fetch
import WordMachine.Proofs.Machine.Invariant
import WordMachine.Proofs.Source.Listing

/-! What an assembled program can still do wrong. All of its words are instructions, labels are places
for words, and on a bank of the whole address space every cell is there. It traps only where its source
jumps to a number between two words, and at a return from no call. -/

namespace WordMachine

open Text Operand

/-- The line with the word at an address jumps to a number that is no place for a word. -/
def JumpsAstray (source : List Char) (pc target : UInt32) : Prop :=
  ¬Aligned target ∧ ∃ text, (strippedLines source)[pc.toNat / 4]? = some text ∧
    JumpsToNumber text target.toNat

theorem aligned_cut {target : UInt32} (aligned : Aligned target) : Aligned (target % 0x1000000) := by
  unfold Aligned Word.size at aligned ⊢
  rw [UInt32.toNat_mod]
  simp only [UInt32.reduceToNat]
  omega

section Assembled

variable {source : List Char} {assembly : Assembly}

theorem aligned_of_resolve? {lines : List Line} (assembled : assembleLines lines = .ok assembly)
    {reference : List Char} {address : UInt32}
    (found : assembly.symbols.resolve? reference = some address) : Aligned address := by
  have declared : ∀ name, assembly.symbols.offset? name = some address → Aligned address := by
    intro name offset
    obtain ⟨line, -, rfl⟩ := exists_line_of_offset? assembled offset
    exact slot_eq line ▸ aligned_ofNat_line line
  rcases Option.or_eq_some_iff.1 found with written | ⟨-, behind⟩
  · exact declared reference written
  · obtain ⟨rest, -, offset⟩ := Option.bind_eq_some_iff.1 behind
    exact declared rest offset

theorem jumpsAstray_of_decode? (assembled : assemble source = .ok assembly) {pc target : UInt32}
    {w : Word} {j : Jump} (found : assembly.words[pc.toNat / 4]? = some w)
    (decoded : w.decode? = some (.jump j target)) (odd : ¬Aligned target) :
    JumpsAstray source pc target := by
  rw [assemble_eq] at assembled
  obtain ⟨line, place, encoded⟩ := exists_line_of_word assembled found
  rw [List.getElem?_map] at place
  obtain ⟨text, listed, rfl⟩ := Option.map_eq_some_iff.1 place
  rcases Line.word_cases encoded with
    ⟨-, rfl⟩ | ⟨name, operands, written, i, line, named, spells, resolved, rfl⟩
  · rw [Word.decode?_padding] at decoded
    cases decoded
  · have spelled := Line.words_of_ofStripped line
    rw [Instr.decode?_encode, Option.some.injEq] at decoded
    cases spells with
    | alu | aluImm | transfer | cmp | bare =>
      obtain rfl := Except.ok.inj resolved
      cases decoded
    | @jump k token goal one =>
      cases goal with
      | literal address =>
        obtain rfl := Except.ok.inj resolved
        obtain ⟨numeral, within⟩ := target?_eq_literal_iff.1 one
        have fits : (Instr.jump k address).Fits := Nat.lt_succ_of_le within
        rw [Instr.cut_eq_self fits] at decoded
        obtain ⟨rfl, rfl⟩ := Instr.jump.inj decoded
        exact ⟨odd, text, listed, name, token, k, spelled, named.symm, numeral⟩
      | label reference =>
        rw [Instr.resolve] at resolved
        split at resolved
        · next address placed =>
          -- The address of a label may be cut, but what is cut off is a multiple of four.
          obtain rfl := Except.ok.inj resolved
          obtain ⟨-, rfl⟩ := Instr.jump.inj decoded
          exact absurd (aligned_cut (aligned_of_resolve? assembled placed)) odd
        · cases resolved

theorem decode?_ne_none (assembled : assemble source = .ok assembly) {index : Nat} {w : Word}
    (found : assembly.words[index]? = some w) : w.decode? ≠ none := by
  obtain ⟨program, -, encoded⟩ := exists_of_assembleLines assembled
  obtain ⟨i, -, rfl⟩ := List.mem_map.1 (encoded ▸ List.mem_of_getElem? found)
  rw [Instr.decode?_encode]
  simp

theorem trap_of_assembled (assembled : assemble source = .ok assembly) {m after : Machine Bank}
    {trap : Trap} (grounded : m.cpu.Grounded (.ofWords assembly.words))
    (whole : m.bus.size = addressSpace)
    (trapped : Machine.step (.ofWords assembly.words) m = (.error trap, after))
    (roomy : trap ≠ .journalFull) :
    (∃ target, trap = .unaligned m.cpu.pc target ∧ JumpsAstray source m.cpu.pc target) ∨
      trap = .stackUnderflow m.cpu.pc ∧ m.cpu.returns = [] ∧ ∃ w,
        (Program.ofWords assembly.words).fetch? m.cpu.pc = some w ∧ w.decode? = some (.bare .ret) := by
  have place := grounded.pc.eq_four_mul
  have served := Machine.step_ne_bus (.ofWords assembly.words) whole
  rw [trapped] at served
  obtain ⟨w, fetched, unknown | ⟨i, decoded, refused⟩⟩ := Machine.step_refused trapped roomy
  · exact absurd unknown.1 (decode?_ne_none assembled (Program.fetch?_ofWords _ place ▸ fetched))
  · generalize after.cpu = left at refused
    generalize after.bus = memory at refused
    cases refused with
    | underflow ret closed =>
      subst ret
      exact .inr ⟨rfl, closed, w, fetched, decoded⟩
    | unwritten | unread => exact absurd rfl (served _ _)
    | @unaligned target returns arrives odd =>
      obtain ⟨j, rfl⟩ := grounded.jump_of_arrival? arrives odd
      rw [Program.fetch?_ofWords _ place] at fetched
      exact .inl ⟨target, rfl, jumpsAstray_of_decode? assembled fetched decoded odd⟩

end Assembled

/-- On a bank of the whole address space the image of a source, stepped any number of times, traps only
at a jump to a number between two words and at a return from no call. Whatever the image, its
instructions name registers of the file only, and no step and no run ends in a fault of such a bank. -/
theorem assembled_goes_right :
    (∀ {source : List Char} {assembly : Assembly}, assemble source = .ok assembly →
      ∀ (stepLimit : Option Nat) (dump : Dump) (bank : Bank) (events : List Event) (n : Nat),
        bank.size = addressSpace → ∃ program, Program.ofBytes assembly.bytes.toArray = .ok program ∧
          ∀ outcomes m trap after, Machine.calls program n ⟨.start stepLimit dump, bank, ⟨events, none⟩⟩ =
              (outcomes, m) → Machine.step program m = (.error trap, after) →
            (∃ target, trap = .unaligned m.cpu.pc target ∧ JumpsAstray source m.cpu.pc target) ∨
              trap = .stackUnderflow m.cpu.pc ∧ m.cpu.returns = [] ∧
                ∃ w, program.fetch? m.cpu.pc = some w ∧ w.decode? = some (.bare .ret)) ∧
    (∀ {w : Word} {i : Instr Reg UInt32}, w.decode? = some i →
      i.registers.map Fin.val = (i.op.registerBytes w).map UInt8.toNat ∧
        ∀ b ∈ i.op.registerBytes w, b.toNat < 16) ∧
    ∀ (program : Program) (m : Machine Bank), m.bus.size = addressSpace → ∀ address fault,
      (∀ n, (Machine.step program (m.calls program n).2).1 ≠ .error (.bus address fault)) ∧
        (∀ fuel last, Machine.runWithin program fuel m ≠ some (.error (.bus address fault), last)) ∧
        (Machine.run program m).1 ≠ .error (.bus address fault) := by
  refine ⟨?_, ?_, ?_⟩
  · intro source assembly assembled stepLimit dump bank events n whole
    refine ⟨.ofWords assembly.words, Program.ofBytes_wordBytes assembly.words, ?_⟩
    intro outcomes m trap after stepped trapped
    obtain rfl : (Machine.calls _ n _).2 = m := congrArg Prod.snd stepped
    have free := Machine.boundless_calls (.ofWords assembly.words) n
      (m := ⟨.start stepLimit dump, bank, ⟨events, none⟩⟩) rfl
    exact trap_of_assembled assembled (Machine.grounded_calls n (Cpu.grounded_start _ _ _))
      ((Machine.size_calls _ n _).trans whole) trapped (Machine.ne_journalFull free trapped)
  · intro w i decoded
    exact ⟨(Word.of_decode? decoded).1, Word.registerBytes_lt decoded⟩
  · intro program m whole address fault
    refine ⟨?_, ?_, Machine.run_ne_bus program whole address fault⟩
    · intro n
      exact Machine.step_ne_bus program ((Machine.size_calls program n m).trans whole) address fault
    · intro fuel last
      exact Machine.runWithin_ne_bus whole address fault

theorem assembled_goes_right_jmp :
    JumpsAstray "noop\njmp 5".toList 4 5 ∧ (3 : UInt8).toNat < 16 ∧
      (Machine.run (.ofWords [⟨0x0A, 3, 0xFF, 0xFF⟩])
        ⟨.start none {}, Bank.blank addressSpace, .fresh (some 0)⟩).1 ≠
          .error (.bus 0xFFFF (.outside 0xFFFF addressSpace)) := by
  have assembled : assemble "noop\njmp 5".toList = .ok ⟨[.padding, ⟨0x0D, 0, 0, 5⟩], .empty⟩ := rfl
  have whole : (Bank.blank addressSpace).size = addressSpace := Array.size_replicate
  have decoded : Word.decode? ⟨0x0A, 3, 0xFF, 0xFF⟩ = some (.transfer .store 3 0xFFFF) := by decide
  refine ⟨?_, ?_, ?_⟩
  · obtain ⟨program, image, traps⟩ :=
      assembled_goes_right.1 assembled none {} (.blank addressSpace) [] 1 whole
    obtain rfl : Program.ofWords _ = program :=
      Except.ok.inj ((Program.ofBytes_wordBytes [.padding, ⟨0x0D, 0, 0, 5⟩]).symm.trans image)
    have passed : Machine.calls (.ofWords [.padding, ⟨0x0D, 0, 0, 5⟩]) 1
        ⟨.start none {}, Bank.blank addressSpace, ⟨[], none⟩⟩ = ([.ok none],
          ⟨{ Cpu.start none {} with pc := 4, steps := 1 }, .blank addressSpace, ⟨[], none⟩⟩) := rfl
    rcases traps _ _ (.unaligned 4 5) _ passed rfl with ⟨target, same, astray⟩ | ⟨underflow, -⟩
    · cases same
      exact astray
    · cases underflow
  · exact (assembled_goes_right.2.1 decoded).2 3 (by decide)
  · exact (assembled_goes_right.2.2 (.ofWords [⟨0x0A, 3, 0xFF, 0xFF⟩]) ⟨_, _, _⟩ whole _ _).2.2

end WordMachine
