import WordMachine.Proofs.Machine.Invariant

/-! Where a processor can come to. From a fresh one no steps lead off the places for words, so a return
lands behind a call, and a word is missing only past the end of the image. -/

namespace WordMachine

/-- Processors that steps lead to from a fresh one. Any step may be made with another memory and
another journal, and also where an earlier one trapped or stopped. -/
inductive Reached (program : Program) : Cpu → Prop
  | start (stepLimit : Option Nat) (dump : Dump) : Reached program (.start stepLimit dump)
  | step {β : Type} [Bus β] {m : Machine β} (before : Reached program m.cpu) :
    Reached program (Machine.step program m).2.cpu

section Places

variable {program : Program}

theorem Reached.grounded {cpu : Cpu} (reached : Reached program cpu) : cpu.Grounded program := by
  induction reached with
  | start stepLimit dump => exact Cpu.grounded_start program stepLimit dump
  | step before grounded => exact Machine.grounded_step grounded

theorem Cpu.CallSite.nextWord_range {call : UInt32} (site : CallSite program call)
    (small : program.image.bytes.size < 2 ^ 32) :
    4 ≤ (nextWord call).toNat ∧ (nextWord call).toNat ≤ program.image.bytes.size := by
  have inside := Program.add_size_le_of_mapped site.mapped
  unfold Word.size at inside
  rw [nextWord, UInt32.toNat_add]
  simp only [UInt32.reduceToNat]
  omega

theorem Cpu.Grounded.fetch?_eq_none_iff {cpu : Cpu} (grounded : cpu.Grounded program) :
    program.fetch? cpu.pc = none ↔ program.image.bytes.size ≤ cpu.pc.toNat := by
  rw [← Option.not_isSome_iff_eq_none, Program.fetch?_isSome_iff, Image.Mapped, not_and, Nat.not_lt]
  exact ⟨fun past => past grounded.pc, fun past _ => past⟩

variable {β : Type}

/-- A return has gone behind the call that it closes, which is a place in the image or just past its end. -/
structure Landed (program : Program) (m after : Machine β) : Prop where
  closed : ∃ call, m.cpu.returns = call :: after.cpu.returns ∧ after.cpu.pc = nextWord call
  low : 4 ≤ after.cpu.pc.toNat
  high : after.cpu.pc.toNat ≤ program.image.bytes.size

theorem Cpu.Grounded.landed {m after : Machine β} (grounded : m.cpu.Grounded program)
    (small : program.image.bytes.size < 2 ^ 32) {call : UInt32} {outer : List UInt32}
    (opened : m.cpu.returns = call :: outer) (place : after.cpu.pc = nextWord call)
    (left : after.cpu.returns = outer) : Landed program m after := by
  have site := grounded.returns call (opened ▸ List.mem_cons_self)
  have range := site.nextWord_range small
  rw [← place] at range
  exact ⟨⟨call, left ▸ opened, place⟩, range.1, range.2⟩

/-- How a return can end: behind the call that it closes, or with no effect because no call is open. Where
the journal has no room for what is told of the step, it has landed by then or has not begun. -/
inductive ReturnEnds (program : Program) (m after : Machine β) : StepResult → Prop
  | lands (landed : Landed program m after) : ReturnEnds program m after (.ok none)
  | refused (shut : m.cpu.returns = []) (kept : after.cpu = m.cpu) :
    ReturnEnds program m after (.error (.stackUnderflow m.cpu.pc))
  | unwritten (limited : m.journal.room ≠ none)
    (untold : after.cpu = m.cpu ∨ Landed program m after) :
    ReturnEnds program m after (.error .journalFull)

variable [Bus β]

theorem Cpu.step_ret {cpu : Cpu} {w : Word} (fetched : program.fetch? cpu.pc = some w)
    (decoded : w.decode? = some (.bare .ret)) (bus : β) : Cpu.step program cpu bus =
      match cpu.returns with
      | [] => (.error (.stackUnderflow cpu.pc), cpu, bus)
      | call :: outer =>
        let taken := { cpu with returns := outer, steps := cpu.steps + 1 }.follow (.jump (nextWord call))
        (taken.1, taken.2, bus) := by
  rw [Cpu.step_of_fetch? fetched decoded, Cpu.perform, execute]
  cases cpu.returns <;> rfl

theorem Cpu.Grounded.returnEnds {m : Machine β} (grounded : m.cpu.Grounded program)
    (small : program.image.bytes.size < 2 ^ 32) {w : Word} (fetched : program.fetch? m.cpu.pc = some w)
    (decoded : w.decode? = some (.bare .ret)) :
    ReturnEnds program m (Machine.step program m).2 (Machine.step program m).1 := by
  have faithful := Machine.step_faithful program m
  have state := Machine.step_state program m
  generalize Machine.step program m = taken at faithful state ⊢
  obtain ⟨outcome, after⟩ := taken
  rw [Cpu.step_ret fetched decoded] at faithful state
  cases opened : m.cpu.returns with
  | nil =>
    rw [opened] at faithful state
    have kept : after.cpu = m.cpu := state.elim And.left And.left
    rcases faithful with ⟨rfl, limited⟩ | ⟨silent, -⟩
    · exact .unwritten limited (.inl kept)
    · obtain ⟨rfl, -⟩ := Prod.mk.inj silent
      exact .refused opened kept
  | cons call outer =>
    have site := grounded.returns call (opened ▸ List.mem_cons_self)
    simp only [opened, Cpu.follow, if_pos site.aligned.nextWord] at faithful state
    have landed (moved : after.cpu =
        { m.cpu with pc := nextWord call, returns := outer, steps := m.cpu.steps + 1 }) :
        Landed program m after :=
      grounded.landed small opened (by rw [moved]) (by rw [moved])
    rcases faithful with ⟨rfl, limited⟩ | ⟨silent, -⟩
    · exact .unwritten limited (state.imp And.left fun moved => landed moved.1)
    · obtain ⟨rfl, same⟩ := Prod.mk.inj silent
      exact .lands (landed (Prod.mk.inj same).1.symm)

theorem Machine.step_endOfImage_iff {m : Machine β} :
    (step program m).1 = .ok (some .endOfImage) ↔ program.fetch? m.cpu.pc = none := by
  cases fetched : program.fetch? m.cpu.pc with
  | none => simp only [step, fetched]
  | some w =>
    rcases step_ending fetched with full | ⟨-, unknown⟩ | ⟨i, -, ending⟩
    · simp [full]
    · simp [unknown]
    · generalize (step program m).1 = outcome at ending
      cases ending <;> simp

end Places

/-- A processor that steps lead to from a fresh one is at a place for a word, and its open calls are
calls of the image. A return from there ends behind a call or in no call, never at a place between words,
and the end of the image is answered exactly past its last word. -/
theorem reached_stands {β : Type} [Bus β] {program : Program} {m : Machine β}
    (reached : Reached program m.cpu) (small : program.image.bytes.size < 2 ^ 32) :
    Aligned m.cpu.pc ∧
      (∀ call ∈ m.cpu.returns, ∃ w target, program.fetch? call = some w ∧
        w.decode? = some (.jump .call target)) ∧
      (∀ w, program.fetch? m.cpu.pc = some w → w.decode? = some (.bare .ret) →
        ReturnEnds program m (Machine.step program m).2 (Machine.step program m).1) ∧
      ((Machine.step program m).1 = .ok (some .endOfImage) ↔
        program.image.bytes.size ≤ m.cpu.pc.toNat) := by
  have grounded := reached.grounded
  refine ⟨grounded.pc, grounded.returns, ?_, ?_⟩
  · intro w fetched decoded
    exact grounded.returnEnds small fetched decoded
  · rw [Machine.step_endOfImage_iff, grounded.fetch?_eq_none_iff]

theorem reached_stands_call :
    let program := Program.ofWords [⟨0x12, 0, 0, 8⟩, .fill 0xFE, .fill 0xFD]
    let called : Machine Bank :=
      ⟨{ Cpu.start none {} with pc := 8, returns := [0], steps := 1 }, ⟨#[]⟩, .fresh none⟩
    ReturnEnds program called (Machine.step program called).2 (Machine.step program called).1 := by
  have begun : Reached (.ofWords [⟨0x12, 0, 0, 8⟩, .fill 0xFE, .fill 0xFD]) (.start none {}) :=
    .start none {}
  have called := begun.step (m := (⟨.start none {}, ⟨#[]⟩, .fresh none⟩ : Machine Bank))
  exact (reached_stands called (by decide)).2.2.1 (.fill 0xFD) rfl rfl

end WordMachine
