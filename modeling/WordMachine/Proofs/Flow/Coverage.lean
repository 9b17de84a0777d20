import Mathlib.Logic.Relation
import WordMachine.Proofs.Flow.Closure
import WordMachine.Proofs.Machine.Fetch
import WordMachine.Proofs.Machine.Move

/-! Runs inside the survey of an image. Whatever registers and memory hold, a run from an entry stays on
the words that were met and moves along the edges between them. A return is not an edge: it is known
because the open calls are words that were met too. -/

namespace WordMachine

open Machine

theorem Program.instr?_of_fetch? {program : Program} {pc : UInt32} {w : Word}
    (fetched : program.fetch? pc = some w) : program.image.instr? pc = w.decode? := by
  rw [Image.instr?, (mapped_of_fetch? fetched).2, Option.bind_some]

namespace Machine

variable {β : Type} [Bus β] {program : Program}

def Goes (program : Program) (m next : Machine β) : Prop := step program m = (.ok none, next)

theorem Goes.arrives {m next : Machine β} (goes : Goes program m next) : ∃ w i,
    program.fetch? m.cpu.pc = some w ∧ w.decode? = some i ∧
      m.cpu.arrival? i = some (next.cpu.pc, next.cpu.returns) := by
  cases fetched : program.fetch? m.cpu.pc with
  | none => simp [Goes, step, fetched] at goes
  | some w =>
    have ending := step_ending fetched
    rw [show step program m = _ from goes] at ending
    obtain full | ⟨-, unknown⟩ | ⟨i, decoded, ending⟩ := ending
    · cases full
    · cases unknown
    · cases ending with
      | moved arrives => exact ⟨w, i, rfl, decoded, arrives⟩

end Machine

/-- The kind of edge that an instruction moves along. -/
def moveKind (cpu : Cpu) : Instr Reg UInt32 → EdgeKind
  | .jump .always _ => .branch
  | .jump (.when condition) _ => if condition.holds cpu.flag? then .conditional else .fallthrough
  | .jump .call _ => .call
  | _ => .fallthrough

theorem mem_edgesOf_onward {image : Image} {pc : UInt32} {i : Instr Reg UInt32}
    (mapped : image.Mapped (nextWord pc))
    (plain : image.edgesOf pc i =
      if image.Mapped (nextWord pc) then [⟨pc, nextWord pc, .fallthrough⟩] else []) :
    ⟨pc, nextWord pc, .fallthrough⟩ ∈ image.edgesOf pc i := by
  rw [plain, if_pos mapped]
  exact List.mem_singleton_self _

theorem edge_of_arrival {image : Image} {cpu : Cpu} {i : Instr Reg UInt32} {place : UInt32}
    {returns : List UInt32} (arrives : cpu.arrival? i = some (place, returns))
    (plain : i ≠ .bare .ret) (mapped : image.Mapped place) :
    ⟨cpu.pc, place, moveKind cpu i⟩ ∈ image.edgesOf cpu.pc i := by
  cases i with
  | alu | aluImm | transfer | cmp =>
    obtain ⟨rfl, -⟩ := Prod.mk.inj (Option.some.inj arrives)
    exact mem_edgesOf_onward mapped rfl
  | jump j target =>
    cases j with
    | always | call =>
      obtain ⟨rfl, -⟩ := Prod.mk.inj (Option.some.inj arrives)
      exact List.mem_cons_self
    | when condition =>
      obtain ⟨rfl, -⟩ := Prod.mk.inj (Option.some.inj arrives)
      rw [moveKind]
      cases condition.holds cpu.flag? with
      | true => exact List.mem_cons_self
      | false => exact List.mem_cons_of_mem _ List.mem_cons_self
  | bare b =>
    cases b with
    | ret => exact absurd rfl plain
    | halt => cases arrives
    | noop =>
      obtain ⟨rfl, -⟩ := Prod.mk.inj (Option.some.inj arrives)
      exact mem_edgesOf_onward mapped rfl

/-- The words that were met hold the program counter, if it is inside the image, and every open call. -/
structure Tracked (image : Image) (met : List UInt32) (cpu : Cpu) : Prop where
  place : image.Mapped cpu.pc → cpu.pc ∈ met
  calls : ∀ call ∈ cpu.returns, call ∈ met ∧ ∃ target, image.instr? call = some (.jump .call target)

theorem onward_of_call {image : Image} {call target : UInt32}
    (found : image.instr? call = some (.jump .call target)) :
    ⟨call, nextWord call, .fallthrough⟩ ∈ image.edgesAt call := by
  rw [edgesAt_of_instr? found]
  exact List.mem_cons_of_mem _ List.mem_cons_self

theorem Tracked.arrive {image : Image} {met : List UInt32} (explored : image.Explored met)
    {cpu after : Cpu} (tracked : Tracked image met cpu) {i : Instr Reg UInt32}
    (mapped : image.Mapped cpu.pc) (found : image.instr? cpu.pc = some i)
    (arrives : cpu.arrival? i = some (after.pc, after.returns)) : Tracked image met after := by
  have here := tracked.place mapped
  by_cases plain : i = .bare .ret
  · subst plain
    obtain ⟨call, opened, back⟩ := Cpu.arrival?_ret arrives
    have calls := tracked.calls
    rw [opened] at calls
    obtain ⟨met, target, called⟩ := calls call List.mem_cons_self
    constructor
    · intro inside
      rw [back] at inside ⊢
      exact explored.covered call met _ (onward_of_call called) inside
    · intro other member
      exact calls other (List.mem_cons_of_mem call member)
  · constructor
    · intro inside
      have edge := edge_of_arrival arrives plain inside
      rw [← edgesAt_of_instr? found] at edge
      exact explored.covered cpu.pc here _ edge inside
    · intro call member
      rcases Cpu.returns_of_arrival? arrives plain with same | ⟨target, rfl, pushed⟩
      · exact tracked.calls call (same ▸ member)
      · rcases List.mem_cons.1 (pushed ▸ member) with rfl | outer
        · exact ⟨here, target, found⟩
        · exact tracked.calls call outer

section Runs

variable {β : Type} [Bus β] {program : Program} {met : List UInt32}

theorem Tracked.step (explored : program.image.Explored met) {m next : Machine β}
    (tracked : Tracked program.image met m.cpu) (goes : Goes program m next) :
    Tracked program.image met next.cpu := by
  obtain ⟨w, i, fetched, decoded, arrives⟩ := goes.arrives
  have found := (Program.instr?_of_fetch? fetched).trans decoded
  exact tracked.arrive explored (Program.mapped_of_fetch? fetched).1 found arrives

theorem Tracked.run (explored : program.image.Explored met) {start m : Machine β}
    (tracked : Tracked program.image met start.cpu)
    (reached : Relation.ReflTransGen (Goes program) start m) : Tracked program.image met m.cpu := by
  induction reached with
  | refl => exact tracked
  | tail before goes ih => exact ih.step explored goes

end Runs

/-- The survey of an image with a budget for all its words covers every run from an entry, up to the
first exit or trap. A fetched word was visited, and is listed as what it turns out to be. A move to a
fetched word is an edge of its kind, except that a return goes where a visited call falls through. -/
theorem survey_covers_runs {β : Type} [Bus β] {program : Program} {entries : List UInt32}
    {budget : Nat} (large : program.words < budget) {start m : Machine β}
    (entered : start.cpu.pc ∈ entries) (fresh : start.cpu.returns = [])
    (reached : Relation.ReflTransGen (Goes program) start m) {w : Word}
    (fetched : program.fetch? m.cpu.pc = some w) :
    let survey := program.image.survey entries budget
    m.cpu.pc ∈ survey.visited ∧
      ((step program m).1 = .ok (some .halted) → m.cpu.pc ∈ survey.halts) ∧
      (w.decode? = some (.bare .ret) → m.cpu.pc ∈ survey.rets) ∧
      (∀ pc opcode, (step program m).1 = .error (.unknownOpcode pc opcode) →
        m.cpu.pc ∈ survey.invalid) ∧
      ∀ next, Goes program m next → ∃ i, w.decode? = some i ∧
        (i ≠ .bare .ret → (program.fetch? next.cpu.pc).isSome →
          ⟨m.cpu.pc, next.cpu.pc, moveKind m.cpu i⟩ ∈ survey.edges) ∧
        (i = .bare .ret → ∃ call ∈ survey.visited, ∃ target,
          program.image.instr? call = some (.jump .call target) ∧
            ⟨call, next.cpu.pc, .fallthrough⟩ ∈ survey.edges) := by
  intro survey
  have affordable : program.image.bytes.size + 3 < 4 * budget := by
    have whole : program.image.bytes.size % 4 = 0 := program.whole
    have words : program.image.bytes.size / 4 < budget := large
    omega
  obtain ⟨explored, entriesMet⟩ := Image.walk_explored entries affordable
  have begun : Tracked program.image survey.met start.cpu :=
    ⟨entriesMet start.cpu.pc entered, by simp [fresh]⟩
  have tracked := begun.run explored reached
  obtain ⟨mapped, word⟩ := Program.mapped_of_fetch? fetched
  have met := tracked.place mapped
  have found := Program.instr?_of_fetch? fetched
  refine ⟨Survey.mem_visited.2 met, ?_, ?_, ?_, ?_⟩
  · intro halted
    obtain full | ⟨-, unknown⟩ | ⟨i, decoded, ending⟩ := step_ending fetched
    · simp [full] at halted
    · simp [unknown] at halted
    · rw [halted] at ending
      cases ending with
      | halted halt => exact Survey.mem_visitedWhere met (found.trans decoded) (by simp [halt, Instr.op])
  · intro decoded
    exact Survey.mem_visitedWhere met (found.trans decoded) (by simp [Instr.op])
  · intro pc opcode trapped
    obtain full | ⟨undecoded, -⟩ | ⟨i, -, ending⟩ := step_ending fetched
    · simp [full] at trapped
    · exact Survey.mem_invalid met word undecoded
    · rw [trapped] at ending
      cases ending with
      | trapped known => exact absurd rfl (known pc opcode)
  · intro next goes
    obtain ⟨again, i, refetched, decoded, arrives⟩ := goes.arrives
    rw [fetched, Option.some.injEq] at refetched
    subst refetched
    refine ⟨i, decoded, ?_, ?_⟩
    · intro plain inside
      obtain ⟨other, refetched⟩ := Option.isSome_iff_exists.1 inside
      have edge := edge_of_arrival arrives plain (Program.mapped_of_fetch? refetched).1
      rw [← edgesAt_of_instr? (found.trans decoded)] at edge
      exact Survey.mem_edges met edge
    · intro isRet
      subst isRet
      obtain ⟨call, opened, back⟩ := Cpu.arrival?_ret arrives
      obtain ⟨callMet, target, called⟩ := tracked.calls call (opened ▸ List.mem_cons_self)
      rw [back]
      exact ⟨call, Survey.mem_visited.2 callMet, target, called,
        Survey.mem_edges callMet (onward_of_call called)⟩

theorem survey_covers_runs_call :
    let survey := (Program.ofWords [⟨0x12, 0, 0, 8⟩, .fill 0xFE, .fill 0xFD]).image.survey [0] 4
    8 ∈ survey.visited ∧ 8 ∈ survey.rets ∧ ∃ call ∈ survey.visited, ∃ target,
      survey.image.instr? call = some (.jump .call target) ∧
        ⟨call, 4, .fallthrough⟩ ∈ survey.edges := by
  have called : Goes (Program.ofWords [⟨0x12, 0, 0, 8⟩, .fill 0xFE, .fill 0xFD])
      (⟨.start none {}, ⟨#[]⟩, .fresh none⟩ : Machine Bank)
      ⟨{ Cpu.start none {} with pc := 8, returns := [0], steps := 1 }, ⟨#[]⟩, .fresh none⟩ := rfl
  have returned : Goes (Program.ofWords [⟨0x12, 0, 0, 8⟩, .fill 0xFE, .fill 0xFD])
      (⟨{ Cpu.start none {} with pc := 8, returns := [0], steps := 1 }, ⟨#[]⟩, .fresh none⟩ : Machine Bank)
      ⟨{ Cpu.start none {} with pc := 4, steps := 2 }, ⟨#[]⟩, .fresh none⟩ := rfl
  obtain ⟨visited, -, rets, -, moves⟩ := @survey_covers_runs Bank _ _ [0] 4 (by decide) _ _
    (by decide) (by rfl) (.single called) (.fill 0xFD) (by rfl)
  obtain ⟨i, decoded, -, calls⟩ := moves _ returned
  obtain rfl := Option.some.inj (decoded.symm.trans (show _ = some (.bare .ret) from rfl))
  exact ⟨visited, rets rfl, calls rfl⟩

end WordMachine
