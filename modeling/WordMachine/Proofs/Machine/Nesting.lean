import WordMachine.Proofs.Machine.History

/-! Calls and their returns. An open call stays where it is on the return stack, whatever is called and
left above it, until a return takes it off. -/

namespace WordMachine

namespace Cpu

variable {β : Type} [Bus β]

theorem pc_perform_ret {cpu : Cpu} {call : UInt32} {outer : List UInt32}
    (opened : cpu.returns = call :: outer) (aligned : Aligned call) (bus : β) :
    (perform (.bare .ret) cpu bus).2.1.pc = nextWord call := by
  simp only [perform, execute, opened, follow, if_pos aligned.nextWord]

theorem suffix_returnsAfter {cpu : Cpu} {call : UInt32} {outer : List UInt32}
    (opened : call :: outer <:+ cpu.returns) (i : Instr Reg UInt32) :
    call :: outer <:+ cpu.returnsAfter i ∨ i = .bare .ret ∧ cpu.returns = call :: outer := by
  cases i with
  | alu | aluImm | transfer | cmp => exact .inl opened
  | jump j target =>
    cases j with
    | always | when => exact .inl opened
    | call => exact .inl (opened.trans (List.suffix_cons cpu.pc cpu.returns))
  | bare b =>
    cases b with
    | halt | noop => exact .inl opened
    | ret =>
      obtain ⟨inner, stacked⟩ := opened
      cases inner with
      | nil => exact .inr ⟨rfl, stacked.symm⟩
      | cons newest inner =>
        -- What stands above the call is taken off first.
        left
        rw [returnsAfter, ← stacked]
        exact List.suffix_append inner (call :: outer)

end Cpu

namespace Machine

variable {β : Type} [Bus β] {program : Program} {m : Machine β}

theorem suffix_step (program : Program) {call : UInt32} {outer : List UInt32}
    (aligned : Aligned call) (opened : call :: outer <:+ m.cpu.returns) :
    call :: outer <:+ (step program m).2.cpu.returns ∨
      m.executed? program = some (.bare .ret) ∧ (step program m).2.cpu.returns = outer ∧
        (step program m).2.cpu.pc = nextWord call := by
  cases executed : m.executed? program with
  | none =>
    rw [(state_of_idle executed).1]
    exact .inl opened
  | some i =>
    rw [(state_of_executed? executed).1, Cpu.returns_perform]
    rcases Cpu.suffix_returnsAfter opened i with kept | ⟨rfl, newest⟩
    · exact .inl kept
    · refine .inr ⟨rfl, ?_, Cpu.pc_perform_ret newest aligned m.bus⟩
      rw [Cpu.returnsAfter, newest, List.tail_cons]

/-- An open call stays where it is as long as the return stack is longer than below it. -/
theorem suffix_after {call : UInt32} {outer : List UInt32} (aligned : Aligned call)
    {first last : Nat} (ordered : first ≤ last)
    (opened : call :: outer <:+ (m.after program first).cpu.returns)
    (deeper : ∀ between, first ≤ between → between < last →
      outer.length < (m.after program (between + 1)).cpu.returns.length) :
    call :: outer <:+ (m.after program last).cpu.returns := by
  apply after_preserves (fun m => call :: outer <:+ m.cpu.returns) ordered opened
  intro between early late stacked
  rcases suffix_step program aligned stacked with kept | ⟨-, taken, -⟩
  · exact kept
  · -- After its own return the stack would be no longer than below the call.
    have longer := deeper between early late
    rw [after_succ, taken] at longer
    exact absurd longer (Nat.lt_irrefl _)

end Machine

/-- Whatever a call calls, loops through and returns from in its turn, the first step that brings the
return stack back to its height before the call is a return. It leaves the stack as the call found it,
entry by entry, and goes on behind the call. -/
theorem first_step_below_call_returns {β : Type} [Bus β] (program : Program) (m : Machine β)
    {first last : Nat} (later : first < last) {target : UInt32}
    (calls : (m.after program first).executed? program = some (.jump .call target))
    (deeper : ∀ between, first < between → between < last →
      (m.after program first).cpu.returns.length <
        (m.after program (between + 1)).cpu.returns.length)
    (shallow : (m.after program (last + 1)).cpu.returns.length ≤
      (m.after program first).cpu.returns.length) :
    (m.after program last).executed? program = some (.bare .ret) ∧
      (m.after program (last + 1)).cpu.returns = (m.after program first).cpu.returns ∧
      (m.after program (last + 1)).cpu.pc = (m.after program first).cpu.pc + 4 := by
  have aligned := Machine.aligned_of_executed? calls
  have pushed : (m.after program (first + 1)).cpu.returns =
      (m.after program first).cpu.pc :: (m.after program first).cpu.returns := by
    rw [Machine.after_succ, (Machine.state_of_executed? calls).1, Cpu.returns_perform]
    rfl
  have opened := Machine.suffix_after aligned later (pushed ▸ List.suffix_refl _) deeper
  rw [Machine.after_succ] at shallow ⊢
  rcases Machine.suffix_step program aligned opened with kept | returned
  · have longer := kept.length_le
    rw [List.length_cons] at longer
    omega
  · exact returned

theorem first_step_below_call_returns_nested :
    let program := Program.ofWords
      [⟨0x12, 0, 0, 8⟩, .fill 0xFE, ⟨0x12, 0, 0, 16⟩, .fill 0xFD, .fill 0xFD]
    let m : Machine Bank := ⟨{ Cpu.start none {} with returns := [64] }, ⟨#[]⟩, .fresh none⟩
    (m.after program 2).cpu.returns = [8, 0, 64] ∧
      (m.after program 3).executed? program = some (.bare .ret) ∧
      (m.after program 4).cpu.returns = [64] ∧ (m.after program 4).cpu.pc = 4 := by
  intro program m
  have called : (m.after program 0).executed? program = some (.jump .call 8) := by decide
  have deeper : ∀ between, 0 < between → between < 3 →
      [64].length < (m.after program (between + 1)).cpu.returns.length := by
    intro between early late
    obtain rfl | rfl : between = 1 ∨ between = 2 := by omega
    · decide
    · decide
  exact ⟨by decide, first_step_below_call_returns program m (by decide) called deeper (by decide)⟩

end WordMachine
