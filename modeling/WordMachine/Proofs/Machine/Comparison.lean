import WordMachine.Proofs.Machine.History

/-! Comparisons and the jumps that they decide. The outcome of a comparison is kept in a register, and
what writes no register there cannot come between the comparison and the jump. -/

namespace WordMachine

def Instr.dst? : Instr Reg UInt32 → Option Reg
  | .alu _ _ _ dst | .aluImm _ _ _ dst => some dst
  | .transfer .load reg _ => some reg
  | .cmp .. => some flagReg
  | .transfer .store .. | .jump .. | .bare _ => none

/-- What a condition says of the two sides of a comparison, as unsigned numbers. -/
def Condition.Relates : Condition → UInt8 → UInt8 → Prop
  | .equal, left, right => left.toNat = right.toNat
  | .notEqual, left, right => left.toNat ≠ right.toNat
  | .less, left, right => left.toNat < right.toNat
  | .greater, left, right => right.toNat < left.toNat

instance (condition : Condition) (left right : UInt8) : Decidable (condition.Relates left right) :=
  match condition with
  | .equal => inferInstanceAs (Decidable (_ = _))
  | .notEqual => inferInstanceAs (Decidable (_ ≠ _))
  | .less | .greater => inferInstanceAs (Decidable (_ < _))

namespace Flag

theorem compare_of_lt {left right : UInt8} (below : left.toNat < right.toNat) :
    compare left right = .less :=
  if_pos (UInt8.lt_iff_toNat_lt.2 below)

theorem compare_self (value : UInt8) : compare value value = .equal := by
  rw [compare, if_neg (UInt8.lt_irrefl value), if_pos rfl]

theorem compare_of_gt {left right : UInt8} (above : right.toNat < left.toNat) :
    compare left right = .greater := by
  have apart : left ≠ right := by
    rintro rfl
    exact Nat.lt_irrefl _ above
  rw [compare, if_neg (UInt8.lt_asymm (UInt8.lt_iff_toNat_lt.2 above)), if_neg apart]

end Flag

theorem Condition.holds_compare_iff (condition : Condition) (left right : UInt8) :
    condition.holds (some (Flag.compare left right)) ↔ condition.Relates left right := by
  rcases Nat.lt_trichotomy left.toNat right.toNat with below | same | above
  · rw [Flag.compare_of_lt below]
    cases condition <;> simp [holds, Relates] <;> omega
  · obtain rfl := UInt8.toNat_inj.1 same
    rw [Flag.compare_self]
    cases condition <;> simp [holds, Relates]
  · rw [Flag.compare_of_gt above]
    cases condition <;> simp [holds, Relates] <;> omega

theorem Condition.existsUnique_relates (left right : UInt8) :
    ∃! condition : Condition, condition ≠ .notEqual ∧ condition.Relates left right := by
  apply existsUnique_of_exists_of_unique
  · rcases Nat.lt_trichotomy left.toNat right.toNat with below | same | above
    · exact ⟨.less, by decide, below⟩
    · exact ⟨.equal, by decide, same⟩
    · exact ⟨.greater, by decide, above⟩
  · rintro one other ⟨plain, first⟩ ⟨plain', second⟩
    cases one <;> cases other <;> simp only [Relates, ne_eq, not_true_eq_false] at * <;> omega

namespace Cpu

variable {β : Type} [Bus β]

theorem reg_execute_of_ne {i : Instr Reg UInt32} {r : Reg} (unwritten : i.dst? ≠ some r) (cpu : Cpu)
    (bus : β) : (execute i cpu bus).2.1.reg r = cpu.reg r := by
  have spared : ∀ dst value, i.dst? = some dst → (cpu.setReg dst value).reg r = cpu.reg r := by
    intro dst value writes
    apply reg_setReg_of_ne
    rintro rfl
    exact unwritten writes
  cases i with
  | alu f left right dst => exact spared dst _ rfl
  | aluImm f imm src dst => exact spared dst _ rfl
  | cmp left right => exact spared flagReg _ rfl
  | transfer t reg addr =>
    cases t with
    | store =>
      rw [execute]
      split <;> rfl
    | load =>
      rw [execute]
      split
      · exact spared reg _ rfl
      · rfl
  | jump j target => cases j <;> rfl
  | bare b =>
    cases b with
    | ret =>
      rw [execute]
      split <;> rfl
    | halt | noop => rfl

theorem reg_perform_of_ne {i : Instr Reg UInt32} {r : Reg} (unwritten : i.dst? ≠ some r) (cpu : Cpu)
    (bus : β) : (perform i cpu bus).2.1.reg r = cpu.reg r := by
  obtain ⟨pc, steps, kept⟩ := exists_perform i cpu bus
  rw [kept, ← reg_execute_of_ne unwritten cpu bus]
  rfl

theorem flag?_perform_cmp (left right : Reg) (cpu : Cpu) (bus : β) :
    (perform (.cmp left right) cpu bus).2.1.flag? =
      some (Flag.compare (cpu.reg left) (cpu.reg right)) := by
  have written : (perform (.cmp left right) cpu bus).2.1.reg flagReg =
      (Flag.compare (cpu.reg left) (cpu.reg right)).code :=
    reg_setReg_self cpu flagReg _
  rw [flag?, written, Flag.ofCode?_code]

end Cpu

namespace Machine

variable {β : Type} {program : Program} {m : Machine β}

def written? (program : Program) (m : Machine β) : Option Reg :=
  (m.executed? program).bind Instr.dst?

variable [Bus β]

/-- A conditional jump, were it executed now, would go to its target. -/
def Takes (m : Machine β) (condition : Condition) : Prop :=
  ∀ target, (execute (.jump (.when condition) target) m.cpu m.bus).1 = .ok (.jump target)

theorem takes_iff (condition : Condition) : m.Takes condition ↔ condition.holds m.cpu.flag? := by
  constructor
  · intro takes
    by_contra fails
    have passed := takes 0
    rw [execute, if_neg fails] at passed
    cases passed
  · intro holds target
    rw [execute, if_pos holds]

theorem step_when {condition : Condition} {target : UInt32}
    (executed : m.executed? program = some (.jump (.when condition) target)) :
    (m.Takes condition → Aligned target → (step program m).2.cpu.pc = target) ∧
      (m.Takes condition → ¬Aligned target →
        (step program m).1 = .error (.unaligned m.cpu.pc target)) ∧
      (¬m.Takes condition → (step program m).2.cpu.pc = nextWord m.cpu.pc) := by
  obtain ⟨moved, -⟩ := state_of_executed? executed
  refine ⟨?_, ?_, ?_⟩
  · intro takes aligned
    rw [moved, Cpu.perform, execute, if_pos ((takes_iff condition).1 takes)]
    simp only [Cpu.follow, if_pos aligned]
  · intro takes odd
    obtain ⟨journal, stepped⟩ := step_of_executed? executed
    rw [stepped, perform, execute, if_pos ((takes_iff condition).1 takes)]
    simp only [follow, if_neg odd]
  · intro fails
    rw [moved, Cpu.perform, execute, if_neg (fails ∘ (takes_iff condition).2)]
    rfl

theorem reg_step_of_ne {r : Reg} (unwritten : m.written? program ≠ some r) :
    (step program m).2.cpu.reg r = m.cpu.reg r := by
  cases executed : m.executed? program with
  | none => rw [(state_of_idle executed).1]
  | some i =>
    rw [written?, executed, Option.bind_some] at unwritten
    rw [(state_of_executed? executed).1]
    exact Cpu.reg_perform_of_ne unwritten m.cpu m.bus

theorem reg_after {first last : Nat} (ordered : first ≤ last) {r : Reg}
    (unwritten : ∀ between, first ≤ between → between < last →
      (m.after program between).written? program ≠ some r) :
    (m.after program last).cpu.reg r = (m.after program first).cpu.reg r := by
  apply after_preserves (fun now => now.cpu.reg r = (m.after program first).cpu.reg r) ordered rfl
  intro between early late same
  exact (reg_step_of_ne (unwritten between early late)).trans same

end Machine

/-- A conditional jump is decided by the last comparison, as unsigned numbers, also where the comparison
was of the register that its outcome is kept in. Of the jumps on equal, less and greater just one would
be taken, and the jump on not equal where the one on equal would not. -/
theorem last_comparison_decides_jump {β : Type} [Bus β] (program : Program) (m : Machine β)
    {first last : Nat} (later : first < last) {left right : Reg} {condition : Condition}
    {target : UInt32}
    (compares : (m.after program first).executed? program = some (.cmp left right))
    (unwritten : ∀ between, first < between → between < last →
      (m.after program between).written? program ≠ some flagReg)
    (jumps : (m.after program last).executed? program = some (.jump (.when condition) target)) :
    let compared := (m.after program first).cpu
    let now := m.after program last
    (∀ asked, now.Takes asked ↔ asked.Relates (compared.reg left) (compared.reg right)) ∧
      (∃! asked, asked ≠ .notEqual ∧ now.Takes asked) ∧ (now.Takes .notEqual ↔ ¬now.Takes .equal) ∧
      (now.Takes condition → Aligned target → (m.after program (last + 1)).cpu.pc = target) ∧
      (now.Takes condition → ¬Aligned target →
        (Machine.step program now).1 = .error (.unaligned now.cpu.pc target)) ∧
      (¬now.Takes condition → (m.after program (last + 1)).cpu.pc = nextWord now.cpu.pc) := by
  intro compared now
  -- The flag is all in one register, which nothing has written since.
  have kept : now.cpu.flag? = (m.after program (first + 1)).cpu.flag? := by
    rw [Cpu.flag?, Cpu.flag?, Machine.reg_after later unwritten]
  have flag : now.cpu.flag? = some (Flag.compare (compared.reg left) (compared.reg right)) := by
    rw [kept, Machine.after_succ, (Machine.state_of_executed? compares).1, Cpu.flag?_perform_cmp]
  have decides : ∀ asked, now.Takes asked ↔
      asked.Relates (compared.reg left) (compared.reg right) := by
    intro asked
    rw [Machine.takes_iff, flag, Condition.holds_compare_iff]
  refine ⟨decides, ?_, ?_, ?_⟩
  · simp only [decides]
    exact Condition.existsUnique_relates _ _
  · rw [decides, decides]
    rfl
  · rw [Machine.after_succ]
    exact Machine.step_when jumps

/-- Between the comparison of the flag register and the jump the outcome is stored, in a subroutine. -/
theorem last_comparison_decides_jump_call :
    let program := Program.ofWords [⟨0x0C, 1, 2, 0⟩, ⟨0x12, 0, 0, 12⟩, ⟨0x10, 0, 0, 0⟩,
      ⟨0x0A, 1, 0, 0⟩, ⟨0x0B, 3, 0, 0⟩, .fill 0xFD]
    let m : Machine Bank :=
      ⟨(Cpu.start none {}).setReg 2 7, .blank 1, .fresh none⟩
    (m.after program 5).Takes .less ∧ ¬(m.after program 5).Takes .greater ∧
      (m.after program 6).cpu.pc = 0 := by
  intro program m
  have compares : (m.after program 0).executed? program = some (.cmp 1 2) := by decide
  have unwritten : ∀ between, 0 < between → between < 5 →
      (m.after program between).written? program ≠ some flagReg := by
    intro between early late
    obtain rfl | rfl | rfl | rfl : between = 1 ∨ between = 2 ∨ between = 3 ∨ between = 4 := by omega
    all_goals decide
  have jumps : (m.after program 5).executed? program = some (.jump (.when .less) 0) := by decide
  obtain ⟨decides, -, -, taken, -, -⟩ :=
    last_comparison_decides_jump program m (by decide) compares unwritten jumps
  have less : (m.after program 5).Takes .less := (decides .less).2 (by decide)
  refine ⟨less, ?_, taken less (by decide)⟩
  intro greater
  exact absurd ((decides .greater).1 greater) (by decide)

end WordMachine
