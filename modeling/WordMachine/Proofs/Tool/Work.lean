import WordMachine.Proofs.Files.Lawful
import WordMachine.Tool.Reply

/-! Work on lawful files, taken step by step: what it yields, what it has printed by then, and the files
that it leaves. -/

namespace WordMachine

open FileSystem

variable {σ : Type}

namespace Work

variable {α β : Type} {printed said : String} {files after : σ}

/-- Work on given files, behind what has been printed before. -/
def on (work : Work (StateM σ) α) (printed : String) (files : σ) :
    (Except Failure α × String) × σ :=
  Id.run (StateT.run (StateT.run (ExceptT.run work) printed) files)

theorem on_bind (work : Work (StateM σ) α) (next : α → Work (StateM σ) β) (printed : String)
    (files : σ) : (work >>= next).on printed files =
      match work.on printed files with
      | ((.ok value, said), after) => (next value).on said after
      | ((.error failure, said), after) => ((.error failure, said), after) := by
  simp only [on, ExceptT.run_bind, StateT.run_bind, Id.run_bind]
  rcases (((work.run).run printed).run files).run with ⟨⟨failure | value, said⟩, after⟩ <;> rfl

theorem on_bind_of_ok {work : Work (StateM σ) α} {next : α → Work (StateM σ) β} {value : α}
    (yields : work.on printed files = ((.ok value, said), after)) :
    (work >>= next).on printed files = (next value).on said after := by
  rw [on_bind, yields]

theorem on_bind_of_error {work : Work (StateM σ) α} {next : α → Work (StateM σ) β} {failure : Failure}
    (fails : work.on printed files = ((.error failure, said), after)) :
    (work >>= next).on printed files = ((.error failure, said), after) := by
  rw [on_bind, fails]

theorem mapError_eq_ok_iff {ε ε' : Type} {result : Except ε α} {change : ε → ε'} {value : α} :
    result.mapError change = .ok value ↔ result = .ok value := by
  cases result with
  | error fault => exact ⟨nofun, nofun⟩
  | ok other =>
    change Except.ok other = .ok value ↔ _
    rw [Except.ok.injEq, Except.ok.injEq]

theorem mapError_eq_error_iff {ε ε' : Type} {result : Except ε α} {change : ε → ε'} {failure : ε'} :
    result.mapError change = .error failure ↔ ∃ fault, result = .error fault ∧ change fault = failure := by
  cases result with
  | error fault =>
    change Except.error (change fault) = .error failure ↔ _
    simp only [Except.error.injEq, exists_eq_left']
  | ok value => exact ⟨nofun, nofun⟩

theorem on_require {ε : Type} (message : String) (cause : ε → String) (result : Except ε α)
    (printed : String) (files : σ) : (require message cause result : Work (StateM σ) α).on printed files =
      ((result.mapError fun fault => ⟨message, some (cause fault)⟩, printed), files) := by
  cases result <;> rfl

def outcomeOf : Except Failure Unit → Outcome
  | .ok () => .done
  | .error failure => .failed failure

theorem run_reply {work : Work (StateM σ) Unit} {result : Except Failure Unit}
    (ends : work.on "" files = ((result, said), after)) :
    Id.run (StateT.run work.reply files) = (⟨said, outcomeOf result⟩, after) := by
  rw [reply, StateT.run_bind, Id.run_bind]
  rw [on] at ends
  rw [show Id.run (StateT.run (StateT.run (ExceptT.run work) "") files) = _ from ends]
  cases result <;> rfl

end Work

section Files

variable [FileSystem (StateM σ)]

def FileSystem.HoldsText (files : σ) (path text : List Char) : Prop :=
  ∃ contents, at? files path = .ok contents ∧ textOfBytes contents = .ok text

namespace Work

variable {printed : String} {files after : σ} {path : List Char} {contents : ByteArray}

theorem on_readFile [Lawful σ] (path : List Char) (printed : String) (files : σ) :
    (readFile path : Work (StateM σ) _).on printed files =
      (((at? files path).mapError fun fault =>
        ⟨"reading " ++ String.ofList path, some fault.message⟩, printed), files) := by
  have looked : (liftM (FileSystem.read path : StateM σ _) : Work (StateM σ) _).on printed files =
      ((.ok (at? files path), printed), (reading files path).2) := rfl
  rw [readFile, on_bind_of_ok looked, on_require, Lawful.reading_quiet]

theorem on_readText [Lawful σ] (path : List Char) (printed : String) (files : σ) :
    ∃ result, (readText path : Work (StateM σ) _).on printed files = ((result, printed), files) ∧
      ∀ text, result = .ok text ↔ HoldsText files path text := by
  have looked := on_readFile path printed files
  rw [readText]
  cases found : at? files path with
  | error fault =>
    rw [found] at looked
    exact ⟨_, on_bind_of_error looked, by simp [HoldsText, found]⟩
  | ok contents =>
    rw [found] at looked
    rw [on_bind_of_ok looked, on_require]
    refine ⟨_, rfl, fun text => ?_⟩
    simp only [HoldsText, found, Except.ok.injEq, exists_eq_left', mapError_eq_ok_iff]

theorem on_writeFile (path : List Char) (contents : ByteArray) (printed : String) (files : σ) :
    (writeFile path contents : Work (StateM σ) _).on printed files =
      (((writing files path contents).1.mapError fun fault =>
        ⟨"writing " ++ String.ofList path, some fault.message⟩, printed),
        (writing files path contents).2) := by
  have wrote : (liftM (FileSystem.write path contents : StateM σ _) : Work (StateM σ) _).on printed
      files = ((.ok (writing files path contents).1, printed), (writing files path contents).2) := rfl
  rw [writeFile, on_bind_of_ok wrote, on_require]

end Work

end Files

end WordMachine
