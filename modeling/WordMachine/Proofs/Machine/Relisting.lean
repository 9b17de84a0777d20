import WordMachine.Proofs.Isa.Decoding
import WordMachine.Proofs.Machine.Fetch
import WordMachine.Proofs.Machine.Guise
import WordMachine.Proofs.Source.Listing

/-! Images that hold the same instructions. What a word stands for is all that a machine gets of it,
except for the bytes that a trace shows, so an image does what its reassembled listing does. -/

namespace WordMachine

open Text

/-- Two programs have the same instructions: at every address both have a word that stands for the same
instruction, or neither has a word. -/
def SameInstructions (p q : Program) : Prop :=
  ∀ pc, p.fetch? pc = none ∧ q.fetch? pc = none ∨ ∃ w v i, p.fetch? pc = some w ∧
    q.fetch? pc = some v ∧ w.decode? = some i ∧ v.decode? = some i

theorem SameInstructions.ofWords {words others : List Word} {code : List (Instr Reg UInt32)}
    (first : words.map Word.decode? = code.map some) (second : others.map Word.decode? = code.map some) :
    SameInstructions (.ofWords words) (.ofWords others) := by
  intro pc
  by_cases aligned : Aligned pc
  · have here := aligned.eq_four_mul
    have mine := congrArg (·[pc.toNat / 4]?) first
    have theirs := congrArg (·[pc.toNat / 4]?) second
    simp only [List.getElem?_map] at mine theirs
    rw [Program.fetch?_ofWords words here, Program.fetch?_ofWords others here]
    cases place : code[pc.toNat / 4]? with
    | none =>
      rw [place] at mine theirs
      exact .inl ⟨Option.map_eq_none_iff.1 mine, Option.map_eq_none_iff.1 theirs⟩
    | some i =>
      rw [place] at mine theirs
      obtain ⟨w, found, decoded⟩ := Option.map_eq_some_iff.1 mine
      obtain ⟨v, again, same⟩ := Option.map_eq_some_iff.1 theirs
      exact .inr ⟨w, v, i, found, again, decoded, same⟩
  · exact .inl ⟨Program.fetch?_of_not_aligned _ aligned, Program.fetch?_of_not_aligned _ aligned⟩

def Event.blur : Event → Event
  | .fetch pc _ => .fetch pc .padding
  | event => event

def Journal.blur (journal : Journal) : Journal :=
  ⟨journal.newestFirst.map Event.blur, journal.room⟩

theorem Journal.note?_blur (journal : Journal) (wanted : Bool) (event : Event) :
    journal.blur.note? wanted event.blur = (journal.note? wanted event).map blur :=
  Journal.note?_map Event.blur journal wanted event

def Guise.blurred : Guise where
  cpu := id
  event := Event.blur
  dump_cpu _ := rfl
  move _ _ := rfl
  count _ := rfl
  registers _ := rfl
  memory _ := rfl

namespace Machine

variable {β : Type}

def blur (m : Machine β) : Machine β := { m with journal := m.journal.blur }

theorem cpu_blur (m : Machine β) : m.blur.cpu = m.cpu := rfl

variable [Bus β] {p q : Program}

theorem perform_blur (m : Machine β) (i : Instr Reg UInt32) :
    m.blur.perform i = (m.perform i).map id blur :=
  perform_under .blurred m rfl

theorem conclude_blur (m : Machine β) (exit : Exit) :
    m.blur.conclude exit = (m.conclude exit).map id blur :=
  conclude_under .blurred m exit

theorem step_alike (same : SameInstructions p q) {m t : Machine β} (alike : t.blur = m.blur) :
    (step q t).map id blur = (step p m).map id blur := by
  obtain ⟨cpu, bus, journal⟩ := m
  obtain ⟨cpu', bus', journal'⟩ := t
  obtain ⟨rfl, rfl, shown⟩ := Machine.mk.inj alike
  rcases same cpu'.pc with ⟨mine, theirs⟩ | ⟨w, v, i, mine, theirs, decoded, again⟩
  · simp only [step, mine, theirs]
    exact congrArg (Prod.mk _) alike
  · -- The fetches show different words, so the two journals are compared without them.
    have written := Journal.note?_blur journal cpu'.dump.trace (.fetch cpu'.pc w)
    have rewritten := Journal.note?_blur journal' cpu'.dump.trace (.fetch cpu'.pc v)
    rw [show journal'.blur = journal.blur from shown] at rewritten
    have both := written.symm.trans rewritten
    simp only [step, mine, theirs]
    cases first : journal.note? cpu'.dump.trace (.fetch cpu'.pc w) with
    | none =>
      rw [first] at both
      rw [Option.map_eq_none_iff.1 both.symm]
      exact congrArg (Prod.mk _) alike
    | some kept =>
      rw [first] at both
      obtain ⟨other, second, blurred⟩ := Option.map_eq_some_iff.1 both.symm
      rw [second]
      simp only [decoded, again]
      rw [← perform_blur, ← perform_blur, blur, blur, blurred]

theorem calls_alike (same : SameInstructions p q) (n : Nat) {m t : Machine β}
    (alike : t.blur = m.blur) : (calls q n t).map id blur = (calls p n m).map id blur := by
  induction n generalizing m t with
  | zero => exact congrArg (Prod.mk _) alike
  | succ n ih =>
    obtain ⟨outcome, next⟩ := Prod.mk.inj (step_alike same alike)
    have rest := Prod.mk.inj (ih next)
    rw [calls, calls]
    exact Prod.ext (congrArg₂ List.cons outcome rest.1) rest.2

theorem runWithin_alike (same : SameInstructions p q) (fuel : Nat) {m t : Machine β}
    (alike : t.blur = m.blur) :
    (runWithin q fuel t).map (Prod.map id blur) = (runWithin p fuel m).map (Prod.map id blur) := by
  induction fuel generalizing m t with
  | zero => rfl
  | succ fuel ih =>
    have cpu : t.cpu = m.cpu := by rw [← cpu_blur, alike, cpu_blur]
    have step := step_alike same alike
    rw [runWithin, runWithin, cpu]
    cases limitReached? m.cpu with
    | some limit => exact congrArg (fun last => some (_, last)) alike
    | none =>
      dsimp only
      generalize Machine.step q t = theirs at step
      generalize Machine.step p m = mine at step
      obtain ⟨outcome, after⟩ := mine
      obtain ⟨result, later⟩ := theirs
      obtain ⟨rfl, blurred⟩ : result = outcome ∧ later.blur = after.blur := Prod.mk.inj step
      rcases result with trap | _ | exit
      · exact congrArg (fun last => some (_, last)) blurred
      · exact ih blurred
      · have ended : (later.conclude exit).map id blur = (after.conclude exit).map id blur := by
          rw [← conclude_blur, ← conclude_blur, blurred]
        exact congrArg some ended

theorem run_alike (same : SameInstructions p q) {m t : Machine β} (alike : t.blur = m.blur) :
    (run q t).map id blur = (run p m).map id blur := by
  have within := runWithin_alike same horizon alike
  rw [run, run]
  cases mine : runWithin p horizon m with
  | none =>
    rw [mine] at within
    rw [Option.map_eq_none_iff.1 within]
    exact congrArg (Prod.mk _) alike
  | some ending =>
    rw [mine] at within
    obtain ⟨other, theirs, blurred⟩ := Option.map_eq_some_iff.1 within
    rw [theirs]
    exact blurred

end Machine

/-- An image of instructions has a listing, which is assembled as an image of as many words with the
same instructions in their places. Every machine does the same with both, in any number of steps and in
a run of any length, and differs only in the bytes of words that its journal shows. -/
theorem relisted_runs_alike {program : Program}
    (decodable : ∀ w ∈ program.contents, w.decode? ≠ none) :
    ∃ listing assembly relisted, disassemble? .empty program.contents = some listing ∧
      assemble (joinLines listing) = .ok assembly ∧
      Program.ofBytes assembly.bytes.toArray = .ok relisted ∧
      relisted.image.bytes.size = program.image.bytes.size ∧
      relisted.contents.map Word.decode? = program.contents.map Word.decode? ∧
      ∀ {β : Type} [Bus β] (m : Machine β),
        (∀ n, (m.calls relisted n).map id Machine.blur = (m.calls program n).map id Machine.blur) ∧
        (∀ fuel, (m.runWithin relisted fuel).map (Prod.map id Machine.blur) =
          (m.runWithin program fuel).map (Prod.map id Machine.blur)) ∧
        (m.run relisted).map id Machine.blur = (m.run program).map id Machine.blur := by
  obtain ⟨code, fits, decoded⟩ := Word.exists_of_decode? decodable
  have encoded := map_decode?_encode fits
  have same : SameInstructions program (.ofWords (code.map Instr.encode)) :=
    program.ofWords_contents ▸ .ofWords decoded encoded
  refine ⟨code.map (Instr.text .empty), ⟨code.map Instr.encode, .empty⟩,
    .ofWords (code.map Instr.encode), disassemble?_of_decoded .empty decoded, assemble_listing fits,
    Program.ofBytes_wordBytes _, ?_, ?_, ?_⟩
  · have lengths := congrArg List.length decoded
    simp only [List.length_map] at lengths
    rw [← program.ofWords_contents, Program.size_ofWords, Program.size_ofWords, List.length_map, lengths]
  · rw [Program.contents_ofWords, encoded, decoded]
  · intro β _ m
    exact ⟨fun n => Machine.calls_alike same n rfl, fun fuel => Machine.runWithin_alike same fuel rfl,
      Machine.run_alike same rfl⟩

theorem relisted_runs_alike_spare :
    ∃ listing assembly relisted, disassemble? .empty [.spare, ⟨0x0C, 2, 3, 7⟩] = some listing ∧
      assemble (joinLines listing) = .ok assembly ∧
      Program.ofBytes assembly.bytes.toArray = .ok relisted ∧
      relisted.contents.map Word.decode? = [some (.bare .noop), some (.cmp 2 3)] ∧
      ∀ m : Machine Bank, (m.run relisted).map id Machine.blur =
        (m.run (.ofWords [.spare, ⟨0x0C, 2, 3, 7⟩])).map id Machine.blur := by
  have decodable : ∀ w ∈ (Program.ofWords [.spare, ⟨0x0C, 2, 3, 7⟩]).contents, w.decode? ≠ none := by
    decide
  obtain ⟨listing, assembly, relisted, listed, assembled, loaded, -, same, alike⟩ :=
    relisted_runs_alike decodable
  exact ⟨listing, assembly, relisted, listed, assembled, loaded, same, fun m => (alike m).2.2⟩

end WordMachine
