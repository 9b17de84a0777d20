import WordMachine.Proofs.Json.Document
import WordMachine.Proofs.Machine.Observation

/-! Runs as they are told: as a text while they go on, or as a document at their end. Machines that differ
in what they report make the same rounds, and the text of a run can be written from its document. -/

namespace WordMachine

open Json

namespace Machine

variable {program : Program}

theorem isSome_runWithin_watched {fuel : Nat} {dump : Dump} {m other : Machine Bank}
    (free : m.journal.room = none) (also : other.journal.room = none)
    (cpu : other.cpu = m.cpu.watched dump) (bus : other.bus = m.bus)
    (ended : (runWithin program fuel m).isSome) : (runWithin program fuel other).isSome := by
  induction fuel generalizing m other with
  | zero => cases ended
  | succ fuel ih =>
    have limit : limitReached? other.cpu = limitReached? m.cpu := by
      rw [cpu]
      rfl
    rw [runWithin] at ended ⊢
    rw [limit]
    cases reached : limitReached? m.cpu with
    | some limit => rfl
    | none =>
      rw [reached] at ended
      dsimp only at ended ⊢
      obtain ⟨silent, room⟩ := step_of_boundless program free
      generalize step program m = taken at ended silent room
      obtain ⟨outcome, next⟩ := taken
      have moved : other.cpu.step program other.bus = (outcome, next.cpu.watched dump, next.bus) := by
        rw [cpu, bus, Cpu.step_watched, silent]
        rfl
      obtain ⟨journal, unlimited, stepped⟩ := exists_step_eq also moved
      rw [stepped]
      obtain trap | _ | exit := outcome
      · rfl
      · exact ih room unlimited rfl rfl ended
      · rfl

/-- Machines in the same state make the same rounds and come to the same end, also where only the horizon
ends their runs. Each journal has what was asked for. -/
theorem exists_run_reporting (program : Program) (cpu : Cpu) (bank : Bank) :
    ∃ (rounds : List Round) (result : Except Trap Exit) (last : Cpu) (memory : Bank),
      (∀ exit, result = .ok exit →
        Course program (cpu.watched {}) bank rounds result (last.watched {}) memory) ∧
      ∀ dump, ∃ journal : Journal,
        (reporting cpu bank dump []).run program = (result, ⟨last.watched dump, memory, journal⟩) ∧
        journal.events = rounds.flatMap (Round.events dump) ++ endEvents dump result last memory := by
  have alike : ∀ dump other, (runWithin program horizon (reporting cpu bank dump [])).isSome →
      (runWithin program horizon (reporting cpu bank other [])).isSome :=
    fun dump other => isSome_runWithin_watched rfl rfl rfl rfl
  rcases ended : runWithin program horizon (reporting cpu bank {} []) with _ | ⟨result, last⟩
  · refine ⟨[], .error (.stepLimit horizon), cpu, bank, nofun, fun dump => ⟨⟨[], none⟩, ?_, rfl⟩⟩
    have unended : runWithin program horizon (reporting cpu bank dump []) = none := by
      rw [← Option.not_isSome_iff_eq_none]
      intro some
      have first := alike dump {} some
      rw [ended] at first
      cases first
    rw [run, unended]
    rfl
  · obtain ⟨rounds, course, -⟩ := course_of_runWithin rfl ended
    refine ⟨rounds, result, last.cpu, last.bus, fun _ _ => course.watched {}, fun dump => ?_⟩
    have some := alike {} dump (by rw [ended]; rfl)
    obtain ⟨⟨found, final⟩, reran⟩ := Option.isSome_iff_exists.1 some
    obtain ⟨others, again, written⟩ := course_of_runWithin rfl reran
    obtain ⟨rfl, rfl, cpus, buses⟩ := (course.watched dump).unique again
    refine ⟨final.journal, ?_, ?_⟩
    · rw [run, reran, Option.getD_some, ← buses]
      exact congrArg (fun cpu => (found, (⟨cpu, final.bus, final.journal⟩ : Machine Bank))) cpus
    · rw [cpus, buses] at written
      exact written

end Machine

structure RunEnd where
  exit : List Char
  pc : UInt32
  steps : Nat
  registers : List UInt8

/-- What a document says about a run: its end, the memory after it, and the words that were fetched. -/
structure RunDocument extends RunEnd where
  memory : Option (List UInt8)
  trace : Option (List (UInt32 × Word))

def Word.ofJson? (json : Json) : Option Word :=
  match json.list? byte? with
  | some [b0, b1, b2, b3] => some ⟨b0, b1, b2, b3⟩
  | _ => none

def RunReport.fetchOfJson? (json : Json) : Option (UInt32 × Word) := do
  let pc ← (json.value? "pc").bind word?
  let w ← (json.value? "bytes").bind Word.ofJson?
  pure (pc, w)

def RunEnd.ofJson? (json : Json) : Option RunEnd := do
  let exit ← (json.value? "exit").bind string?
  let pc ← (json.value? "pc").bind word?
  let steps ← (json.value? "steps").bind number?
  let registers ← (json.value? "registers").bind (list? byte?)
  pure ⟨exit, pc, steps, registers⟩

def RunDocument.ofJson? (json : Json) : Option RunDocument := do
  let finish ← RunEnd.ofJson? json
  let memory ← optional? (list? byte?) (json.value? "memory")
  let trace ← optional? (list? RunReport.fetchOfJson?) (json.value? "trace")
  pure ⟨finish, memory, trace⟩

namespace RunDocument

def fetchLine (fetch : UInt32 × Word) : String :=
  toString fetch.1.toNat ++ ": " ++ toString fetch.2.b0.toNat ++ ", " ++ toString fetch.2.b1.toNat
    ++ ", " ++ toString fetch.2.b2.toNat ++ ", " ++ toString fetch.2.b3.toNat

def numbers (values : List UInt8) : String :=
  " ".intercalate (values.map fun value => toString value.toNat)

def lines (document : RunDocument) : List String :=
  (document.trace.getD []).map fetchLine ++ ["registers: " ++ numbers document.registers]
    ++ document.memory.toList.map fun cells => "memory: " ++ numbers cells

/-- A run as text, written from its document. -/
def text (document : RunDocument) : String :=
  String.join (document.lines.map fun line => line ++ "\n")

end RunDocument

namespace RunReport

def document (report : RunReport) : RunDocument where
  exit := report.exit.name.toList
  pc := report.cpu.pc
  steps := report.cpu.steps
  registers := report.cpu.regs.toList
  memory := report.memory.map Array.toList
  trace := report.trace

theorem fetchOfJson?_fetchJson (fetch : UInt32 × Word) : fetchOfJson? (fetchJson fetch) = some fetch := by
  have pc : (fetchJson fetch).value? "pc" = some (word fetch.1) := rfl
  have four : (fetchJson fetch).value? "bytes" = some (bytes fetch.2.toList) := rfl
  simp only [fetchOfJson?, pc, four, Option.bind_some, word?_word, Word.ofJson?, list?_bytes]
  rfl

theorem endOfJson?_toJson (report : RunReport) :
    RunEnd.ofJson? report.toJson = some report.document.toRunEnd := by
  have exit : report.toJson.value? "exit" = some (Json.text report.exit.name) := rfl
  have pc : report.toJson.value? "pc" = some (word report.cpu.pc) := rfl
  have steps : report.toJson.value? "steps" = some (.number report.cpu.steps) := rfl
  have registers : report.toJson.value? "registers" = some (bytes report.cpu.regs.toList) := rfl
  simp only [RunEnd.ofJson?, exit, pc, steps, registers, Option.bind_some, word?_word, list?_bytes]
  rfl

theorem ofJson?_toJson (report : RunReport) :
    RunDocument.ofJson? report.toJson = some report.document := by
  obtain ⟨exit, cpu, memory, trace⟩ := report
  have cells : (RunReport.toJson ⟨exit, cpu, memory, trace⟩).value? "memory" =
      memory.map fun cells => bytes cells.toList := by
    cases memory <;> cases trace <;> rfl
  have fetches : (RunReport.toJson ⟨exit, cpu, memory, trace⟩).value? "trace" =
      trace.map fun fetches => .array (fetches.map fetchJson) := by
    cases memory <;> cases trace <;> rfl
  have read := list?_array_self fetchOfJson?_fetchJson
  rw [RunDocument.ofJson?, endOfJson?_toJson, cells, fetches]
  cases memory <;> cases trace <;> simp [optional?, list?_bytes, read, document]

end RunReport

theorem Event.spaced_eq (values : List UInt8) : spaced values = RunDocument.numbers values := rfl

theorem fetchLine_eq (fetch : UInt32 × Word) :
    RunDocument.fetchLine fetch = (Event.fetch fetch.1 fetch.2).line := by
  simp [Event.line, RunDocument.fetchLine, Word.toList, String.append_assoc]

theorem flatMap_events (rounds : List Round) {dump : Dump} (aside : dump.regsEachStep = false) :
    rounds.flatMap (Round.events dump) =
      if dump.trace then rounds.map fun round => .fetch round.pc round.word else [] := by
  have each (round : Round) : round.events dump =
      if dump.trace then [.fetch round.pc round.word] else [] := by
    simp [Round.events, Dump.between, aside]
  rw [List.flatMap_congr fun round _ => each round]
  cases dump.trace <;> simp [List.map_eq_flatMap]

theorem Journal.text_eq {journal : Journal} {trace : Bool} {rounds : List Round} {exit : Exit}
    {cpu : Cpu} {bank : Bank}
    (written : journal.events = rounds.flatMap (Round.events ⟨trace, false, true, true⟩) ++
      endEvents ⟨trace, false, true, true⟩ (.ok exit) cpu bank) :
    journal.text = (RunReport.document ⟨exit, cpu, some bank.cells,
      if trace then some (rounds.map fun round => (round.pc, round.word)) else none⟩).text := by
  have ended : endEvents ⟨trace, false, true, true⟩ (.ok exit) cpu bank =
    [.registers cpu.regs, .memory bank.cells] := rfl
  rw [text, written, flatMap_events rounds rfl, ended, RunDocument.text, RunDocument.lines]
  cases trace with
  | true => simp [RunReport.document, fetchLine_eq, Event.line, Event.spaced_eq, Function.comp_def]
  | false => simp [RunReport.document, Event.line, Event.spaced_eq]

end WordMachine
