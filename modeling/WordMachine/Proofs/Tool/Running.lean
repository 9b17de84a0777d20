import WordMachine.Proofs.Machine.Fetch
import WordMachine.Proofs.Machine.Reports
import WordMachine.Proofs.Tool.Work
import WordMachine.Tool.Run

/-! The two formats of a run. They fail alike; where they do not, the text of a run is the one that its
document gives, and what the document says about the end does not depend on what else was asked for. -/

namespace WordMachine.Tool

open FileSystem

namespace RunRequest

theorem exists_run (maxSteps : Option Nat) (program : Program) :
    ∃ (rounds : List Round) (result : Except Trap Exit) (last : Cpu) (memory : Bank),
      (∀ exit, result = .ok exit → Course program (.start maxSteps {}) (.blank addressSpace) rounds result
        (last.watched {}) memory) ∧
      ∀ (request : RunRequest) dump, request.maxSteps = maxSteps → ∃ journal : Journal,
        (request.machine dump).run program = (result, ⟨last.watched dump, memory, journal⟩) ∧
        journal.events = rounds.flatMap (Round.events dump) ++ endEvents dump result last memory := by
  obtain ⟨rounds, result, last, memory, course, runs⟩ :=
    Machine.exists_run_reporting program (.start maxSteps {}) (.blank addressSpace)
  refine ⟨rounds, result, last, memory, course, ?_⟩
  rintro request dump rfl
  exact runs dump

end RunRequest

def runOutcome : Except Trap Exit → Outcome
  | .ok _ => .done
  | .error trap => .failed ⟨trap.message, trapCause? trap⟩

def RunRequest.reportOf (request : RunRequest) (exit : Exit) (m : Machine Bank) : RunReport where
  exit := exit
  cpu := m.cpu
  memory := if request.dump = .all then some m.bus.cells else none
  trace := if request.trace then some m.journal.fetches else none

theorem fetches_of_written {journal : Journal} {trace : Bool} {rounds : List Round}
    {result : Except Trap Exit} {last : Cpu} {memory : Bank}
    (written : journal.events = rounds.flatMap (Round.events { trace := trace }) ++
      endEvents { trace := trace } result last memory) :
    (if trace then some journal.fetches else none) =
      if trace then some (rounds.map fun round => (round.pc, round.word)) else none := by
  have fetches : journal.fetches =
      if trace then rounds.map fun round => (round.pc, round.word) else [] :=
    congrArg Recording.fetches (recording_of_events written)
  cases trace with
  | true => exact congrArg some fetches
  | false => rfl

theorem RunRequest.text_eq_document (request : RunRequest) (whole : request.dump = .all)
    {rounds : List Round} {exit : Exit} {last : Cpu} {memory : Bank} {text journal : Journal}
    (told : text.events = rounds.flatMap (Round.events request.dumpFlags) ++
      endEvents request.dumpFlags (.ok exit) last memory)
    (written : journal.events = rounds.flatMap (Round.events { trace := request.trace }) ++
      endEvents { trace := request.trace } (.ok exit) last memory) :
    text.text = (request.reportOf exit
      ⟨last.watched { trace := request.trace }, memory, journal⟩).document.text := by
  have flags : request.dumpFlags = ⟨request.trace, false, true, true⟩ := by rw [dumpFlags, whole]
  rw [flags] at told
  rw [Journal.text_eq told, reportOf, if_pos whole, fetches_of_written written]
  rfl

structure RunAccount where
  finish : RunEnd
  cells : List UInt8
  fetches : List (UInt32 × Word)

def silent (maxSteps : Option Nat) : Machine Bank :=
  ⟨.start maxSteps {}, .blank addressSpace, .fresh none⟩

def endOf (exit : Exit) (last : Cpu) : RunEnd where
  exit := match exit with
    | .halted => "Halted".toList
    | .endOfImage => "EndOfImage".toList
  pc := last.pc
  steps := last.steps
  registers := last.regs.toList

section Files

variable {σ : Type} [FileSystem (StateM σ)]

/-- What the run of a file comes to, whatever is to be reported of it: a failure, if the file is not there, is
no image or traps, or else the account of a run of the silent machine. -/
inductive RunComesTo (files : σ) (path : List Char) (maxSteps : Option Nat) :
    Except Failure RunAccount → Prop
  | unread {fault : FileFault} (unread : at? files path = .error fault) :
    RunComesTo files path maxSteps (.error ⟨"reading " ++ String.ofList path, some fault.message⟩)
  | uneven {contents : ByteArray} (found : at? files path = .ok contents)
    (uneven : contents.data.size % 4 ≠ 0) : RunComesTo files path maxSteps
      (.error ⟨"amount of bytes (" ++ toString contents.data.size ++ ") is not divisible by four", none⟩)
  | trapped {contents : ByteArray} {program : Program} {trap : Trap} {last : Machine Bank}
    (found : at? files path = .ok contents) (image : program.image.bytes = contents.data)
    (ran : (silent maxSteps).run program = (.error trap, last)) :
    RunComesTo files path maxSteps (.error ⟨trap.message, trapCause? trap⟩)
  | exited {contents : ByteArray} {program : Program} {rounds : List Round} {exit : Exit}
    {last : Machine Bank} (found : at? files path = .ok contents)
    (image : program.image.bytes = contents.data)
    (ran : (silent maxSteps).run program = (.ok exit, last))
    (course : Course program (.start maxSteps {}) (.blank addressSpace) rounds (.ok exit) last.cpu
      last.bus) :
    RunComesTo files path maxSteps (.ok ⟨endOf exit last.cpu, last.bus.cells.toList,
      rounds.map fun round => (round.pc, round.word)⟩)

def RunRequest.answer (request : RunRequest) (files : σ) : Reply × σ :=
  Id.run (StateT.run (runFile request).reply files)

variable [Lawful σ] {request : RunRequest} {files : σ}

theorem answer_of_unread {fault : FileFault} (unread : at? files request.input = .error fault) :
    request.answer files =
      (⟨"", .failed ⟨"reading " ++ String.ofList request.input, some fault.message⟩⟩, files) := by
  have looked := Work.on_readFile request.input "" files
  rw [unread] at looked
  exact Work.run_reply (Work.on_bind_of_error looked)

section Read

variable {contents : ByteArray} (found : at? files request.input = .ok contents)

include found

theorem on_runFile_of_found : (runFile request : Work (StateM σ) Unit).on "" files =
    Work.on (match Program.ofBytes contents.data with
      | .error fault => Work.fail fault.message none
      | .ok program =>
        match request.format with
        | .text => do
          Work.say (request.textRun program).1
          match (request.textRun program).2 with
          | none => pure ()
          | some trap => Work.fail trap.message (trapCause? trap)
        | .json =>
          match request.report program with
          | .error trap => Work.fail trap.message (trapCause? trap)
          | .ok report => Work.say (String.ofList (report.toJson.pretty ++ ['\n']))) "" files := by
  have looked := Work.on_readFile request.input "" files
  rw [found] at looked
  exact Work.on_bind_of_ok looked

theorem answer_of_partial {fault : PartialWord} (broken : Program.ofBytes contents.data = .error fault) :
    request.answer files = (⟨"", .failed ⟨fault.message, none⟩⟩, files) := by
  have failed := on_runFile_of_found found
  rw [broken] at failed
  exact Work.run_reply failed

variable {program : Program} (image : Program.ofBytes contents.data = .ok program)
  {m : Machine Bank}

include image

theorem answer_text (asked : request.format = .text) {result : Except Trap Exit}
    (ran : (request.machine request.dumpFlags).run program = (result, m)) :
    request.answer files = (⟨m.journal.text, runOutcome result⟩, files) := by
  have done := on_runFile_of_found found
  rw [image, asked] at done
  cases result with
  | error trap =>
    have text : request.textRun program = (m.journal.text, some trap) := by
      rw [RunRequest.textRun, ran]
    simp only [text] at done
    exact Work.run_reply done
  | ok exit =>
    have text : request.textRun program = (m.journal.text, none) := by
      rw [RunRequest.textRun, ran]
    simp only [text] at done
    exact Work.run_reply done

theorem answer_json_of_trap (asked : request.format = .json) {trap : Trap}
    (trapped : (request.machine { trace := request.trace }).run program = (.error trap, m)) :
    request.answer files = (⟨"", runOutcome (.error trap)⟩, files) := by
  have done := on_runFile_of_found found
  have report : request.report program = .error trap := by rw [RunRequest.report, trapped]
  rw [image, asked] at done
  simp only [report] at done
  exact Work.run_reply done

theorem answer_json_of_exit (asked : request.format = .json) {exit : Exit}
    (exited : (request.machine { trace := request.trace }).run program = (.ok exit, m)) :
    request.answer files =
      (⟨String.ofList ((request.reportOf exit m).toJson.pretty ++ ['\n']), .done⟩, files) := by
  have done := on_runFile_of_found found
  have report : request.report program = .ok (request.reportOf exit m) := by
    rw [RunRequest.report, exited]
    rfl
  rw [image, asked] at done
  simp only [report] at done
  exact Work.run_reply done

end Read

/-- Whatever a run is to report and in whichever format, it fails with the same message or ends well. Where
it ends well, every document has the same exit, program counter, steps and registers, and the words that
were fetched and the memory just if they were asked for; and the text that shows the memory is the one that
the document gives. -/
theorem run_formats_agree (path : List Char) (maxSteps : Option Nat) (files : σ) :
    ∃ result, RunComesTo files path maxSteps result ∧
      match result with
      | .error failure => ∀ dump trace format, ∃ said,
        RunRequest.answer ⟨path, dump, trace, maxSteps, format⟩ files =
          (⟨said, .failed failure⟩, files) ∧ (format = .json → said = "")
      | .ok run => ∀ dump trace, ∃ (json : Json) (document : RunDocument) (said : String),
        json.Writes json.pretty ∧
        RunRequest.answer ⟨path, dump, trace, maxSteps, .json⟩ files =
          (⟨String.ofList (json.pretty ++ ['\n']), .done⟩, files) ∧
        RunDocument.ofJson? json = some document ∧ document.toRunEnd = run.finish ∧
        document.trace = (if trace then some run.fetches else none) ∧
        document.memory = (if dump = .all then some run.cells else none) ∧
        RunRequest.answer ⟨path, dump, trace, maxSteps, .text⟩ files = (⟨said, .done⟩, files) ∧
        (dump = .all → said = document.text) := by
  cases found : at? files path with
  | error fault =>
    exact ⟨_, .unread found, fun dump trace format => ⟨_, answer_of_unread found, fun _ => rfl⟩⟩
  | ok contents =>
    cases image : Program.ofBytes contents.data with
    | error fault =>
      obtain ⟨uneven, message⟩ := Program.ofBytes_eq_error image
      refine ⟨_, .uneven found uneven, fun dump trace format => ⟨"", ?_, fun _ => rfl⟩⟩
      rw [← message]
      exact answer_of_partial found image
    | ok program =>
      obtain ⟨rounds, result, last, memory, course, runs⟩ := RunRequest.exists_run maxSteps program
      obtain ⟨nothing, ran, -⟩ := runs ⟨path, .nothing, false, maxSteps, .text⟩ {} rfl
      have bytes := Program.bytes_of_ofBytes image
      cases result with
      | error trap =>
        refine ⟨_, .trapped found bytes ran, fun dump trace format => ?_⟩
        cases format with
        | text =>
          obtain ⟨journal, shown, -⟩ := runs ⟨path, dump, trace, maxSteps, .text⟩ _ rfl
          exact ⟨_, answer_text found image rfl shown, nofun⟩
        | json =>
          obtain ⟨journal, shown, -⟩ := runs ⟨path, dump, trace, maxSteps, .json⟩ _ rfl
          exact ⟨_, answer_json_of_trap found image rfl shown, fun _ => rfl⟩
      | ok exit =>
        refine ⟨_, .exited found bytes ran (course exit rfl), fun dump trace => ?_⟩
        obtain ⟨text, shown, told⟩ := runs ⟨path, dump, trace, maxSteps, .text⟩ _ rfl
        obtain ⟨journal, reported, written⟩ := runs ⟨path, dump, trace, maxSteps, .json⟩ _ rfl
        refine ⟨_, _, text.text, Json.writes_pretty _, answer_json_of_exit found image rfl reported,
          RunReport.ofJson?_toJson _, ?_, ?_, ?_, answer_text found image rfl shown, ?_⟩
        · cases exit <;> rfl
        · exact fetches_of_written written
        · cases dump <;> rfl
        · rintro rfl
          exact RunRequest.text_eq_document ⟨path, .all, trace, maxSteps, .text⟩ rfl told written

end Files

theorem run_formats_agree_halt :
    let files : Folder := ⟨[(['p'], ⟨#[0x01, 7, 2, 3, 0xFE, 0xFE, 0xFE, 0xFE]⟩)]⟩
    ∃ (json : Json) (document : RunDocument), json.Writes json.pretty ∧
      RunRequest.answer ⟨['p'], .all, true, some 2, .json⟩ files =
        (⟨String.ofList (json.pretty ++ ['\n']), .done⟩, files) ∧
      RunDocument.ofJson? json = some document ∧ document.trace.isSome ∧ document.memory.isSome ∧
      RunRequest.answer ⟨['p'], .all, true, some 2, .text⟩ files = (⟨document.text, .done⟩, files) := by
  intro files
  obtain ⟨failure | run, -, ends⟩ := run_formats_agree ['p'] (some 2) files
  · obtain ⟨said, failed, -⟩ := ends .nothing false .text
    have done : (RunRequest.answer ⟨['p'], .nothing, false, some 2, .text⟩ files).1.outcome = .done := rfl
    rw [failed] at done
    cases done
  · obtain ⟨json, document, said, writes, shown, read, -, trace, memory, text, same⟩ := ends .all true
    obtain rfl := same rfl
    exact ⟨json, document, writes, shown, read, by rw [trace]; rfl, by rw [memory]; rfl, text⟩

end WordMachine.Tool
