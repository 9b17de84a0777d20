import WordMachine.Machine.Report
import WordMachine.Tool.Arguments
import WordMachine.Tool.Reply

/-! The machine as a tool: runs an image on a blank bank and reports on the run. -/

namespace WordMachine.Tool

inductive DumpMode
  | nothing
  | regs
  | regsEachStep
  | all
  deriving DecidableEq, Repr

inductive Format
  | text
  | json
  deriving DecidableEq, Repr

def Format.choices : List (String × Format) := [("text", .text), ("json", .json)]

def DumpMode.choices : List (String × DumpMode) :=
  [("none", .nothing), ("regs", .regs), ("regs-each-step", .regsEachStep), ("all", .all)]

structure RunRequest where
  input : List Char
  dump : DumpMode
  trace : Bool
  maxSteps : Option Nat
  format : Format

namespace RunRequest

def grammar : Grammar where
  valued := ["dump", "max-steps", "format"]
  repeated := []
  switches := ["trace"]
  shorts := []

def ofArguments? (texts : List (List Char)) : Option RunRequest := do
  let args ← grammar.read? texts
  let dump ← args.choice? "dump" DumpMode.choices .regs
  let maxSteps ← args.number? "max-steps"
  let format ← args.choice? "format" Format.choices .text
  match args.positionals with
  | [input] => some ⟨input, dump, args.has "trace", maxSteps, format⟩
  | _ => none

def dumpFlags (request : RunRequest) : Dump :=
  let flags : Dump :=
    match request.dump with
    | .nothing => {}
    | .regs => { regsAtEnd := true }
    | .regsEachStep => { regsEachStep := true }
    | .all => { regsAtEnd := true, memoryAtEnd := true }
  { flags with trace := request.trace }

def machine (request : RunRequest) (dump : Dump) : Machine Bank :=
  ⟨.start request.maxSteps dump, .blank addressSpace, .fresh none⟩

def textRun (request : RunRequest) (program : Program) : String × Option Trap :=
  match (request.machine request.dumpFlags).run program with
  | (.ok _, m) => (m.journal.text, none)
  | (.error trap, m) => (m.journal.text, some trap)

def report (request : RunRequest) (program : Program) : Except Trap RunReport :=
  match (request.machine { trace := request.trace }).run program with
  | (.error trap, _) => .error trap
  | (.ok exit, m) =>
    .ok
      { exit
        cpu := m.cpu
        memory := if request.dump = .all then some m.bus.cells else none
        trace := if request.trace then some m.journal.fetches else none }

end RunRequest

variable {m : Type → Type} [Monad m] [FileSystem m]

/-- What was wrong on the bus is the cause of a bus trap. -/
def trapCause? : Trap → Option String
  | .bus _ fault => some fault.message
  | _ => none

def runFile (request : RunRequest) : Work m Unit := do
  let contents ← Work.readFile request.input
  match Program.ofBytes contents.data with
  | .error fault => Work.fail fault.message none
  | .ok program =>
    match request.format with
    | .text => do
      let (text, trap) := request.textRun program
      Work.say text
      match trap with
      | none => pure ()
      | some trap => Work.fail trap.message (trapCause? trap)
    | .json =>
      match request.report program with
      | .error trap => Work.fail trap.message (trapCause? trap)
      | .ok report => Work.say (String.ofList (report.toJson.pretty ++ ['\n']))

def run (texts : List (List Char)) : m Reply :=
  match RunRequest.ofArguments? texts with
  | none => pure ⟨"", .usage⟩
  | some request => (runFile request).reply

end WordMachine.Tool
