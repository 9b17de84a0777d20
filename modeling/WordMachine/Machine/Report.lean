import WordMachine.Json.Value
import WordMachine.Machine.Run

/-! Machines and their runs as JSON documents. -/

namespace WordMachine

def Exit.name : Exit → String
  | .halted => "Halted"
  | .endOfImage => "EndOfImage"

namespace Dump

def names (dump : Dump) : List String :=
  (if dump.trace then ["TRACE"] else [])
    ++ (if dump.regsEachStep then ["REGS_EACH_STEP"] else [])
    ++ (if dump.regsAtEnd then ["REGS_AT_END"] else [])
    ++ (if dump.memoryAtEnd then ["MEMORY_AT_END"] else [])

end Dump

/-- The whole state of a processor; its return stack has the outermost call first. -/
def Cpu.toJson (cpu : Cpu) : Json :=
  .object
    [Json.member "pc" (Json.word cpu.pc),
      Json.member "regs" (Json.bytes cpu.regs.toList),
      Json.member "ret_stack" (.array (cpu.returns.reverse.map Json.word)),
      Json.member "steps" (.number cpu.steps),
      Json.member "cfg"
        (.object
          [Json.member "step_limit" (cpu.stepLimit.elim .null .number),
            Json.member "dump" (Json.text (" | ".intercalate cpu.dump.names))])]

structure RunReport where
  exit : Exit
  cpu : Cpu
  memory : Option (Array UInt8)
  trace : Option (List (UInt32 × Word))

namespace Journal

def fetches (journal : Journal) : List (UInt32 × Word) :=
  journal.events.filterMap fun
    | .fetch pc w => some (pc, w)
    | _ => none

end Journal

namespace RunReport

def fetchJson (fetch : UInt32 × Word) : Json :=
  .object [Json.member "pc" (Json.word fetch.1), Json.member "bytes" (Json.bytes fetch.2.toList)]

def toJson (report : RunReport) : Json :=
  .object
    ([Json.member "exit" (Json.text report.exit.name),
        Json.member "pc" (Json.word report.cpu.pc),
        Json.member "steps" (.number report.cpu.steps),
        Json.member "registers" (Json.bytes report.cpu.regs.toList)]
      ++ (report.memory.map fun cells => Json.member "memory" (Json.bytes cells.toList)).toList
      ++ (report.trace.map fun fetches => Json.member "trace" (.array (fetches.map fetchJson))).toList)

end RunReport

end WordMachine
