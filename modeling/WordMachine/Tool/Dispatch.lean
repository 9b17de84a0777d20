import WordMachine.Source.Assembly
import WordMachine.Tool.Inspect

/-! The assembler as a tool: a source file in, an image out, and on request its symbol file. Then all tools
under one command. -/

namespace WordMachine.Tool

structure AssembleRequest where
  input : List Char
  output : Option (List Char)
  symbols : Option (List Char)

namespace AssembleRequest

def grammar : Grammar where
  valued := ["output", "symbols"]
  repeated := []
  switches := []
  shorts := [('o', "output")]

def ofArguments? (texts : List (List Char)) : Option AssembleRequest := do
  let args ← grammar.read? texts
  let output ← args.path? "output"
  let symbols ← args.path? "symbols"
  match args.positionals with
  | [input] => if input.isEmpty then none else some ⟨input, output, symbols⟩
  | _ => none

end AssembleRequest

def bytesOf (values : List UInt8) : ByteArray := ⟨values.toArray⟩

def textBytes (text : List Char) : ByteArray := (String.ofList text).toUTF8

variable {m : Type → Type} [Monad m] [FileSystem m]

/-- Whether two paths lead to one file: by their parts, or because there is a file at their end. -/
def sameFile (first second : List Char) : Work m Bool := do
  if Path.components first = Path.components second then return true
  let firstName ← (FileSystem.canonical? first : m _)
  let secondName ← (FileSystem.canonical? second : m _)
  return firstName.isSome && firstName == secondName

/-- Where the image goes: beside the input if nothing else is asked for, and never onto it. -/
def destination (request : AssembleRequest) : Work m (List Char) := do
  let out := request.output.getD (Path.withExtension request.input "bin".toList)
  if ← sameFile out request.input then
    Work.fail ("output " ++ String.ofList out ++ " would overwrite the source file") none
  return out

/-- The image is written before the symbol file. -/
def assembleFile (request : AssembleRequest) : Work m Unit := do
  let source ← Work.readText request.input
  match WordMachine.assemble source with
  | .error fault => Work.fail fault.message none
  | .ok assembly => do
    let out ← destination request
    let before ← (FileSystem.canonical? out : m _)
    Work.writeFile out (bytesOf assembly.bytes)
    if before.isSome then
      let name := (Path.fileName? out).getD out
      Work.say ("file '" ++ String.ofList name ++ "' already existed and was overwritten\n")
    match request.symbols with
    | none => pure ()
    | some path => Work.writeFile path (textBytes assembly.symbols.toJson.pretty)

def assemble (texts : List (List Char)) : m Reply :=
  match AssembleRequest.ofArguments? texts with
  | none => pure ⟨"", .usage⟩
  | some request => (assembleFile request).reply

def dispatch (arguments : List String) : m Reply :=
  match arguments with
  | [] => pure ⟨"", .usage⟩
  | name :: rest =>
    let texts := rest.map String.toList
    if name == "assemble" then assemble texts
    else if name == "run" then run texts
    else if name == "inspect" then inspect texts
    else pure ⟨"", .usage⟩

end WordMachine.Tool
