import WordMachine.Tool.Dispatch

/-! The command line: the tools on the files of the machine that they run on. -/

namespace WordMachine.Main

def faultOfCode? (code : UInt32) : Option FileFault :=
  if code = 2 then some .missing
  else if code = 20 then some .notFolder
  else if code = 21 then some .folder
  else none

def faultOf (error : IO.Error) : FileFault :=
  let known :=
    match error with
    | .noFileOrDirectory _ code _ => faultOfCode? code
    | .inappropriateType _ code _ => faultOfCode? code
    | _ => none
  known.getD (.device (toString error))

def attempt {α : Type} (action : IO α) : IO (Except FileFault α) := do
  try
    return .ok (← action)
  catch error =>
    return .error (faultOf error)

instance : FileSystem IO where
  read path := attempt (IO.FS.readBinFile (String.ofList path))
  write path contents := attempt (IO.FS.writeBinFile (String.ofList path) contents)
  canonical? path := do
    try
      let found ← IO.FS.realPath (String.ofList path)
      return some found.toString.toList
    catch _ =>
      return none

def usage : String := "usage: assemble | run | inspect, each with its options and files"

end WordMachine.Main

def main (arguments : List String) : IO UInt32 := do
  let reply ← WordMachine.Tool.dispatch (m := IO) arguments
  IO.print reply.stdout
  match reply.outcome with
  | .done => pure ()
  | .usage => IO.eprintln WordMachine.Main.usage
  | .failed failure => do
    IO.eprintln ("Error: " ++ failure.message)
    match failure.cause with
    | none => pure ()
    | some cause => IO.eprintln ("\nCaused by:\n    " ++ cause)
  return reply.outcome.status
