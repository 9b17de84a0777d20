import WordMachine.Files.Folder

/-! What a tool answers, and the effect in which it works. -/

namespace WordMachine

/-- Why a tool gave up: what it was about to do, and what stood against it if that is another's
word. -/
structure Failure where
  message : String
  cause : Option String
  deriving DecidableEq, Repr

inductive Outcome
  | done
  | failed (failure : Failure)
  | usage
  deriving DecidableEq, Repr

structure Reply where
  stdout : String
  outcome : Outcome
  deriving DecidableEq, Repr

def Outcome.status : Outcome → UInt32
  | .done => 0
  | .failed _ => 1
  | .usage => 2

abbrev Work (m : Type → Type) := ExceptT Failure (StateT String m)

namespace Work

variable {m : Type → Type} [Monad m]

def say (text : String) : Work m Unit := modify (· ++ text)

def fail {α : Type} (message : String) (cause : Option String) : Work m α :=
  throw ⟨message, cause⟩

def require {ε α : Type} (message : String) (cause : ε → String) : Except ε α → Work m α
  | .ok value => pure value
  | .error fault => fail message (some (cause fault))

def reply (work : Work m Unit) : m Reply := do
  match ← (work.run).run "" with
  | (.ok (), stdout) => pure ⟨stdout, .done⟩
  | (.error failure, stdout) => pure ⟨stdout, .failed failure⟩

variable [FileSystem m]

def readFile (path : List Char) : Work m ByteArray := do
  let found ← (FileSystem.read path : m _)
  require ("reading " ++ String.ofList path) FileFault.message found

def readText (path : List Char) : Work m (List Char) := do
  let contents ← readFile path
  require ("reading " ++ String.ofList path) FileFault.message (textOfBytes contents)

def writeFile (path : List Char) (contents : ByteArray) : Work m Unit := do
  let written ← (FileSystem.write path contents : m _)
  require ("writing " ++ String.ofList path) FileFault.message written

/-- Text goes to a file if there is one for it, else to the standard output. -/
def emit (out : Option (List Char)) (text : String) : Work m Unit :=
  match out with
  | none => say text
  | some path => do
    match ← (FileSystem.write path text.toUTF8 : m _) with
    | .ok () => pure ()
    | .error fault => fail fault.message none

end Work

end WordMachine
