import WordMachine.Text.Lines

/-! Files as a tool reaches them, by paths of parts between slashes, and a folder of files without folders
in it. -/

namespace WordMachine

open Text

inductive FileFault
  | missing
  | folder
  | notFolder
  | notText
  | device (reason : String)
  deriving DecidableEq, Repr

def FileFault.message : FileFault → String
  | .missing => "No such file or directory (os error 2)"
  | .folder => "Is a directory (os error 21)"
  | .notFolder => "Not a directory (os error 20)"
  | .notText => "stream did not contain valid UTF-8"
  | .device reason => reason

/-- Whole files by their paths, in an effect `m`. -/
class FileSystem (m : Type → Type) where
  read : List Char → m (Except FileFault ByteArray)
  write : List Char → ByteArray → m (Except FileFault Unit)
  /-- One name for all paths of the same thing; none if there is nothing. -/
  canonical? : List Char → m (Option (List Char))

def textOfBytes (contents : ByteArray) : Except FileFault (List Char) :=
  match String.fromUTF8? contents with
  | some text => .ok text.toList
  | none => .error .notText

namespace Path

def parts (path : List Char) : List (List Char) := pieces (· == '/') path

def isNeutral (part : List Char) : Bool := part.isEmpty || part == ['.']

/-- The parts that tell one path from another. A dot counts only in front of a relative path. -/
def components (path : List Char) : List (List Char) :=
  match parts path with
  | [] => []
  | first :: rest =>
    let others := rest.filter fun part => !isNeutral part
    if first.isEmpty then
      if path.isEmpty then [] else ['/'] :: others
    else first :: others

def fileName? (path : List Char) : Option (List Char) :=
  (components path).getLast?.filter fun part =>
    part != ['/'] && part != ['.'] && part != ['.', '.']

/-- A name without its extension: what is before its last dot, unless that is nothing. -/
def stem (name : List Char) : List Char :=
  match name.reverse.dropWhile (· ≠ '.') with
  | [] | [_] => name
  | _ :: before => before.reverse

def withExtension (path extension : List Char) : List Char :=
  match fileName? path with
  | none => path
  | some name =>
    let folder := ((parts path).reverse.dropWhile isNeutral).tail.reverse
    ['/'].intercalate (folder ++ [stem name ++ '.' :: extension])

end Path

structure Folder where
  files : List (List Char × ByteArray)

inductive Place
  | folder
  | entry (name : List Char)
  deriving DecidableEq, Repr

namespace Folder

def empty : Folder := ⟨[]⟩

def get? (folder : Folder) (name : List Char) : Option ByteArray := folder.files.lookup name

def put (folder : Folder) (name : List Char) (contents : ByteArray) : Folder :=
  ⟨(name, contents) :: folder.files.filter fun file => file.1 != name⟩

/-- Follows the parts of a path. Only the folder itself can be passed through. -/
def walk (folder : Folder) : Place → List (List Char) → Except FileFault Place
  | place, [] => .ok place
  | .folder, part :: rest =>
    if Path.isNeutral part then folder.walk .folder rest
    else if part = ['.', '.'] then .error .missing
    else folder.walk (.entry part) rest
  | .entry name, _ :: _ =>
    if (folder.get? name).isSome then .error .notFolder else .error .missing

def locate (folder : Folder) (path : List Char) : Except FileFault Place :=
  if path.isEmpty || path.head? == some '/' then .error .missing
  else folder.walk .folder (Path.parts path)

def read (folder : Folder) (path : List Char) : Except FileFault ByteArray :=
  match folder.locate path with
  | .error fault => .error fault
  | .ok .folder => .error .folder
  | .ok (.entry name) =>
    match folder.get? name with
    | some contents => .ok contents
    | none => .error .missing

/-- Where a file can be written. A name with a slash behind it asks for a folder. -/
def target (folder : Folder) (path : List Char) : Except FileFault (List Char) :=
  match folder.locate path with
  | .ok .folder => .error .folder
  | .ok (.entry name) => .ok name
  | .error .missing =>
    let trimmed := (path.reverse.dropWhile (· == '/')).reverse
    match folder.locate trimmed with
    | .ok _ => .error .folder
    | .error _ => .error .missing
  | .error fault => .error fault

def write (folder : Folder) (path : List Char) (contents : ByteArray) :
    Except FileFault Unit × Folder :=
  match folder.target path with
  | .ok name => (.ok (), folder.put name contents)
  | .error fault => (.error fault, folder)

def canonical? (folder : Folder) (path : List Char) : Option (List Char) :=
  match folder.locate path with
  | .ok .folder => some ['.']
  | .ok (.entry name) => if (folder.get? name).isSome then some name else none
  | .error _ => none

instance : FileSystem (StateM Folder) where
  read path := do return (← get).read path
  write path contents := modifyGet fun folder => folder.write path contents
  canonical? path := do return (← get).canonical? path

end Folder

end WordMachine
