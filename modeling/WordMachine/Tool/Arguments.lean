import WordMachine.Text.Numeral

/-! Command-line arguments: options with a value, switches, and positional arguments. -/

namespace WordMachine

open Text

/-- The options of a tool. Those in `repeated` may come more than once, with several values. -/
structure Grammar where
  valued : List String
  repeated : List String
  switches : List String
  shorts : List (Char × String)

structure Arguments where
  options : List (String × List Char)
  switches : List String
  positionals : List (List Char)

namespace Arguments

def empty : Arguments := ⟨[], [], []⟩

def addOption (args : Arguments) (name : String) (value : List Char) : Arguments :=
  { args with options := args.options ++ [(name, value)] }

def addSwitch (args : Arguments) (name : String) : Arguments :=
  { args with switches := args.switches ++ [name] }

def addPositional (args : Arguments) (text : List Char) : Arguments :=
  { args with positionals := args.positionals ++ [text] }

def option? (args : Arguments) (name : String) : Option (List Char) := args.options.lookup name

def optionValues (args : Arguments) (name : String) : List (List Char) :=
  args.options.filterMap fun option => if option.1 == name then some option.2 else none

def has (args : Arguments) (name : String) : Bool := args.switches.contains name

end Arguments

inductive Argument
  | positional (text : List Char)
  | endOfOptions
  | option (name : List Char) (value : Option (List Char))
  | short (letter : Char) (rest : List Char)
  deriving DecidableEq, Repr

namespace Argument

def ofText (text : List Char) : Argument :=
  match text with
  | ['-', '-'] => .endOfOptions
  | '-' :: '-' :: body =>
    match body.dropWhile (· ≠ '=') with
    | [] => .option body none
    | _ :: value => .option (body.takeWhile (· ≠ '=')) (some value)
  | '-' :: letter :: rest => .short letter rest
  | _ => .positional text

/-- A value that stands on its own does not look like an option. -/
def value? (text : List Char) : Option (List Char) :=
  match ofText text with
  | .positional text => some text
  | _ => none

end Argument

namespace Grammar

/-- Where the scan of the arguments stands: before any argument, or behind a repeated option that
takes further values, the first of which it may still lack. -/
inductive Position
  | fresh
  | lacking (name : String)
  | values (name : String)
  | positionalsOnly
  deriving DecidableEq, Repr

structure Scan where
  position : Position
  args : Arguments

def find? (names : List String) (name : List Char) : Option String :=
  names.find? fun known => known.toList == name

def once (args : Arguments) (name : String) (value : List Char) : Option Arguments :=
  if (args.option? name).isSome then none else some (args.addOption name value)

def takeOption (grammar : Grammar) (args : Arguments) (name : List Char)
    (value : Option (List Char)) : Option Scan :=
  match find? grammar.switches name, find? grammar.valued name, find? grammar.repeated name with
  | some known, _, _ =>
    if value.isSome || args.has known then none else some ⟨.fresh, args.addSwitch known⟩
  | none, some known, _ =>
    match value with
    | some text => (once args known text).map (Scan.mk .fresh)
    | none => if (args.option? known).isSome then none else some ⟨.lacking known, args⟩
  | none, none, some known =>
    match value with
    | some text => some ⟨.fresh, args.addOption known text⟩
    | none => some ⟨.lacking known, args⟩
  | none, none, none => none

def takeFresh (grammar : Grammar) (args : Arguments) (text : List Char) : Option Scan :=
  match Argument.ofText text with
  | .positional text => some ⟨.fresh, args.addPositional text⟩
  | .endOfOptions => some ⟨.positionalsOnly, args⟩
  | .option name value => grammar.takeOption args name value
  | .short letter rest =>
    match grammar.shorts.lookup letter with
    | none => none
    | some name =>
      match rest with
      | [] => grammar.takeOption args name.toList none
      | '=' :: value => grammar.takeOption args name.toList (some value)
      | value => grammar.takeOption args name.toList (some value)

def take (grammar : Grammar) (scan : Scan) (text : List Char) : Option Scan :=
  match scan.position with
  | .fresh => grammar.takeFresh scan.args text
  | .positionalsOnly => some ⟨.positionalsOnly, scan.args.addPositional text⟩
  | .lacking name =>
    (Argument.value? text).map fun value =>
      ⟨if grammar.repeated.contains name then .values name else .fresh,
        scan.args.addOption name value⟩
  | .values name =>
    match Argument.value? text with
    | some value => some ⟨.values name, scan.args.addOption name value⟩
    | none => grammar.takeFresh scan.args text

def finish? (scan : Scan) : Option Arguments :=
  match scan.position with
  | .lacking _ => none
  | _ => some scan.args

def read? (grammar : Grammar) (texts : List (List Char)) : Option Arguments :=
  (texts.foldlM grammar.take ⟨.fresh, .empty⟩).bind finish?

/-- Reads up to a positional argument that names a command, and leaves what is behind it. -/
def readCommand? (grammar : Grammar) (commands : List String) (scan : Scan) :
    List (List Char) → Option (Arguments × String × List (List Char))
  | [] => none
  | text :: rest =>
    let command :=
      match scan.position, Argument.value? text with
      | .lacking _, _ => none
      | .positionalsOnly, _ => none
      | _, some name => find? commands name
      | _, none => none
    match command with
    | some name => some (scan.args, name, rest)
    | none => (grammar.take scan text).bind fun scan => grammar.readCommand? commands scan rest

end Grammar

def Arguments.path? (args : Arguments) (name : String) : Option (Option (List Char)) :=
  match args.option? name with
  | none => some none
  | some [] => none
  | some path => some (some path)

def Arguments.number? (args : Arguments) (name : String) : Option (Option Nat) :=
  match args.option? name with
  | none => some none
  | some text => (numeral? 10 0xFFFFFFFFFFFFFFFF text).map some

def Arguments.choice? {α : Type} (args : Arguments) (name : String) (choices : List (String × α))
    (default : α) : Option α :=
  match args.option? name with
  | none => some default
  | some text => (choices.find? fun choice => choice.1.toList == text).map Prod.snd

end WordMachine
