/-!
# Command-line arguments

Two commands: `lower` takes the file of a script, and `config` takes nothing. Options may stand
before or after the names and files; those for all commands also before the command. An option with
a value takes the rest of its own argument or the next argument.
-/

namespace ScriptEngine.CommandLine

structure LowerOptions where
  file : String
  tree : Bool := false
  units : Bool := false
  eval : Bool := false
deriving DecidableEq, Repr, Inhabited

inductive Command where
  | lower (options : LowerOptions)
  | config
deriving DecidableEq, Repr, Inhabited

structure Invocation where
  command : Command
  configFile : Option String := none
deriving DecidableEq, Repr, Inhabited

def Invocation.files (i : Invocation) : List String :=
  i.configFile.toList ++ match i.command with
    | .lower options => [options.file]
    | .config => []

inductive ValueOption where
  | config
  | logLevel
deriving DecidableEq, Repr

inductive Flag where
  | tree
  | units
  | eval
deriving DecidableEq, Repr

inductive CommandName where
  | lower
  | config
deriving DecidableEq, Repr

structure Draft where
  command : Option CommandName := none
  file : Option String := none
  flags : List Flag := []
  /-- Values of options before the command. -/
  general : List (ValueOption × String) := []
  /-- Values of options after the command. -/
  specific : List (ValueOption × String) := []
  /-- Options have ended. -/
  filesOnly : Bool := false

namespace Draft

def addFlag (d : Draft) (flag : Flag) : Option Draft :=
  if d.command = some .lower ∧ flag ∉ d.flags then some { d with flags := flag :: d.flags }
  else none

/-- Notes the value of an option, which may be given once on each side of the command. -/
def addValue (d : Draft) (option : ValueOption) (value : String) : Option Draft :=
  if option = .config ∧ value.isEmpty then none
  else if d.command.isNone then
    if (d.general.lookup option).isSome then none
    else some { d with general := (option, value) :: d.general }
  else if (d.specific.lookup option).isSome then none
  else some { d with specific := (option, value) :: d.specific }

def addWord (d : Draft) (word : String) : Option Draft :=
  match d.command with
  | none =>
    if word = "lower" then some { d with command := some .lower }
    else if word = "config" then some { d with command := some .config }
    else none
  | some .lower => if d.file.isNone ∧ !word.isEmpty then some { d with file := some word } else none
  | some .config => none

/-- The value of an option; one after the command goes before. -/
def value? (d : Draft) (option : ValueOption) : Option String :=
  d.specific.lookup option <|> d.general.lookup option

def finish (d : Draft) (configFile : Option String) : Option Invocation := do
  let configFile := d.value? .config <|> configFile
  match ← d.command with
  | .config => return { command := .config, configFile }
  | .lower =>
    let options : LowerOptions := {
      file := ← d.file
      tree := .tree ∈ d.flags
      units := .units ∈ d.flags
      eval := .eval ∈ d.flags }
    return { command := .lower options, configFile }

end Draft

inductive Step where
  | refused
  | next (draft : Draft)
  | awaits (draft : Draft) (option : ValueOption)

def Step.ofOption : Option Draft → Step
  | some d => .next d
  | none => .refused

def longOption (d : Draft) (name : String) : Step :=
  let (name, value) := match name.splitOn "=" with
    | name :: first :: rest => (name, some ("=".intercalate (first :: rest)))
    | _ => (name, none)
  let valued (option : ValueOption) : Step := match value with
    | some value => .ofOption (d.addValue option value)
    | none => .awaits d option
  let flag (flag : Flag) : Step :=
    if value.isSome then .refused else .ofOption (d.addFlag flag)
  match name with
  | "config" => valued .config
  | "log-level" => valued .logLevel
  | "tree" => flag .tree
  | "units" => flag .units
  | "eval" => flag .eval
  | _ => .refused

def shortOptions (d : Draft) : List Char → Step
  | [] => .next d
  | 't' :: rest => match d.addFlag .tree with
    | some d => shortOptions d rest
    | none => .refused
  | 'u' :: rest => match d.addFlag .units with
    | some d => shortOptions d rest
    | none => .refused
  | ['c'] => .awaits d .config
  | 'c' :: '=' :: value => .ofOption (d.addValue .config (String.ofList value))
  | 'c' :: value => .ofOption (d.addValue .config (String.ofList value))
  | _ => .refused

def step (d : Draft) (arg : String) : Step :=
  match arg.toList with
  | '-' :: '-' :: name =>
    if d.filesOnly then .ofOption (d.addWord arg)
    else if name.isEmpty then .next { d with filesOnly := true }
    else longOption d (String.ofList name)
  | '-' :: first :: rest =>
    if d.filesOnly then .ofOption (d.addWord arg) else shortOptions d (first :: rest)
  | _ => .ofOption (d.addWord arg)

/-- Whether an argument can be the value of the option before it. -/
def isValue (arg : String) : Bool := arg = "-" || arg.toList.head? ≠ some '-'

def readArgs (d : Draft) : List String → Option Draft
  | [] => some d
  | arg :: rest =>
    match step d arg with
    | .refused => none
    | .next d => readArgs d rest
    | .awaits d option =>
      match rest with
      | [] => none
      | value :: rest =>
        if isValue value then
          match d.addValue option value with
          | some d => readArgs d rest
          | none => none
        else none

/-- Reads the arguments of a program; `configFile` is used if they name no configuration file. -/
def parse? (args : List String) (configFile : Option String) : Option Invocation :=
  (readArgs {} args).bind (·.finish configFile)

end ScriptEngine.CommandLine
