import ScriptEngine.Code.Compile
import ScriptEngine.CommandLine.Arguments
import ScriptEngine.Config.Toml
import ScriptEngine.Document.Build
import ScriptEngine.Document.Reader
import ScriptEngine.Syntax.Listing
import ScriptEngine.Text.Colour

/-!
# Running commands

What a command prints, on both outputs, and its exit code: zero for success, one for a failure, two
for arguments that say nothing, and 101 for a fault. Where a message quotes a text of the system or
of a reader, it ends before that text.
-/

namespace ScriptEngine.CommandLine

open Text

structure Outcome where
  code : Nat := 0
  out : String := ""
  err : String := ""
deriving DecidableEq, Repr, Inhabited

namespace Outcome

def usage : Outcome := { code := 2 }

def broken (f : Fault) : Outcome := { code := 101, err := f.message ++ "\n" }

/-- The line for an error; it is cut off if it quotes a text. -/
def errorLine (message : String) (cut : Bool) : String :=
  bold (red "Error") ++ ": " ++ message ++ if cut then "" else "\n"

def failed (message : String) (cut : Bool) (out err : String) : Outcome :=
  { code := 1, out, err := err ++ errorLine message cut }

end Outcome

/-! ## Texts -/

def diagnosticLine (d : Diagnostic) : String :=
  let severity := match d.severity with
    | .error => bold (red "error")
    | .warning => bold (yellow "warning")
  let source := d.sourceName.getD "<script>"
  let location := match d.line with
    | some line => s!"{source}:{line}"
    | none => source
  s!"{cyan location}: {severity}: {d.message}\n"

def diagnosticLines (ds : Diagnostics) : String :=
  let more := if 0 < ds.dropped then
      dimmed s!"... {ds.dropped} more diagnostic(s) not shown" ++ "\n"
    else ""
  String.join (ds.items.map diagnosticLine) ++ more

def unitTitle (u : CompiledUnit) : String :=
  if !u.isFunction then "<script>" else if u.name.isEmpty then "<anonymous>" else u.name

def unitFlags (u : CompiledUnit) : List String :=
  [("activation", u.needsActivation), ("check-this", u.checkThis),
    ("dynamic-scope", u.useDynamicScope), ("eval", u.fromEvalCode)].filterMap
    fun (name, isSet) => if isSet then some name else none

def unitLines (u : CompiledUnit) (indent : String) : String :=
  let params := "[" ++ ", ".intercalate (u.argNames.map quoted) ++ "]"
  let flags := " ".intercalate (unitFlags u)
  s!"{indent}{bold (white (unitTitle u))}\n" ++
    s!"{indent}  params={params} vars={u.maxVars} locals={u.maxLocals} stack={u.maxStack}" ++
    s!" try-depth={u.maxTryDepth} bytecode={u.code.size}\n" ++
    if flags.isEmpty then "" else s!"{indent}  {dimmed flags}\n"

/-- The lines for a unit and the units inside it, each level further to the right. -/
def unitSummary (u : CompiledUnit) : String :=
  let write : String → String := u.fold fun u nested indent =>
    unitLines u indent ++ String.join (nested.map fun write => write (indent ++ "  "))
  write ""

/-! ## Commands -/

/-- Reads a script and builds its program. A script without a source name gets that of its file. -/
def loadProgram (files : String → Option String) (file : String) : Except Outcome Program := do
  let fail (message : String) (cut : Bool) : Outcome := .failed message cut "" ""
  let some text := files file | throw (fail s!"failed to read {file}" true)
  let some script := Document.read? text | throw (fail s!"failed to parse {file}" true)
  match Document.build script (some file) with
  | .error f => throw (.broken f)
  | .ok (.error e) => throw (fail e.message (e = .loopHead))
  | .ok (.ok program) => return program

def lower (options : LowerOptions) (config : Config) (files : String → Option String) :
    Except Outcome Outcome := do
  let program ← loadProgram files options.file
  let (program, diagnostics) ← (program.lower config).mapError Outcome.broken
  let err := diagnosticLines diagnostics
  if diagnostics.hasErrors then throw { code := 1, err }
  let tree := if options.tree then program.listing else ""
  match program.assemble config options.eval with
  | .error f => throw (.broken f)
  | .ok (.error e) => throw (.failed e.message false tree err)
  | .ok (.ok u) =>
    let summary := if options.units then unitSummary u else ""
    let source := program.script.sourceName.getD "<script>"
    let compiled := bold (green "Compiled")
    let done := s!"{compiled} {source} ({u.count} unit(s))\n"
    return { out := tree ++ summary ++ done, err }

/-- The settings in a configuration file, or the default ones. -/
def loadConfig (files : String → Option String) : Option String → Except Outcome Config
  | none => .ok {}
  | some file =>
    let fail (message : String) (cut : Bool) : Outcome :=
      .failed s!"loading {file}: {message}" cut "" ""
    match files file with
    | none => .error (fail "IOError" true)
    | some text => (Config.ofToml text).mapError fun e => fail e.message (e = .unreadable)

def Invocation.run (i : Invocation) (files : String → Option String) : Outcome :=
  let result : Except Outcome Outcome := do
    let config ← loadConfig files i.configFile
    match i.command with
    | .lower options => lower options config files
    | .config => return { out := config.toToml }
  match result with
  | .ok outcome | .error outcome => outcome

def run (args : List String) (configFile : Option String) (files : String → Option String) :
    Outcome :=
  match parse? args configFile with
  | some i => i.run files
  | none => .usage

end ScriptEngine.CommandLine
