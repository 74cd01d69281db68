import ScriptEngine.Config.Basic
import ScriptEngine.Toml.Reader
import ScriptEngine.Toml.Text

/-!
# Configuration files

A configuration is a TOML table in which every setting may be missing and other keys are ignored. It
is written back with all settings, in a fixed order.
-/

namespace ScriptEngine

/-- A name out of a fixed choice: a string, or a table whose only key is the name and has nothing
under it. -/
def Toml.choice? : Toml → Option String
  | .string s => some s
  | .table _ [(name, .table _ [])] => some name
  | .table _ [(name, .array [])] => some name
  | _ => none

def Toml.boolean? : Toml → Option Bool
  | .boolean b => some b
  | _ => none

def Toml.natural? : Toml → Option Nat
  | .integer z => if 0 ≤ z then some z.toNat else none
  | _ => none

def Toml.string? : Toml → Option String
  | .string s => some s
  | _ => none

def Toml.strings? : Toml → Option (List String)
  | .array items => items.mapM Toml.string?
  | _ => none

namespace Config

def setting (entries : Toml.Entries) (key : String) (fallback : α) (read : Toml → Option α) :
    Option α :=
  match entries.lookup key with
  | some value => read value
  | none => some fallback

def ofEntries? (entries : Toml.Entries) : Option Config := do
  let d : Config := {}
  return {
    languageVersion := ← setting entries "language-version" d.languageVersion
      fun v => v.choice?.bind LanguageVersion.ofLabel?
    dynamicScope := ← setting entries "dynamic-scope" d.dynamicScope Toml.boolean?
    callerInspection := ← setting entries "caller-inspection" d.callerInspection
      fun v => v.choice?.bind CallerInspection.ofLabel?
    activationNames := ← setting entries "activation-names" d.activationNames Toml.strings?
    maxDiagnostics := ← setting entries "max-diagnostics" d.maxDiagnostics Toml.natural? }

def ofToml (text : String) : Except ConfigError Config :=
  match (Toml.read? text).bind ofEntries? with
  | some config => config.validate
  | none => .error .unreadable

/-- An array of strings: on one line if it has at most one item, else one item a line. -/
def tomlStrings (items : List String) : String :=
  match items with
  | [] => "[]"
  | [item] => s!"[{Toml.quoted item}]"
  | items => "[\n" ++ String.join (items.map fun i => s!"    {Toml.quoted i},\n") ++ "]"

def toToml (c : Config) : String :=
  s!"language-version = {Toml.quoted c.languageVersion.label}\n" ++
    s!"dynamic-scope = {c.dynamicScope}\n" ++
    s!"caller-inspection = {Toml.quoted c.callerInspection.label}\n" ++
    s!"activation-names = {tomlStrings c.activationNames}\n" ++
    s!"max-diagnostics = {c.maxDiagnostics}\n"

end Config

end ScriptEngine
