import ScriptEngine.Text.Quoted

/-!
# Configuration

The settings that compilation and calls share: the language version, where free names are looked up,
whether scripts may see their callers, the names whose use needs an activation record, and how many
complaints are recorded.
-/

namespace ScriptEngine

inductive LanguageVersion where
  | latest
  | v10
  | v11
  | v12
  | v13
  | v14
  | v15
deriving DecidableEq, Repr, Inhabited

namespace LanguageVersion

def all : List LanguageVersion := [latest, v10, v11, v12, v13, v14, v15]

def label : LanguageVersion → String
  | latest => "default"
  | v10 => "1.0"
  | v11 => "1.1"
  | v12 => "1.2"
  | v13 => "1.3"
  | v14 => "1.4"
  | v15 => "1.5"

def ofLabel? (s : String) : Option LanguageVersion := all.find? (·.label == s)

def code : LanguageVersion → Nat
  | latest => 0
  | v10 => 100
  | v11 => 110
  | v12 => 120
  | v13 => 130
  | v14 => 140
  | v15 => 150

def hasLegacyCaller (v : LanguageVersion) : Bool := v ≠ latest && v.code ≤ 130

end LanguageVersion

inductive CallerInspection where
  | allow
  | deny
deriving DecidableEq, Repr, Inhabited

namespace CallerInspection

def label : CallerInspection → String
  | allow => "allow"
  | deny => "deny"

def ofLabel? (s : String) : Option CallerInspection := [allow, deny].find? (·.label == s)

end CallerInspection

/-- The settings of an engine. -/
structure Config where
  languageVersion : LanguageVersion := .latest
  /-- Functions look free names up in the scope of their caller. -/
  dynamicScope : Bool := false
  callerInspection : CallerInspection := .allow
  /-- Names whose use needs an activation record. -/
  activationNames : List String := ["arguments"]
  maxDiagnostics : Nat := 100
deriving DecidableEq, Repr, Inhabited

inductive ConfigError where
  /-- The text is no configuration. -/
  | unreadable
  | noDiagnostics
  | emptyActivationName
deriving DecidableEq, Repr, Inhabited

/-- The text of a refusal; one for an unreadable text has no detail. -/
def ConfigError.message : ConfigError → String
  | .unreadable => "invalid configuration"
  | .noDiagnostics => "invalid configuration: max-diagnostics must be at least 1"
  | .emptyActivationName =>
    "invalid configuration: activation-names contains an empty name: " ++ Text.quoted ""

namespace Config

def isActivationName (c : Config) (name : String) : Bool := name ∈ c.activationNames

def allowsCallerInspection (c : Config) : Bool := c.callerInspection = .allow

def validate (c : Config) : Except ConfigError Config :=
  if c.maxDiagnostics = 0 then .error .noDiagnostics
  else if "" ∈ c.activationNames then .error .emptyActivationName
  else .ok c

end Config

end ScriptEngine
