/-!
# Diagnostics

Complaints about a script, each tied to a place in its source. A collector records complaints up to
a limit and counts all of them, so that a run with many complaints still knows their number.
-/

namespace ScriptEngine

/-- What lowering finds wrong with the structure of a script. -/
inductive LoweringError where
  | breakOutside
  | continueOutside
  | continueNonLoop
  | undefinedLabel (label : String)
  | duplicateLabel (label : String)
deriving DecidableEq, Repr, Inhabited

def LoweringError.message : LoweringError → String
  | .breakOutside => "unlabelled break must be inside loop or switch"
  | .continueOutside => "continue must be inside loop"
  | .continueNonLoop => "continue can only use labels of iteration statements"
  | .undefinedLabel label => s!"undefined label '{label}'"
  | .duplicateLabel label => s!"duplicate label '{label}'"

inductive Severity where
  | warning
  | error
deriving DecidableEq, Repr, Inhabited

def Severity.label : Severity → String
  | .warning => "warning"
  | .error => "error"

structure Diagnostic where
  message : String
  sourceName : Option String
  line : Option Nat
  severity : Severity
deriving DecidableEq, Repr, Inhabited

def Diagnostic.text (d : Diagnostic) : String :=
  let source := d.sourceName.getD "<script>"
  let place := match d.line with
    | some line => s!"{source}:{line}"
    | none => source
  s!"{place}: {d.severity.label}: {d.message}"

/-- Complaints in the order of their reports. Without a limit everything is recorded. -/
structure Diagnostics where
  limit : Option Nat := none
  items : List Diagnostic := []
  dropped : Nat := 0
  errors : Nat := 0
deriving DecidableEq, Repr, Inhabited

namespace Diagnostics

def hasRoom (ds : Diagnostics) : Bool :=
  match ds.limit with
  | some limit => ds.items.length < limit
  | none => true

def push (ds : Diagnostics) (d : Diagnostic) : Diagnostics :=
  let ds := if d.severity = .error then { ds with errors := ds.errors + 1 } else ds
  if ds.hasRoom then { ds with items := ds.items ++ [d] }
  else { ds with dropped := ds.dropped + 1 }

def pushError (ds : Diagnostics) (message : String) (sourceName : Option String)
    (line : Option Nat) : Diagnostics :=
  ds.push { message, sourceName, line, severity := .error }

def hasErrors (ds : Diagnostics) : Bool := 0 < ds.errors

/-- The recorded complaints, one a line, and how many more there are. -/
def text (ds : Diagnostics) : String :=
  "\n".intercalate (ds.items.map Diagnostic.text) ++
    (if 0 < ds.dropped then s!"\n... and {ds.dropped} more" else "")

def failure (ds : Diagnostics) : String :=
  s!"compilation failed with {ds.errors} error(s):\n" ++ ds.text

end Diagnostics

end ScriptEngine
