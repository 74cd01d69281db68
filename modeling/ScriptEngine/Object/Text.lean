import ScriptEngine.Number.Text
import ScriptEngine.Object.Basic
import ScriptEngine.Text.Quoted
import ScriptEngine.Value.Error

/-!
# Texts of values

Two texts stand for a value: the one that scripts see, and the one for people who look into the
engine, which shows how an object is made up.
-/

namespace ScriptEngine

namespace Store

/-! ## Texts that scripts see -/

def typeOf (s : Store) : Value → String
  | .undefined => "undefined"
  | .null => "object"
  | .boolean _ => "boolean"
  | .number _ => "number"
  | .string _ => "string"
  | .object id => if s.isCallable id then "function" else "object"

def isFunction (s : Store) (v : Value) : Bool := v.object?.any s.isCallable

def display (s : Store) : Value → String
  | .undefined => "undefined"
  | .null => "null"
  | .boolean b => toString b
  | .number x => x.display
  | .string text => text
  | .object id =>
    match s.function? id with
    | some f => s!"function {f.name}() \x7b [code] \x7d"
    | none => s!"[object {s.className id}]"

def errorText (s : Store) : ScriptError → String
  | .raised errorClass detail => s!"{errorClass.label}: {detail}"
  | .thrown value => "uncaught exception: " ++ s.display value

end Store

/-! ## Texts for inspection -/

namespace Inspection

def record (name : String) (fields : List (String × String)) : String :=
  let parts := fields.map fun (field, text) => s!"{field}: {text}"
  s!"{name} \x7b " ++ ", ".intercalate parts ++ " \x7d"

def list (items : List String) : String := "[" ++ ", ".intercalate items ++ "]"

def nameSet (names : List String) : String :=
  "\x7b" ++ ", ".intercalate (names.map Text.quoted) ++ "\x7d"

def properties (o : Object) : String := nameSet o.properties.names

def core (o : Object) : String :=
  record "ObjectCore" [("properties", properties o),
    ("has_prototype", toString o.proto.isSome), ("has_parent", toString o.parent.isSome)]

def option (text : α → String) : Option α → String
  | some a => s!"Some({text a})"
  | none => "None"

def function (value : Value → String) (o : Object) (f : FunctionData) : String :=
  let name := ("name", Text.quoted f.name)
  let arity := ("arity", toString f.arity)
  match f.callable with
  | .interpreted _ closure _ =>
    record "FunctionObject"
      [name, arity, ("closure", toString closure.isSome), ("properties", properties o)]
  | .native _ => record "NativeFunction" [name, arity]
  | .selfMade result =>
    let base := record "FunctionBase" [name, arity, ("immune", toString f.immune)]
    record "SelfMade" [("core", core o), ("base", base), ("result", value result)]

def object (s : Store) (value : Value → String) (o : Object) : String :=
  match o.kind with
  | .plain className primitive =>
    record "PlainObject" [("core", core o), ("class", Text.quoted className),
      ("primitive", option value primitive)]
  | .array elements =>
    record "ArrayObject" [("core", core o),
      ("elements", record "RwLock" [("data", list (elements.toList.map value))])]
  | .withScope => record "WithScope" [("core", core o)]
  | .function f => function value o f
  | .activation a =>
    record "Activation" [("function", Text.quoted (s.functionName a.function)),
      ("bindings", properties o), ("args", toString a.args.length)]
  | .arguments a =>
    record "ArgumentsObject" [("function", Text.quoted a.unit.name),
      ("elements", toString a.elements.size), ("properties", properties o)]

/-- The text of a value, with objects inside objects down to `fuel` levels. -/
def value (s : Store) : Nat → Value → String
  | _, .undefined => "Undefined"
  | _, .null => "Null"
  | _, .boolean b => s!"Boolean({b})"
  | _, .number x => s!"Number({x.debugText})"
  | _, .string text => s!"String({Text.quoted text})"
  | 0, .object _ => ""
  | fuel + 1, .object id => s!"Object({object s (value s fuel) (s.object id)})"

end Inspection

namespace Store

def inspect (s : Store) (v : Value) : String := Inspection.value s (s.size + 1) v

end Store

def LanguageVersion.inspect (v : LanguageVersion) : String :=
  if v = .latest then "Default" else "V" ++ v.label.replace "." "_"

def Config.inspect (c : Config) : String :=
  Inspection.record "EngineConfig" [("language_version", c.languageVersion.inspect),
    ("dynamic_scope", toString c.dynamicScope),
    ("caller_inspection", if c.allowsCallerInspection then "Allow" else "Deny"),
    ("activation_names", Inspection.list (c.activationNames.map Text.quoted)),
    ("max_diagnostics", toString c.maxDiagnostics)]

end ScriptEngine
