import ScriptEngine.Object.Scope
import ScriptEngine.Object.Text

/-!
# Realms

A realm is the world in which scripts run: the settings, the global object and the prototypes of the
standard kinds of objects. Everything that makes objects of these kinds is here.
-/

namespace ScriptEngine

/-- The settings and the standard objects. -/
structure Realm where
  config : Config
  global : ObjId
  objectPrototype : ObjId
  functionPrototype : ObjId
  arrayPrototype : ObjId
deriving Inhabited

namespace Store

/-- A plain object of a class. -/
def newPlain (s : Store) (className : String) (proto : Option ObjId)
    (primitive : Option Value) : ObjId × Store :=
  s.push { kind := .plain className primitive, proto }

def newNative (s : Store) (name : String) (arity : Nat) (proto : Option ObjId) (body : NativeBody) :
    ObjId × Store :=
  s.push { kind := .function { name, arity, callable := .native body }, proto }

/-- A function that makes its own result. -/
def newSelfMade (s : Store) (name : String) (result : Value) (proto parent : Option ObjId) :
    ObjId × Store :=
  s.push { kind := .function { name, arity := 0, callable := .selfMade result }, proto, parent }

/-- The scope of a with statement that exposes an object in front of another scope. -/
def newWithScope (s : Store) (target parent : ObjId) : ObjId × Store :=
  s.push { kind := .withScope, proto := some target, parent := some parent }

end Store

namespace Realm

def create (config : Config) : Realm × Store :=
  let (objectPrototype, s) := Store.newPlain {} "Object" none none
  let (functionPrototype, s) := s.newNative "" 0 (some objectPrototype) .inert
  let (apply, s) := s.newNative "apply" 2 (some functionPrototype) .apply
  let (call, s) := s.newNative "call" 1 (some functionPrototype) .call
  let s := s.define functionPrototype "apply" (.hidden (.object apply))
  let s := s.define functionPrototype "call" (.hidden (.object call))
  let (arrayPrototype, s) := s.newPlain "Object" (some objectPrototype) none
  let (global, s) := s.newPlain "global" (some objectPrototype) none
  let s := s.define global "undefined" (.readOnly .undefined)
  let s := s.define global "NaN" (.readOnly (.number .nan))
  let s := s.define global "Infinity" (.readOnly (.number (.infinity false)))
  ({ config, global, objectPrototype, functionPrototype, arrayPrototype }, s)

def newObject (r : Realm) (s : Store) : ObjId × Store :=
  s.newPlain "Object" (some r.objectPrototype) none

def newArray (r : Realm) (values : List Value) (s : Store) : ObjId × Store :=
  s.push { kind := .array values.toArray, proto := some r.arrayPrototype }

/-- The function of a unit. It runs in the given scope; if it is a closure, then even if functions
look names up in the scope of their caller. -/
def newFunction (r : Realm) (unit : CompiledUnit) (scope : ObjId) (closure : Bool) (s : Store) :
    ObjId × Store :=
  let captured := if closure then some scope else none
  s.push {
    kind := .function {
      name := unit.name
      arity := unit.argCount
      callable := .interpreted unit captured r.config.callerInspection }
    proto := some r.functionPrototype
    parent := some scope }

/-- The object of a value; booleans, numbers and strings are wrapped. -/
def toObject (r : Realm) (v : Value) (s : Store) : Except ScriptError (ObjId × Store) :=
  let wrap (className : String) := s.newPlain className (some r.objectPrototype) (some v)
  match v with
  | .object id => .ok (id, s)
  | .undefined | .null => .error (.noProperties (s.display v))
  | .boolean _ => .ok (wrap "Boolean")
  | .number _ => .ok (wrap "Number")
  | .string _ => .ok (wrap "String")

def inspect (r : Realm) (s : Store) : String :=
  Inspection.record "Context" [("config", r.config.inspect),
    ("global", Inspection.object s s.inspect (s.object r.global))]

end Realm

end ScriptEngine
