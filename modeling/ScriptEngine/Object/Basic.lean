import ScriptEngine.Code.Unit
import ScriptEngine.Object.Property

/-!
# Objects

Every object has named properties, a prototype and a parent scope. What else it has depends on its
kind: wrapped values, the elements of arrays, functions with what they run, the records of calls,
and the `arguments` objects of those. All objects live in one store and refer to each other by their
places in it. The store also knows the record of the innermost call.
-/

namespace ScriptEngine

/-- The `prototype` property of a function, which is made when it is first read. -/
inductive PrototypeSlot where
  | unset
  | set (value : Value)
  | deleted
deriving DecidableEq, Repr, Inhabited

inductive NativeBody where
  /-- Does nothing. -/
  | inert
  /-- Calls its receiver with the arguments in an array. -/
  | apply
  /-- Calls its receiver with the rest of the arguments. -/
  | call
  /-- Runs code of the embedding program, which knows it by a key. -/
  | host (key : String)
deriving DecidableEq, Repr, Inhabited

inductive Callable where
  /-- Runs a compiled unit; a closure always runs in the scope that it was made in. -/
  | interpreted (unit : CompiledUnit) (closure : Option ObjId) (inspection : CallerInspection)
  | native (body : NativeBody)
  /-- Answers a fixed value, and makes its own result when it is called as a constructor. -/
  | selfMade (result : Value)

structure FunctionData where
  name : String
  arity : Nat
  callable : Callable
  slot : PrototypeSlot := .unset
  /-- The prototype is fixed: it ignores writes and deletes. -/
  immune : Bool := false

/-- The record of a call. -/
structure ActivationData where
  function : ObjId
  receiver : Option ObjId
  args : List Value
  caller : Option ObjId := none

inductive CallerSlot where
  /-- The `arguments` of the calling record, looked up when it is read. -/
  | lazy
  | value (v : Value)
  | missing
deriving DecidableEq, Repr, Inhabited

structure ArgumentsData where
  activation : ObjId
  unit : CompiledUnit
  /-- The passed values; deleted ones are gone. The array of the call that is shared until the first
  write or deletion and the private copy made then are one array here. -/
  elements : Array (Option Value)
  length : Option Value
  callee : Option Value
  caller : CallerSlot

/-- The kinds of objects. -/
inductive ObjectKind where
  | plain (className : String) (primitive : Option Value)
  | array (elements : Array Value)
  /-- The scope of a with statement; the object that it exposes is its prototype. -/
  | withScope
  | function (data : FunctionData)
  | activation (data : ActivationData)
  | arguments (data : ArgumentsData)

instance : Inhabited ObjectKind := ⟨.plain "Object" none⟩

structure Object where
  kind : ObjectKind
  properties : PropertyMap := {}
  proto : Option ObjId := none
  parent : Option ObjId := none
deriving Inhabited

def Object.className (o : Object) : String :=
  match o.kind with
  | .plain className _ => className
  | .array _ => "Array"
  | .withScope => "With"
  | .function _ => "Function"
  | .activation _ => "Call"
  | .arguments _ => "Arguments"

structure Store where
  objects : Array Object := #[]
  innermost : Option ObjId := none
deriving Inhabited

namespace Store

def size (s : Store) : Nat := s.objects.size

def object (s : Store) (id : ObjId) : Object := s.objects.getD id.index default

def kind (s : Store) (id : ObjId) : ObjectKind := (s.object id).kind

def properties (s : Store) (id : ObjId) : PropertyMap := (s.object id).properties

def proto? (s : Store) (id : ObjId) : Option ObjId := (s.object id).proto

def parent? (s : Store) (id : ObjId) : Option ObjId := (s.object id).parent

def className (s : Store) (id : ObjId) : String := (s.object id).className

def function? (s : Store) (id : ObjId) : Option FunctionData :=
  match s.kind id with
  | .function f => some f
  | _ => none

def activation? (s : Store) (id : ObjId) : Option ActivationData :=
  match s.kind id with
  | .activation a => some a
  | _ => none

def isCallable (s : Store) (id : ObjId) : Bool := (s.function? id).isSome

def isActivation (s : Store) (id : ObjId) : Bool := (s.activation? id).isSome

def isWithScope (s : Store) (id : ObjId) : Bool :=
  match s.kind id with
  | .withScope => true
  | _ => false

def functionName (s : Store) (id : ObjId) : String := ((s.function? id).map (·.name)).getD ""

def unit? (s : Store) (id : ObjId) : Option CompiledUnit :=
  match s.function? id with
  | some { callable := .interpreted unit _ _, .. } => some unit
  | _ => none

/-! ## Changes -/

def push (s : Store) (o : Object) : ObjId × Store :=
  (⟨s.size⟩, { s with objects := s.objects.push o })

def modify (s : Store) (id : ObjId) (f : Object → Object) : Store :=
  { s with objects := s.objects.modify id.index f }

def setKind (s : Store) (id : ObjId) (kind : ObjectKind) : Store := s.modify id ({ · with kind })

def setProto (s : Store) (id : ObjId) (proto : Option ObjId) : Store :=
  s.modify id ({ · with proto })

def setParent (s : Store) (id : ObjId) (parent : Option ObjId) : Store :=
  s.modify id ({ · with parent })

def setProperties (s : Store) (id : ObjId) (properties : PropertyMap) : Store :=
  s.modify id ({ · with properties })

def define (s : Store) (id : ObjId) (name : String) (p : Property) : Store :=
  s.setProperties id ((s.properties id).define name p)

/-! ## Walks -/

/-- The objects from `start` along at most `fuel` links. -/
def walk (s : Store) (link : Object → Option ObjId) : Nat → Option ObjId → List ObjId
  | _, none => []
  | 0, some _ => []
  | fuel + 1, some id => id :: walk s link fuel (link (s.object id))

/-- An object, its prototype, the prototype of that, and so on. A chain without a cycle is no longer
than the store. -/
def prototypes (s : Store) (id : ObjId) : List ObjId := s.walk (·.proto) s.size (some id)

def scopes (s : Store) (id : ObjId) : List ObjId := s.walk (·.parent) s.size (some id)

def topLevel (s : Store) (id : ObjId) : ObjId := (s.scopes id).getLast?.getD id

def callerLink (o : Object) : Option ObjId :=
  match o.kind with
  | .activation a => a.caller
  | _ => none

def activations (s : Store) : List ObjId := s.walk callerLink s.size s.innermost

def activationOf? (s : Store) (function : ObjId) : Option ObjId :=
  s.activations.find? fun a => ((s.activation? a).map (·.function)) = some function

def argumentsOf? (s : Store) (activation : ObjId) : Option Value :=
  (s.properties activation).get? "arguments"

end Store

end ScriptEngine
