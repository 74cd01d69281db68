import ScriptEngine.Object.Access
import ScriptEngine.Value.Error

/-!
# Scopes

A property is found on an object or on one of its prototypes. A name is found in a scope, by the
same search, or in one of the scopes around it.
-/

namespace ScriptEngine

namespace Store

def hasProperty (s : Store) (id : ObjId) (name : String) : Bool :=
  (s.prototypes id).any fun o => s.has o name

/-- The innermost scope that has a name. -/
def bind? (s : Store) (scope : ObjId) (name : String) : Option ObjId :=
  (s.scopes scope).find? fun o => s.hasProperty o name

/-- Assigns to a name in the scope that has it, or else in the outermost one. -/
def assign (s : Store) (scope : ObjId) (name : String) (value : Value) : Store :=
  s.put ((s.bind? scope name).getD (s.topLevel scope)) name value

/-- The value at an index, of an object or of one of its prototypes. -/
def indexProperty (s : Store) (id : ObjId) (index : Nat) : Except Fault (Option Value) :=
  (s.prototypes id).findSomeM? fun o => s.readIndex o index

/-- The receiver of a function that uses it. None becomes the outermost scope; the scope of a with
statement becomes the object that it exposes, and the record of a call its outermost scope. -/
def receiver (s : Store) (this : Option ObjId) (scope : ObjId) : ObjId :=
  let object := s.exposed (this.getD (s.topLevel scope))
  if s.isActivation object then s.topLevel object else object

/-- The innermost scope that does not belong to a with statement. -/
def pastWith (s : Store) (scope : ObjId) : ObjId :=
  let scopes := s.scopes scope
  (scopes.find? fun o => !s.isWithScope o).getD (scopes.getLast?.getD scope)

/-- Binds a function in a scope as its declaration asks for. A declaration is permanent, or ordinary
in code of `eval`; a function statement in a block is bound past the scopes of with statements;
function expressions and functions without a name are not bound. -/
def declareFunction (s : Store) (scope function : ObjId) (fromEvalCode : Bool) : Store :=
  let name := s.functionName function
  if name.isEmpty then s
  else match (s.unit? function).bind (·.functionType) with
    | some .statement =>
      if fromEvalCode then s.put scope name (.object function)
      else s.define scope name (.permanent (.object function))
    | some .expressionStatement => s.put (s.pastWith scope) name (.object function)
    | _ => s

end Store

namespace StoreM

/-- The value of a name on an object or one of its prototypes. -/
def getProperty (id : ObjId) (name : String) : StoreM (Option Value) := do
  ((← get).prototypes id).findSomeM? fun o => getOwn o name

/-- The value of a name in a scope or one of the scopes around it. -/
def lookup (scope : ObjId) (name : String) : StoreM (Except ScriptError Value) := do
  match ← ((← get).scopes scope).findSomeM? fun o => getProperty o name with
  | some value => return .ok value
  | none => return .error (.notDefined name)

/-- Whether a value descends from the prototype of a function. -/
def hasInstance (function : ObjId) (value : Value) : StoreM (Except ScriptError Bool) := do
  match ← getOwn function "prototype" with
  | some (.object proto) =>
    let s ← get
    match value with
    | .object candidate => return .ok ((s.prototypes candidate).tail.contains proto)
    | _ => return .ok false
  | _ => return .error (.prototypeNotObject ((← get).functionName function))

end StoreM

end ScriptEngine
