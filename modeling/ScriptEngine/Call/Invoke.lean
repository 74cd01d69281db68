import ScriptEngine.Call.Machine

/-!
# Calls

Calling a function, calling it as a constructor, the methods `apply` and `call` of functions, and
running a script.
-/

namespace ScriptEngine

variable {σ : Type}

/-! ## The methods of functions -/

/-- The arguments that `apply` passes on: those in the array that is its second argument. -/
def appliedArgs : Option Value → Run σ (List Value)
  | none | some .undefined | some .null => return []
  | some (.object array) => do
    match ← Run.read (·.elements? array) with
    | some values => return values
    | none => throw .notArray
  | some _ => throw .notArray

/-- The method `apply` of functions, or `call`: calls its receiver. The first argument becomes the
receiver of that call; without one it is the outermost scope. -/
def applyOrCall (isApply : Bool) (d : Dispatch σ) (c : NativeCall) : Run σ Value := do
  let nonFunction := ScriptError.methodOnNonFunction (if isApply then "apply" else "call")
  let some function := c.receiver | throw nonFunction
  let s ← Run.store
  if !s.isCallable function then throw nonFunction
  let receiver ← match c.args.head? with
    | none | some .undefined | some .null => pure (s.topLevel c.scope)
    | some value => Run.toObject value
  let args ← if isApply then appliedArgs c.args[1]? else pure (c.args.drop 1)
  d.call function c.scope (some receiver) args

/-! ## Calling a function -/

/-- The scope in which a function runs: that of a closure, the one around the function, or, if names
are looked up dynamically, the one of the caller. -/
def runningScope (s : Store) (function : ObjId) (unit : CompiledUnit) (closure : Option ObjId)
    (callerScope : ObjId) : ObjId :=
  match closure with
  | some scope => scope
  | none =>
    if unit.useDynamicScope then callerScope else (s.parent? function).getD callerScope

namespace Host

/-- Runs the unit of a function. If the unit needs it, a record of the call is the innermost one for
as long as the unit runs, however it ends. -/
def callUnit (h : Host σ) (d : Dispatch σ) (function : ObjId) (unit : CompiledUnit)
    (closure : Option ObjId) (inspection : CallerInspection) (c : NativeCall) : Run σ Value := do
  let s ← Run.store
  let scope := runningScope s function unit closure c.scope
  let receiver := if unit.checkThis then some (s.receiver c.receiver scope) else c.receiver
  if unit.needsActivation then
    let realm ← Run.realm
    let record ← Run.allocate
      (realm.newActivation function unit inspection scope receiver c.args)
    Run.modifyStore (·.enter record)
    let result ← ExceptT.lift
      (h.interpret d (.start (some function) unit record receiver c.args (some record))).run
    Run.leave record
    match result with
    | .ok value => return value
    | .error e => throw e
  else h.interpret d (.start (some function) unit scope receiver c.args none)

def call (h : Host σ) (d : Dispatch σ) (function scope : ObjId) (receiver : Option ObjId)
    (args : List Value) : Run σ Value := do
  let c : NativeCall := { scope, receiver, args }
  match (← Run.store).function? function with
  | some f =>
    match f.callable with
    | .interpreted unit closure inspection => h.callUnit d function unit closure inspection c
    | .native .inert => return .undefined
    | .native .apply => applyOrCall true d c
    | .native .call => applyOrCall false d c
    | .native (.host key) => h.native d key c
    | .selfMade result => return result
  | none => throw (.notFunction ((← Run.store).display (.object function)))

/-! ## Running a script -/

/-- Declares the variables of a script that are not visible from its scope yet. -/
def declareVariables (unit : CompiledUnit) (scope : ObjId) (s : Store) : Store :=
  unit.argNames.foldl (fun s name =>
    if s.hasProperty scope name then s
    else if unit.fromEvalCode then s.put scope name .undefined
    else s.define scope name (.permanent .undefined)) s

def declareFunctions (realm : Realm) (unit : CompiledUnit) (scope : ObjId) (s : Store) : Store :=
  unit.nested.foldl (fun s nested =>
    if nested.functionType = some .statement then
      let (function, s) := realm.newFunction nested scope false s
      s.declareFunction scope function unit.fromEvalCode
    else s) s

def execute (h : Host σ) (d : Dispatch σ) (unit : CompiledUnit) (scope : ObjId) : Run σ Value := do
  if unit.isFunction then throw (.notScript unit.name)
  let realm ← Run.realm
  Run.modifyStore fun s => declareFunctions realm unit scope (declareVariables unit scope s)
  let s ← Run.store
  h.interpret d (.start none unit scope (some (s.topLevel scope)) [] none)

def dispatch (h : Host σ) : Nat → Dispatch σ
  | 0 =>
    { call := fun _ _ _ _ => Run.fault .callDepth
      execute := fun _ _ => Run.fault .callDepth }
  | depth + 1 =>
    { call := fun function scope receiver args =>
        h.call (dispatch h depth) function scope receiver args
      execute := fun unit scope => h.execute (dispatch h depth) unit scope }

end Host

/-! ## Using the means -/

namespace Dispatch

def callValue (d : Dispatch σ) (function : Value) (receiver : Option ObjId) (args : List Value) :
    Run σ Value := do
  let s ← Run.store
  match function with
  | .object id =>
    if s.isCallable id then d.call id (← Run.realm).global receiver args
    else throw (.notFunction (s.display function))
  | _ => throw (.notFunction (s.display function))

def classPrototype (function : ObjId) : Run σ ObjId := do
  match ← Run.onStore (StoreM.getOwn function "prototype") with
  | some (.object proto) => return proto
  | _ => return (← Run.realm).objectPrototype

/-- The receiver for a call as constructor; none if the function makes its own result. -/
def createObject (function : ObjId) : Run σ (Option ObjId) := do
  match (← Run.store).function? function with
  | some { callable := .selfMade _, .. } => return none
  | _ =>
    let proto ← classPrototype function
    let object ← Run.allocate fun s => s.newPlain "Object" (some proto) none
    Run.modifyStore fun s => s.setParent object (s.parent? function)
    return some object

/-- Gives an object that a function made the prototype and the scope that it lacks. -/
def adopt (function object : ObjId) : Run σ Unit := do
  if ((← Run.store).proto? object).isNone then
    let proto ← classPrototype function
    Run.modifyStore (·.setProto object (some proto))
  let s ← Run.store
  if (s.parent? object).isNone then
    match s.parent? function with
    | some parent =>
      if parent ≠ object then Run.modifyStore (·.setParent object (some parent))
    | none => return ()

def construct (d : Dispatch σ) (function scope : ObjId) (args : List Value) : Run σ ObjId := do
  match ← createObject function with
  | some receiver =>
    match ← d.call function scope (some receiver) args with
    | .object result => return result
    | _ => return receiver
  | none =>
    match ← d.call function scope none args with
    | .object result =>
      adopt function result
      return result
    | _ => Run.fault (.noReceiver ((← Run.store).functionName function))

end Dispatch

end ScriptEngine
