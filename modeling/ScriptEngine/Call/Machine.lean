import ScriptEngine.Call.Activation
import ScriptEngine.Call.Frame

/-!
# The machine

A machine is a realm, a store and a state of the embedding program. The embedding program brings
what runs units and native functions; it gets back the means to make further calls, one level
deeper. A computation on the machine ends in a value or in an error of the script. A fault ends
everything and leaves the machine as it was at that moment.
-/

namespace ScriptEngine

/-- A realm at work, in an embedding program with the state `σ`. -/
structure Machine (σ : Type) where
  realm : Realm
  store : Store
  host : σ

abbrev Run (σ : Type) := ExceptT ScriptError (EStateM Fault (Machine σ))

namespace Run

variable {σ α : Type}

def fault (f : Fault) : Run σ α := ExceptT.lift (throw f)

def store : Run σ Store := return (← getThe (Machine σ)).store

def realm : Run σ Realm := return (← getThe (Machine σ)).realm

def onStore (m : StoreM α) : Run σ α := do
  match m.run (← store) with
  | .ok (a, store) =>
    modifyThe (Machine σ) ({ · with store })
    return a
  | .error f => fault f

def modifyStore (f : Store → Store) : Run σ Unit :=
  modifyThe (Machine σ) fun m => { m with store := f m.store }

def allocate (f : Store → ObjId × Store) : Run σ ObjId := do
  let (id, store) := f (← store)
  modifyThe (Machine σ) ({ · with store })
  return id

def read (f : Store → Except Fault α) : Run σ α := do
  match f (← store) with
  | .ok a => return a
  | .error e => fault e

/-- Runs a computation on the store that may end in an error. -/
def checked (m : StoreM (Except ScriptError α)) : Run σ α := do
  match ← onStore m with
  | .ok a => return a
  | .error e => throw e

def toObject (v : Value) : Run σ ObjId := do
  match (← realm).toObject v (← store) with
  | .ok (id, store) =>
    modifyThe (Machine σ) ({ · with store })
    return id
  | .error e => throw e

def leave (activation : ObjId) : Run σ Unit := do
  match (← store).leave activation with
  | .ok store => modifyThe (Machine σ) ({ · with store })
  | .error f => fault f

end Run

/-- The means to make calls and to run scripts. -/
structure Dispatch (σ : Type) where
  /-- Calls a function from a scope, with a receiver and arguments. -/
  call : ObjId → ObjId → Option ObjId → List Value → Run σ Value
  execute : CompiledUnit → ObjId → Run σ Value

structure NativeCall where
  scope : ObjId
  receiver : Option ObjId
  args : List Value

/-- What an embedding program brings: how units run, and what its native functions do. -/
structure Host (σ : Type) where
  interpret : Dispatch σ → Frame → Run σ Value
  native : Dispatch σ → String → NativeCall → Run σ Value

end ScriptEngine
