import ScriptEngine.Call.Realm

/-!
# Records of calls

A function whose unit asks for it gets a record for each call: a scope object that binds the
formals, `arguments` and the declared variables. While the call is under way, its record is linked
into the chain of records that starts at the innermost one.
-/

namespace ScriptEngine

namespace Realm

def newArguments (r : Realm) (activation : ObjId) (data : ActivationData) (unit : CompiledUnit)
    (inspection : CallerInspection) (s : Store) : ObjId × Store :=
  let caller : CallerSlot :=
    if !unit.languageVersion.hasLegacyCaller then .missing
    else if inspection = .allow then .lazy
    else .value .null
  s.push {
    kind := .arguments {
      activation, unit, caller
      elements := (data.args.map some).toArray
      length := some (.ofNat data.args.length)
      callee := some (.object data.function) }
    proto := some r.objectPrototype
    parent := s.parent? activation }

/-- The bindings of the formals; the last of several with the same name counts. -/
def bindFormals (args : List Value) (formals : List String) : PropertyMap :=
  formals.zipIdx.foldl
    (fun m (name, i) => m.define name (.permanent (args.getD i .undefined))) {}

def bindVariables (names : List String) (m : PropertyMap) : PropertyMap :=
  names.foldl (fun m name => if m.has name then m else m.define name (.permanent .undefined)) m

/-- The record of a call of a function with a unit, in front of a scope. -/
def newActivation (r : Realm) (function : ObjId) (unit : CompiledUnit)
    (inspection : CallerInspection) (scope : ObjId) (receiver : Option ObjId) (args : List Value)
    (s : Store) : ObjId × Store :=
  let data : ActivationData := { function, receiver, args }
  let (id, s) := s.push {
    kind := .activation data
    properties := bindFormals args (unit.argNames.take unit.argCount)
    parent := some scope }
  let s :=
    if (s.properties id).has "arguments" then s
    else
      let (arguments, s) := r.newArguments id data unit inspection s
      s.define id "arguments" (.permanent (.object arguments))
  (id, s.setProperties id
    (bindVariables (unit.argNames.drop unit.argCount) (s.properties id)))

end Realm

namespace Store

/-- Links a record to the one that called it. -/
def setCaller (s : Store) (id : ObjId) (caller : Option ObjId) : Store :=
  match s.activation? id with
  | some a => s.setKind id (.activation { a with caller })
  | none => s

/-- Makes a record the innermost one. -/
def enter (s : Store) (id : ObjId) : Store :=
  { s.setCaller id s.innermost with innermost := some id }

/-- Takes away the innermost record, which must be the given one. It has no caller afterwards. -/
def leave (s : Store) (id : ObjId) : Except Fault Store :=
  let data := s.activation? id
  if s.innermost = some id then
    .ok { s.setCaller id none with innermost := data.bind (·.caller) }
  else .error (.stackMismatch ((data.map fun a => s.functionName a.function).getD ""))

end Store

end ScriptEngine
