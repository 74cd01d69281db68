import ScriptEngine.Object.Basic
import ScriptEngine.Object.Index

/-!
# Access to properties

Reading, writing, testing and deleting the properties of a single object, by name and by index, for
every kind of object:

* an array keeps its elements apart from its properties and has a `length`;
* a function has a `length`, an `arity` and a `name` that cannot be changed, a `prototype` that is
  made when it is first read, and `arguments` while a call of it is under way;
* an element of an `arguments` object that belongs to a formal is an alias of the formal's binding
  in the record of the call; elements that were deleted make way for properties of the same name;
* writing a name through the scope of a with statement writes to the object that it exposes.
-/

namespace ScriptEngine

abbrev StoreM := StateT Store (Except Fault)

/-- Whether the element at an index is an alias: the index is that of a formal, and no later formal
has the same name. -/
def CompiledUnit.isAliased (u : CompiledUnit) (index : Nat) : Bool :=
  match (u.argNames.take u.argCount).drop index with
  | name :: later => !later.contains name
  | [] => false

def CompiledUnit.formal (u : CompiledUnit) (index : Nat) : String := (u.argName? index).getD ""

namespace ArgumentsData

/-- An element that has not been deleted. -/
def element? (a : ArgumentsData) (index : Nat) : Option Value := (a.elements[index]?).join

def setElement (a : ArgumentsData) (index : Nat) (value : Option Value) : ArgumentsData :=
  { a with elements := a.elements.setIfInBounds index value }

def liveIndices (a : ArgumentsData) : List Nat :=
  (List.range a.elements.size).filter fun i => (a.element? i).isSome

end ArgumentsData

/-- An array of the given size: cut off, or filled up with undefined values. -/
def resizeElements (elements : Array Value) (size : Nat) : Array Value :=
  elements.take size ++ Array.replicate (size - elements.size) .undefined

namespace Store

/-! ## What depends on the calls under way -/

/-- The `length` of a function: how many formals it has, or, for version 1.2 during a call, how many
arguments were passed. -/
def functionLength (s : Store) (id : ObjId) (f : FunctionData) : Nat :=
  match f.callable with
  | .interpreted unit _ _ =>
    if unit.languageVersion = .v12 then
      match (s.activationOf? id).bind s.activation? with
      | some a => a.args.length
      | none => f.arity
    else f.arity
  | _ => f.arity

/-- The `arguments` of a function: those of its innermost call, or null if its callers are not to be
seen. -/
def reflectedArguments? (s : Store) (id : ObjId) (f : FunctionData) : Option Value :=
  match f.callable with
  | .interpreted _ _ .deny => some .null
  | .interpreted _ _ .allow => (s.activationOf? id).map fun a => (s.argumentsOf? a).getD .null
  | _ => none

/-- The `caller` of an `arguments` object: the `arguments` of the calling record. -/
def callerValue? (s : Store) (a : ArgumentsData) : Option Value :=
  match a.caller with
  | .lazy =>
    let caller := (s.activation? a.activation).bind (·.caller)
    some ((caller.bind s.argumentsOf?).getD .null)
  | .value v => some v
  | .missing => none

/-! ## By index -/

/-- The value at an index. An alias reads the binding of its formal, which must be there. -/
def readIndex (s : Store) (id : ObjId) (index : Nat) : Except Fault (Option Value) :=
  let ordinary := (s.properties id).get? (indexName index)
  match s.kind id with
  | .array elements => .ok elements[index]?
  | .arguments a =>
    match a.element? index with
    | none => .ok ordinary
    | some v =>
      if a.unit.isAliased index then
        let formal := a.unit.formal index
        match (s.properties a.activation).get? formal with
        | some v => .ok (some v)
        | none => .error (.lostBinding index formal)
      else .ok (some v)
  | _ => .ok ordinary

def putOrdinary (s : Store) (id : ObjId) (name : String) (value : Value) : Store :=
  s.setProperties id ((s.properties id).put name value)

def putIndex (s : Store) (id : ObjId) (index : Nat) (value : Value) : Store :=
  match s.kind id with
  | .array elements =>
    let elements := resizeElements elements (max elements.size (index + 1))
    s.setKind id (.array (elements.setIfInBounds index value))
  | .arguments a =>
    if (a.element? index).isNone then s.putOrdinary id (indexName index) value
    else if a.unit.isAliased index then s.putOrdinary a.activation (a.unit.formal index) value
    else s.setKind id (.arguments (a.setElement index (some value)))
  | _ => s.putOrdinary id (indexName index) value

def hasIndex (s : Store) (id : ObjId) (index : Nat) : Bool :=
  let ordinary := (s.properties id).has (indexName index)
  match s.kind id with
  | .array elements => index < elements.size
  | .arguments a => (a.element? index).isSome || ordinary
  | _ => ordinary

def deleteOrdinary (s : Store) (id : ObjId) (name : String) : Bool × Store :=
  let (deleted, properties) := (s.properties id).delete name
  (deleted, s.setProperties id properties)

/-- Deletes the value at an index. Elements of arrays become undefined. -/
def deleteIndex (s : Store) (id : ObjId) (index : Nat) : Bool × Store :=
  match s.kind id with
  | .array elements => (true, s.setKind id (.array (elements.setIfInBounds index .undefined)))
  | .arguments a =>
    if (a.element? index).isSome then (true, s.setKind id (.arguments (a.setElement index none)))
    else s.deleteOrdinary id (indexName index)
  | _ => s.deleteOrdinary id (indexName index)

/-! ## Functions and their prototypes -/

/-- Makes the default prototype of a function that has not had any: an object whose `constructor` is
the function, and whose own prototype is the root of the function's chain. -/
def settlePrototype (s : Store) (id : ObjId) : Store :=
  match s.function? id with
  | some f =>
    match f.slot with
    | .unset =>
      let (fresh, s) := s.push {
        kind := .plain "Object" none
        properties := ({} : PropertyMap).define "constructor" (.readOnly (.object id))
        proto := (s.prototypes id).tail.getLast? }
      s.setKind id (.function { f with slot := .set (.object fresh) })
    | _ => s
  | none => s

def fixPrototype (s : Store) (id : ObjId) (value : Value) : Store :=
  match s.function? id with
  | some f => s.setKind id (.function { f with slot := .set value, immune := true })
  | none => s

/-! ## By name -/

/-- The value of a name on the object itself, as far as it exists: the default prototype of a
function is not made. -/
def read (s : Store) (id : ObjId) (name : String) : Except Fault (Option Value) :=
  let ordinary := (s.properties id).get? name
  match s.kind id with
  | .array elements =>
    if name = "length" then .ok (some (.ofNat elements.size))
    else match arrayIndex? name with
      | some index => s.readIndex id index
      | none => .ok ordinary
  | .function f =>
    match name with
    | "length" => .ok (some (.ofNat (s.functionLength id f)))
    | "arity" => .ok (some (.ofNat f.arity))
    | "name" => .ok (some (.string f.name))
    | "prototype" =>
      match f.slot with
      | .set value => .ok (some value)
      | _ => .ok none
    | "arguments" => .ok (s.reflectedArguments? id f <|> ordinary)
    | _ => .ok ordinary
  | .arguments a =>
    match name with
    | "length" => .ok (a.length <|> ordinary)
    | "callee" => .ok (a.callee <|> ordinary)
    | "caller" => .ok (s.callerValue? a <|> ordinary)
    | _ =>
      match arrayIndex? name with
      | some index => s.readIndex id index
      | none => .ok ordinary
  | _ => .ok ordinary

def has (s : Store) (id : ObjId) (name : String) : Bool :=
  let ordinary := (s.properties id).has name
  match s.kind id with
  | .array _ =>
    name = "length" || match arrayIndex? name with
      | some index => s.hasIndex id index
      | none => ordinary
  | .function f =>
    match name with
    | "length" | "arity" | "name" => true
    | "prototype" => f.slot ≠ .deleted
    | "arguments" => (s.reflectedArguments? id f).isSome || ordinary
    | _ => ordinary
  | .arguments a =>
    match name with
    | "length" => a.length.isSome || ordinary
    | "callee" => a.callee.isSome || ordinary
    | "caller" => a.caller ≠ .missing || ordinary
    | _ =>
      match arrayIndex? name with
      | some index => s.hasIndex id index
      | none => ordinary
  | _ => ordinary

/-- Writes a name on an object that is not the scope of a with statement. -/
def putOwn (s : Store) (id : ObjId) (name : String) (value : Value) : Store :=
  match s.kind id with
  | .array elements =>
    if name = "length" then s.setKind id (.array (resizeElements elements value.toUInt32))
    else match arrayIndex? name with
      | some index => s.putIndex id index value
      | none => s.putOrdinary id name value
  | .function f =>
    match name with
    | "length" | "arity" | "name" => s
    | "prototype" =>
      if f.immune then s else s.setKind id (.function { f with slot := .set value })
    | _ => s.putOrdinary id name value
  | .arguments a =>
    match name with
    | "length" => s.setKind id (.arguments { a with length := some value })
    | "callee" => s.setKind id (.arguments { a with callee := some value })
    | "caller" => s.setKind id (.arguments { a with caller := .value value })
    | _ =>
      match arrayIndex? name with
      | some index => s.putIndex id index value
      | none => s.putOrdinary id name value
  | _ => s.putOrdinary id name value

/-- The object that the scope of a with statement exposes. -/
def exposedLink (o : Object) : Option ObjId :=
  match o.kind with
  | .withScope => o.proto
  | _ => none

/-- The object behind a scope of with statements, or the object itself if it is none. -/
def exposed (s : Store) (id : ObjId) : ObjId :=
  (s.walk exposedLink s.size (some id)).getLast?.getD id

def put (s : Store) (id : ObjId) (name : String) (value : Value) : Store :=
  s.putOwn (s.exposed id) name value

/-- Deletes a name. The answer is false if it cannot be deleted. -/
def delete (s : Store) (id : ObjId) (name : String) : Bool × Store :=
  match s.kind id with
  | .array _ =>
    if name = "length" then (false, s)
    else match arrayIndex? name with
      | some index => s.deleteIndex id index
      | none => s.deleteOrdinary id name
  | .function f =>
    match name with
    | "length" | "arity" | "name" => (false, s)
    | "prototype" =>
      if f.immune then (false, s)
      else (true, s.setKind id (.function { f with slot := .deleted }))
    | _ => s.deleteOrdinary id name
  | .arguments a =>
    match name with
    | "length" => (true, s.setKind id (.arguments { a with length := none }))
    | "callee" => (true, s.setKind id (.arguments { a with callee := none }))
    | "caller" => (true, s.setKind id (.arguments { a with caller := .missing }))
    | _ =>
      match arrayIndex? name with
      | some index => s.deleteIndex id index
      | none => s.deleteOrdinary id name
  | _ => s.deleteOrdinary id name

/-- The names that are enumerated: indices first, then properties in order. -/
def keys (s : Store) (id : ObjId) : List String :=
  let indices := match s.kind id with
    | .array elements => List.range elements.size
    | .arguments a => a.liveIndices
    | _ => []
  indices.map indexName ++ (s.properties id).keys

def elements? (s : Store) (id : ObjId) : Except Fault (Option (List Value)) := do
  match s.kind id with
  | .array elements => return some elements.toList
  | .arguments _ =>
    let length := ((← s.read id "length").getD .undefined).toUInt32
    let values ← (List.range length).mapM fun i => do return (← s.readIndex id i).getD .undefined
    return some values
  | _ => return none

end Store

namespace StoreM

/-- The value of a name on the object itself; the `prototype` of a function is made if need be. -/
def getOwn (id : ObjId) (name : String) : StoreM (Option Value) := do
  if name = "prototype" then modify (·.settlePrototype id)
  (← get).read id name

end StoreM

end ScriptEngine
