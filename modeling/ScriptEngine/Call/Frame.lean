import ScriptEngine.Object.Scope
import ScriptEngine.Object.Text

/-!
# Frames

A frame is what an interpreter needs for one execution of a unit: the scope, the receiver and the
arguments, and slots for variables and temporaries. Without a record of the call the variables live
in the slots, and the parameters start out there.
-/

namespace ScriptEngine

/-- One execution of a unit. -/
structure Frame where
  /-- The function that runs; none for a script. -/
  function : Option ObjId
  unit : CompiledUnit
  scope : ObjId
  receiver : Option ObjId
  args : List Value
  vars : Array Value
  /-- Slots of temporaries. -/
  locals : Array Value
  activation : Option ObjId

namespace Frame

/-- The value in a slot; a slot that is not there reads undefined. -/
def slot (slots : Array Value) (index : Nat) : Value := slots.getD index .undefined

def setSlot (slots : Array Value) (index : Nat) (value : Value) : Array Value :=
  (resizeElements slots (max slots.size (index + 1))).setIfInBounds index value

/-- The slots of the variables of a function: first the parameters with the passed values, then
undefined variables. -/
def initialVars (unit : CompiledUnit) (args : List Value) : Array Value :=
  Array.ofFn fun i : Fin unit.maxVars =>
    if i.val < unit.argCount then args.getD i.val .undefined else .undefined

def start (function : Option ObjId) (unit : CompiledUnit) (scope : ObjId) (receiver : Option ObjId)
    (args : List Value) (activation : Option ObjId) : Frame :=
  { function, unit, scope, receiver, args, activation
    vars := if activation.isNone && unit.isFunction then initialVars unit args else #[]
    locals := Array.replicate unit.maxLocals .undefined }

def arg (f : Frame) (index : Nat) : Value := f.args.getD index .undefined

def getVar (f : Frame) (index : Nat) : Value := slot f.vars index

def setVar (f : Frame) (index : Nat) (value : Value) : Frame :=
  { f with vars := setSlot f.vars index value }

def getLocal (f : Frame) (index : Nat) : Value := slot f.locals index

def setLocal (f : Frame) (index : Nat) (value : Value) : Frame :=
  { f with locals := setSlot f.locals index value }

def inspect (f : Frame) : String :=
  Inspection.record "Frame" [("unit", Text.quoted f.unit.name),
    ("args", toString f.args.length), ("vars", toString f.vars.size),
    ("activation", toString f.activation.isSome)]

end Frame

end ScriptEngine
