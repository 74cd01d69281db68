import ScriptEngine.Token
import ScriptEngine.Number.Basic

/-!
# Syntax nodes

A program's syntax lives in one arena of nodes, addressed by `NodeId`. A node has a kind, a datum, a
line, the links to its first and last child and to its next sibling, data that come with its kind
(jump targets, switch clauses, the body that a function node stands for), and a short list of keyed
attributes.
-/

namespace ScriptEngine

structure NodeId where
  index : Nat
deriving DecidableEq, Repr, Inhabited

instance : ToString NodeId := ⟨fun id => s!"#{id.index}"⟩

structure BodyId where
  index : Nat
deriving DecidableEq, Repr, Inhabited

instance : ToString BodyId := ⟨fun id => s!"fn{id.index}"⟩

def BodyId.script : BodyId := ⟨0⟩

inductive Payload where
  | none
  | number (value : Number)
  | string (value : String)
  | int (value : Int)
deriving DecidableEq, Repr, Inhabited

/-- Targets of a node that jumps or is jumped out of. -/
structure JumpData where
  /-- Destination of a jump, break target of a loop or label, catch target of a try. -/
  target : Option NodeId := none
  continueTarget : Option NodeId := none
  /-- Start of the finally block of a try. -/
  finallyTarget : Option NodeId := none
  label : Option String := none
deriving DecidableEq, Repr, Inhabited

structure SwitchData where
  /-- Break target after the clauses. -/
  target : Option NodeId := none
  cases : List NodeId := []
  fallback : Option NodeId := none
deriving DecidableEq, Repr, Inhabited

inductive NodeData where
  | none
  | jump (data : JumpData)
  | switch (data : SwitchData)
  | function (body : BodyId)
deriving DecidableEq, Repr, Inhabited

/-- The data that a fresh node of the given kind starts with. -/
def NodeData.ofKind (kind : Token) : NodeData :=
  if kind = .switch then .switch {}
  else if kind.isJump then .jump {}
  else .none

inductive AttrKey where
  /-- Class of a call that can see its caller's scope. -/
  | specialCall
  | varIndex
  | regExpIndex
  /-- The enumeration that a node belongs to. -/
  | enumInit
deriving DecidableEq, Repr, Inhabited

def AttrKey.label : AttrKey → String
  | .specialCall => "SpecialCall"
  | .varIndex => "VarIndex"
  | .regExpIndex => "RegExpIndex"
  | .enumInit => "EnumInit"

inductive AttrValue where
  | int (value : Int)
  | node (id : NodeId)
deriving DecidableEq, Repr, Inhabited

/-- Attributes in the order in which they were first set. -/
structure Attrs where
  entries : List (AttrKey × AttrValue) := []
deriving DecidableEq, Repr, Inhabited

namespace Attrs

def isEmpty (a : Attrs) : Bool := a.entries.isEmpty

def get? (a : Attrs) (key : AttrKey) : Option AttrValue := a.entries.lookup key

/-- Stores a value under a key: in its old place if there is one, at the end otherwise. -/
def insert (a : Attrs) (key : AttrKey) (value : AttrValue) : Attrs :=
  if (a.get? key).isSome then
    ⟨a.entries.map fun e => if e.1 = key then (key, value) else e⟩
  else ⟨a.entries ++ [(key, value)]⟩

/-- Removes a key; the last entry takes the place that becomes free. -/
def erase (a : Attrs) (key : AttrKey) : Attrs :=
  match a.entries.findIdx? (·.1 = key), a.entries.getLast? with
  | some i, some last => ⟨(a.entries.set i last).dropLast⟩
  | _, _ => a

end Attrs

/-- Calls that can see or change the scope of their caller. -/
inductive SpecialCall where
  | eval
  | withCall
  | exec
deriving DecidableEq, Repr, Inhabited

namespace SpecialCall

def ofName? (name : String) : Option SpecialCall :=
  if name = "eval" then some .eval else if name = "With" then some .withCall else none

def ofMethod? (name : String) : Option SpecialCall :=
  if name = "exec" then some .exec else none

def code : SpecialCall → Int
  | .eval => 1
  | .withCall => 2
  | .exec => 3

def ofCode? (n : Int) : Option SpecialCall :=
  [eval, withCall, exec].find? (·.code = n)

theorem ofCode?_code (s : SpecialCall) : ofCode? s.code = some s := by
  cases s <;> rfl

end SpecialCall

/-- A syntax node. -/
structure Node where
  kind : Token
  first : Option NodeId := none
  last : Option NodeId := none
  next : Option NodeId := none
  payload : Payload := .none
  line : Option Nat := none
  data : NodeData := .none
  attrs : Attrs := ⟨[]⟩
deriving DecidableEq, Repr, Inhabited

namespace Node

def ofKind (kind : Token) : Node := { kind, data := .ofKind kind }

def string? (n : Node) : Option String :=
  match n.payload with
  | .string s => some s
  | _ => none

def number? (n : Node) : Option Number :=
  match n.payload with
  | .number x => some x
  | _ => none

def jump? (n : Node) : Option JumpData :=
  match n.data with
  | .jump j => some j
  | _ => none

def switch? (n : Node) : Option SwitchData :=
  match n.data with
  | .switch s => some s
  | _ => none

def function? (n : Node) : Option BodyId :=
  match n.data with
  | .function b => some b
  | _ => none

def detached (n : Node) : Node := { n with first := none, last := none, next := none }

end Node

end ScriptEngine
