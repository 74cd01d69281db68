import ScriptEngine.Fault

/-!
# Syntax trees

All nodes of a compilation live in one arena. A parent reaches its children through the link to the
first of them and the sibling links from there; `Tree.children` is the resulting list. Other
references between nodes (jump targets, attributes) own nothing.

The structural edits keep `first`, `last` and `next` in step. Each demands what its list counterpart
demands (the anchor is a child of the parent, an inserted node has no sibling yet) and ends in a
fault otherwise.
-/

namespace ScriptEngine

/-- An arena of syntax nodes. -/
structure Tree where
  nodes : Array Node := #[]
deriving DecidableEq, Repr, Inhabited

namespace Tree

/-! ## Reading -/

def size (t : Tree) : Nat := t.nodes.size

def isEmpty (t : Tree) : Bool := t.nodes.isEmpty

def node (t : Tree) (id : NodeId) : Node := t.nodes.getD id.index default

def check (t : Tree) (id : NodeId) : Except Fault Unit :=
  if id.index < t.size then .ok () else .error (.outOfRange t.size id.index)

def kind (t : Tree) (id : NodeId) : Token := (t.node id).kind

def line (t : Tree) (id : NodeId) : Option Nat := (t.node id).line

def string? (t : Tree) (id : NodeId) : Option String := (t.node id).string?

def firstChild? (t : Tree) (id : NodeId) : Option NodeId := (t.node id).first

def lastChild? (t : Tree) (id : NodeId) : Option NodeId := (t.node id).last

def next? (t : Tree) (id : NodeId) : Option NodeId := (t.node id).next

def hasChildren (t : Tree) (id : NodeId) : Bool := (t.node id).first.isSome

def jump? (t : Tree) (id : NodeId) : Option JumpData := (t.node id).jump?

def switch? (t : Tree) (id : NodeId) : Option SwitchData := (t.node id).switch?

def function? (t : Tree) (id : NodeId) : Option BodyId := (t.node id).function?

def target? (t : Tree) (id : NodeId) : Option NodeId := (t.jump? id).bind (·.target)

def attr? (t : Tree) (id : NodeId) (key : AttrKey) : Option AttrValue := (t.node id).attrs.get? key

/-- An integer attribute, or the given number if there is none. -/
def intAttrD (t : Tree) (id : NodeId) (key : AttrKey) (fallback : Int) : Int :=
  match t.attr? id key with
  | some (.int n) => n
  | _ => fallback

/-- The nodes from `start` along at most `fuel` sibling links. -/
def siblingsFrom (t : Tree) : Nat → Option NodeId → List NodeId
  | _, none => []
  | 0, some _ => []
  | fuel + 1, some id => id :: siblingsFrom t fuel (t.next? id)

/-- A node and the siblings after it. A chain without a cycle is no longer than the arena. -/
def run (t : Tree) (start : Option NodeId) : List NodeId := t.siblingsFrom t.size start

def children (t : Tree) (id : NodeId) : List NodeId := t.run (t.firstChild? id)

def lastSibling (t : Tree) (id : NodeId) : NodeId := (t.run (some id)).getLast?.getD id

def predecessor? (child : NodeId) : List NodeId → Option NodeId
  | a :: b :: rest => if b = child then some a else predecessor? child (b :: rest)
  | _ => none

/-- The child before `child`, or none if `child` is the first. -/
def childBefore (t : Tree) (parent child : NodeId) : Except Fault (Option NodeId) := do
  t.check parent
  if t.firstChild? parent = some child then return none
  match predecessor? child (t.children parent) with
  | some before => return some before
  | none => .error (.notChild child parent)

/-! ## Single nodes -/

/-- Changes one node. -/
def modify (t : Tree) (id : NodeId) (f : Node → Node) : Tree := ⟨t.nodes.modify id.index f⟩

def push (t : Tree) (n : Node) : NodeId × Tree := (⟨t.size⟩, ⟨t.nodes.push n⟩)

/-- Changes the kind of a node. A node without data of its own gets those of the new kind. -/
def setKind (t : Tree) (id : NodeId) (kind : Token) : Tree :=
  t.modify id fun n =>
    { n with kind, data := if n.data = .none then .ofKind kind else n.data }

def setLine (t : Tree) (id : NodeId) (line : Option Nat) : Tree := t.modify id ({ · with line })

def setPayload (t : Tree) (id : NodeId) (payload : Payload) : Tree :=
  t.modify id ({ · with payload })

def setFirst (t : Tree) (id : NodeId) (first : Option NodeId) : Tree :=
  t.modify id ({ · with first })

def setLast (t : Tree) (id : NodeId) (last : Option NodeId) : Tree := t.modify id ({ · with last })

def setNext (t : Tree) (id : NodeId) (next : Option NodeId) : Tree := t.modify id ({ · with next })

def setAttr (t : Tree) (id : NodeId) (key : AttrKey) (value : AttrValue) : Tree :=
  t.modify id fun n => { n with attrs := n.attrs.insert key value }

def eraseAttr (t : Tree) (id : NodeId) (key : AttrKey) : Tree :=
  t.modify id fun n => { n with attrs := n.attrs.erase key }

def setFunction (t : Tree) (id : NodeId) (body : BodyId) : Tree :=
  t.modify id ({ · with data := .function body })

def modifyJump (t : Tree) (id : NodeId) (f : JumpData → JumpData) : Except Fault Tree := do
  t.check id
  match t.jump? id with
  | some j => return t.modify id ({ · with data := .jump (f j) })
  | none => .error (.noJumpData id (t.kind id))

def setTarget (t : Tree) (id target : NodeId) : Except Fault Tree :=
  t.modifyJump id ({ · with target := some target })

def modifySwitch (t : Tree) (id : NodeId) (f : SwitchData → SwitchData) : Except Fault Tree := do
  t.check id
  match t.switch? id with
  | some s => return t.modify id ({ · with data := .switch (f s) })
  | none => .error (.notSwitch id)

/-! ## Structural edits -/

/-- Faults on a node that already has a sibling. -/
def checkDetached (t : Tree) (edit : String) (id : NodeId) : Except Fault Unit := do
  t.check id
  if (t.next? id).isSome then .error (.hasSibling edit id) else .ok ()

/-- Puts a run of siblings that ends in `tail` in front of all children. -/
def linkFront (t : Tree) (parent head tail : NodeId) : Tree :=
  let t := t.setNext tail (t.firstChild? parent)
  let t := t.setFirst parent (some head)
  if (t.lastChild? parent).isNone then t.setLast parent (some tail) else t

/-- Puts a run of siblings that ends in `tail` behind all children. -/
def linkBack (t : Tree) (parent head tail : NodeId) : Tree :=
  let t := match t.lastChild? parent with
    | some last => t.setNext last (some head)
    | none => t.setFirst parent (some head)
  t.setLast parent (some tail)

def addChildToFront (t : Tree) (parent child : NodeId) : Except Fault Tree := do
  t.checkDetached "add_child_to_front" child
  t.check parent
  return t.linkFront parent child child

def addChildToBack (t : Tree) (parent child : NodeId) : Except Fault Tree := do
  t.checkDetached "add_child_to_back" child
  t.check parent
  return t.linkBack parent child child

def addChildrenToFront (t : Tree) (parent children : NodeId) : Except Fault Tree := do
  t.check children
  t.check parent
  return t.linkFront parent children (t.lastSibling children)

def addChildrenToBack (t : Tree) (parent children : NodeId) : Except Fault Tree := do
  t.check children
  t.check parent
  return t.linkBack parent children (t.lastSibling children)

def addChildAfter (t : Tree) (parent new anchor : NodeId) : Except Fault Tree := do
  t.checkDetached "add_child_after" new
  t.check anchor
  t.check parent
  let t := t.setNext new (t.next? anchor)
  let t := t.setNext anchor (some new)
  return if t.lastChild? parent = some anchor then t.setLast parent (some new) else t

def addChildBefore (t : Tree) (parent new anchor : NodeId) : Except Fault Tree := do
  t.checkDetached "add_child_before" new
  match ← t.childBefore parent anchor with
  | none => return (t.setNext new (some anchor)).setFirst parent (some new)
  | some before => t.addChildAfter parent new before

def removeChild (t : Tree) (parent child : NodeId) : Except Fault Tree := do
  let before ← t.childBefore parent child
  let next := t.next? child
  let t := match before with
    | none => t.setFirst parent next
    | some b => t.setNext b next
  let t := if t.lastChild? parent = some child then t.setLast parent before else t
  return t.setNext child none

/-- Puts a run of siblings into the place of `child`, which follows `before`. -/
def splice (t : Tree) (parent : NodeId) (before : Option NodeId) (child new : NodeId) : Tree :=
  let tail := t.lastSibling new
  let t := t.setNext tail (t.next? child)
  let t := match before with
    | none => t.setFirst parent (some new)
    | some b => t.setNext b (some new)
  let t := if t.lastChild? parent = some child then t.setLast parent (some tail) else t
  t.setNext child none

/-- Replaces a child by a node, or by the run of siblings that the node heads. -/
def replaceChild (t : Tree) (parent child new : NodeId) : Except Fault Tree := do
  let before ← t.childBefore parent child
  t.check new
  return t.splice parent before child new

def replaceChildAfter (t : Tree) (parent before new : NodeId) : Except Fault Tree := do
  t.check before
  match t.next? before with
  | none => .error (.noSibling before)
  | some child =>
    t.check new
    t.check parent
    return t.splice parent (some before) child new

end Tree

/-! ## Edits in sequence -/

/-- Computations that build or change a tree and may end in a fault. -/
abbrev TreeM := StateT Tree (Except Fault)

namespace TreeM

def edit (f : Tree → Except Fault Tree) : TreeM Unit := fun t => (f t).map fun t => ((), t)

def push (n : Node) : TreeM NodeId := fun t => .ok (t.push n)

def newNode (kind : Token) : TreeM NodeId := push (.ofKind kind)

def newNodeAt (kind : Token) (line : Option Nat) : TreeM NodeId :=
  push { Node.ofKind kind with line }

def newString (kind : Token) (value : String) : TreeM NodeId :=
  push { Node.ofKind kind with payload := .string value }

def newNumber (value : Number) : TreeM NodeId :=
  push { Node.ofKind .number with payload := .number value }

def newInt (kind : Token) (value : Int) : TreeM NodeId :=
  push { Node.ofKind kind with payload := .int value }

def cloneNode (id : NodeId) : TreeM NodeId := do
  let t ← get
  t.check id
  push (t.node id).detached

def addChildren (parent : NodeId) (children : List NodeId) : TreeM Unit :=
  children.forM fun child => edit (·.addChildToBack parent child)

/-- A fresh node with at most three children. -/
def newWithChildren (kind : Token) (children : List NodeId) : TreeM NodeId := do
  if 3 < children.length then throw .tooManyChildren
  let id ← newNode kind
  addChildren id children
  return id

def addChildToBack (parent child : NodeId) : TreeM Unit := edit (·.addChildToBack parent child)

def addChildToFront (parent child : NodeId) : TreeM Unit := edit (·.addChildToFront parent child)

def addChildAfter (parent new anchor : NodeId) : TreeM Unit :=
  edit (·.addChildAfter parent new anchor)

def addChildBefore (parent new anchor : NodeId) : TreeM Unit :=
  edit (·.addChildBefore parent new anchor)

def removeChild (parent child : NodeId) : TreeM Unit := edit (·.removeChild parent child)

def replaceChild (parent child new : NodeId) : TreeM Unit := edit (·.replaceChild parent child new)

def setTarget (id target : NodeId) : TreeM Unit := edit (·.setTarget id target)

def modifyJump (id : NodeId) (f : JumpData → JumpData) : TreeM Unit := edit (·.modifyJump id f)

def modifySwitch (id : NodeId) (f : SwitchData → SwitchData) : TreeM Unit :=
  edit (·.modifySwitch id f)

def setKind (id : NodeId) (kind : Token) : TreeM Unit := modify (·.setKind id kind)

def setLine (id : NodeId) (line : Option Nat) : TreeM Unit := modify (·.setLine id line)

def setAttr (id : NodeId) (key : AttrKey) (value : AttrValue) : TreeM Unit :=
  modify (·.setAttr id key value)

def eraseAttr (id : NodeId) (key : AttrKey) : TreeM Unit := modify (·.eraseAttr id key)

def kind (id : NodeId) : TreeM Token := do
  let t ← get
  t.check id
  return t.kind id

end TreeM

end ScriptEngine
