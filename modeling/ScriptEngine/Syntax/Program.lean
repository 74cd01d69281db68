import ScriptEngine.Syntax.Tree
import ScriptEngine.Syntax.Variables

/-!
# Programs

A program is one arena of nodes and a record for each body: the top-level script first, then the
functions in the order in which they were opened.
-/

namespace ScriptEngine

inductive FunctionType where
  /-- A declaration at the top of a body. -/
  | statement
  /-- A function inside an expression. -/
  | expression
  /-- A function in a statement position inside a block. -/
  | expressionStatement
deriving DecidableEq, Repr, Inhabited

namespace FunctionType

def label : FunctionType → String
  | .statement => "statement"
  | .expression => "expression"
  | .expressionStatement => "expression-statement"

def code : FunctionType → Nat
  | .statement => 1
  | .expression => 2
  | .expressionStatement => 3

end FunctionType

structure RegExpLiteral where
  source : String
  flags : String
deriving DecidableEq, Repr, Inhabited

/-- What a program knows about one script or function body. -/
structure Body where
  id : BodyId
  /-- How the function stands in the code around it; none for the script. -/
  functionType : Option FunctionType
  /-- Empty for the script and for functions without a name. -/
  name : String
  /-- The node whose children are the statements. -/
  root : NodeId
  parent : Option BodyId := none
  vars : VariableTable := default
  /-- Calls need an activation record. -/
  requiresActivation : Bool := false
  /-- Calls replace the receiver by a proper one. -/
  checkThis : Bool := false
  /-- A try of the body has a finally block. -/
  hasFinally : Bool := false
  /-- Nested functions in source order. -/
  functions : List BodyId := []
  regexpTable : Array RegExpLiteral := #[]
  /-- Temporaries that the interpreter needs. -/
  localCount : Nat := 0
  sourceName : Option String := none
  encodedSource : Option String := none
  baseLine : Option Nat := none
  endLine : Option Nat := none
deriving DecidableEq, Repr, Inhabited

def Body.isFunction (b : Body) : Bool := b.functionType.isSome

def Body.regexps (b : Body) : List RegExpLiteral := b.regexpTable.toList

def Body.nestedIndex? (b : Body) (id : BodyId) : Option Nat := b.functions.idxOf? id

/-- An arena of nodes and the bodies in it. -/
structure Program where
  tree : Tree
  bodies : Array Body
deriving DecidableEq, Repr, Inhabited

namespace Program

def empty (sourceName : Option String) : Program :=
  let (root, tree) := Tree.push {} (.ofKind .script)
  { tree
    bodies := #[{ id := .script, functionType := none, name := "", root, sourceName }] }

def body (p : Program) (id : BodyId) : Body := p.bodies.getD id.index default

def checkBody (p : Program) (id : BodyId) : Except Fault Unit :=
  if id.index < p.bodies.size then .ok () else .error (.outOfRange p.bodies.size id.index)

def script (p : Program) : Body := p.body .script

def modifyBody (p : Program) (id : BodyId) (f : Body → Body) : Program :=
  { p with bodies := p.bodies.modify id.index f }

def addBody (p : Program) (functionType : FunctionType) (name : String) (root : NodeId) :
    BodyId × Program :=
  let id : BodyId := ⟨p.bodies.size⟩
  (id, { p with bodies := p.bodies.push { id, functionType := some functionType, name, root } })

def functionNamed? (p : Program) (name : String) : Option Body :=
  p.bodies.find? fun b => b.isFunction && b.name == name

end Program

end ScriptEngine
