import ScriptEngine.Syntax.Program
import ScriptEngine.Syntax.Shape

/-!
# Building programs

A builder holds the program under construction and the functions that are open. A parser calls it
while it recognises source: it makes nodes by the shapes, declares parameters and variables, and
opens and closes functions. Closing a function leaves a node that stands for it in the enclosing
body.
-/

namespace ScriptEngine

/-- A program under construction; the innermost open function comes first. -/
structure Builder where
  program : Program
  opened : List BodyId
deriving Inhabited

/-- Computations that build a program and may end in a fault. -/
abbrev BuildM := StateT Builder (Except Fault)

namespace Builder

def start (sourceName : Option String) : Builder :=
  { program := .empty sourceName, opened := [.script] }

def current (b : Builder) : BodyId := b.opened.headD .script

def onTree (m : TreeM α) : BuildM α := fun b => do
  let (a, tree) ← m b.program.tree
  return (a, { b with program := { b.program with tree } })

def modifyBody (id : BodyId) (f : Body → Body) : BuildM Unit :=
  modify fun b => { b with program := b.program.modifyBody id f }

/-- A regular expression literal, which the current body keeps. -/
def regExp (source flags : String) : BuildM NodeId := do
  let current := (← get).current
  modifyBody current fun body => { body with regexpTable := body.regexpTable.push ⟨source, flags⟩ }
  let index := ((← get).program.body current).regexpTable.size - 1
  onTree do
    let node ← TreeM.newNode .regExp
    TreeM.setAttr node .regExpIndex (.int index)
    return node

/-- Adds a declaration to a variable statement, and the name to the current body. -/
def addVar (statement : NodeId) (name : String) (init : Option NodeId) : BuildM Unit := do
  modifyBody (← get).current fun body => { body with vars := (body.vars.addLocal name).2 }
  onTree do
    let decl ← TreeM.newString .name name
    TreeM.addChildren decl init.toList
    TreeM.addChildToBack statement decl

def beginFunction (name : String) (functionType : FunctionType) (line : Nat) :
    BuildM BodyId := do
  let b ← get
  let root ← onTree (TreeM.newNodeAt .function (knownLine line))
  let (id, program) := (← get).program.addBody functionType name root
  let program := { program with tree := program.tree.setFunction root id }
  let program := program.modifyBody id fun body =>
    { body with
      parent := some b.current
      sourceName := program.script.sourceName
      baseLine := knownLine line }
  set { b with program, opened := id :: b.opened }
  return id

def addParam (name : String) : BuildM Unit := do
  let b ← get
  let vars ← (b.program.body b.current).vars.addParameter name
  modifyBody b.current fun body => { body with vars }

/-- The names of the nested functions that stand in statement positions inside blocks. -/
def shadowingNames (p : Program) (b : Body) : List String :=
  (b.functions.map p.body).filterMap fun f =>
    if f.functionType = some .expressionStatement ∧ !f.name.isEmpty then some f.name else none

/-- Starts a body with the assignment of the running function to a name. -/
def bindSelf (root : NodeId) (name : String) : TreeM Unit := do
  let bind ← TreeM.newString .bindName name
  let self ← TreeM.newNode .thisFn
  let assign ← TreeM.newWithChildren .setName [bind, self]
  let pop ← TreeM.newWithChildren .pop [assign]
  TreeM.addChildToFront root pop

/-- Binds the name of a function expression to the function itself, unless the name is taken. -/
def bindOwnName (id : BodyId) : BuildM Unit := do
  let body := (← get).program.body id
  if body.functionType = some .expression ∧ !body.name.isEmpty ∧
      (body.vars.get? body.name).isNone then
    modifyBody id fun body => { body with vars := (body.vars.addLocal body.name).2 }
    onTree (bindSelf body.root body.name)

def endWithReturn (root : NodeId) : TreeM Unit := do
  let t ← get
  let returns := match t.lastChild? root with
    | some last => t.kind last = .ret
    | none => false
  if !returns then
    let ret ← TreeM.newNode .ret
    TreeM.addChildToBack root ret

/-- The node that stands for a function in the enclosing body. -/
def functionNode (id : BodyId) (root : NodeId) (name : String) : TreeM NodeId := do
  let line := (← get).line root
  let node ← TreeM.newNodeAt .function line
  modify fun t => t.setPayload node (.string name)
  modify fun t => t.setFunction node id
  return node

/-- Closes the current function. The answer is the node that stands for it in the enclosing body. -/
def finishFunction (id : BodyId) (statements : List NodeId) (endLine : Nat) : BuildM NodeId := do
  let b ← get
  if b.opened.head? ≠ some id then throw (.notInnermost id)
  set { b with opened := b.opened.tail }
  let root := (b.program.body id).root
  onTree (TreeM.addChildren root statements)
  modifyBody id fun body =>
    { body with
      vars := (shadowingNames b.program body).foldl (fun v n => (v.removeLocal n).2) body.vars }
  bindOwnName id
  let name := (b.program.body id).name
  onTree (endWithReturn root)
  let node ← onTree (functionNode id root name)
  modifyBody id fun body => { body with endLine := knownLine endLine }
  modifyBody (← get).current fun body => { body with functions := body.functions ++ [id] }
  return node

def setSource (id : BodyId) (source : String) : BuildM Unit := do
  (← get).program.checkBody id
  modifyBody id fun body => { body with encodedSource := some source }

/-- Appends the statements of the script and ends the construction. -/
def finishScript (statements : List NodeId) (endLine : Nat) : BuildM Program := do
  if (← get).opened.length ≠ 1 then throw .unclosedFunction
  onTree (TreeM.addChildren (← get).program.script.root statements)
  modifyBody .script fun body => { body with endLine := knownLine endLine }
  return (← get).program

end Builder

end ScriptEngine
