import ScriptEngine.Document.Basic
import ScriptEngine.Syntax.Builder

/-!
# Building the program of a document

A document is played into a builder with the calls that a parser would make while it recognises the
source. A function statement is a declaration if no block, branch, loop, clause or with statement
lies between it and the body it stands in. The player counts these constructs while it goes in and
out of them; a function starts to count anew, and the count around it goes on behind it.
-/

namespace ScriptEngine.Document

/-- Why a document stands for no program. -/
inductive BuildError where
  | invalid (complaint : SyntaxComplaint)
  | unnamedFunction (line : Nat)
  | loopHead
  | unknownOperator (name : String)
deriving DecidableEq, Repr, Inhabited

def BuildError.message : BuildError → String
  | .invalid complaint => "SyntaxError: " ++ complaint.message
  | .unnamedFunction line => s!"function statement at line {line} has no name"
  | .loopHead => "invalid loop head"
  | .unknownOperator name => s!"unknown operator '{name}': " ++ Token.unknownName name

/-- What plays a document: a builder, and how many constructs lie between the next statement and the
body it stands in. -/
structure Player where
  builder : Builder
  nesting : Nat
deriving Inhabited

/-- Computations that play a document. One that refuses it still leaves a player behind. -/
abbrev DocumentM := ExceptT BuildError (StateT Player (Except Fault))

def onBuilder (m : BuildM α) : DocumentM α := ExceptT.mk fun player => do
  let (a, builder) ← m player.builder
  return (.ok a, { player with builder })

def shape (m : TreeM α) : DocumentM α := onBuilder (Builder.onTree m)

/-- Runs a computation on the tree that may refuse the source. -/
def checkedShape (m : TreeM (Except SyntaxComplaint α)) : DocumentM α := do
  match ← shape m with
  | .ok a => return a
  | .error complaint => throw (.invalid complaint)

def operator (name : String) : DocumentM Token :=
  match Token.ofName? name with
  | some kind => return kind
  | none => throw (.unknownOperator name)

/-- Goes into a construct and comes out of it, also when the document is refused inside. -/
def deeper (m : DocumentM α) : DocumentM α := ExceptT.mk do
  modify fun player => { player with nesting := player.nesting + 1 }
  let result ← m.run
  modify fun player => { player with nesting := player.nesting - 1 }
  return result

/-- Starts to count at zero, and goes on afterwards with the count from before. -/
def afresh (m : DocumentM α) : DocumentM α := ExceptT.mk do
  let outer := (← get).nesting
  modify fun player => { player with nesting := 0 }
  let result ← m.run
  modify fun player => { player with nesting := outer }
  return result

/-- A nested statement is one node: the only one, or a block of all. -/
def asOne (nodes : List NodeId) (line : Nat) : DocumentM NodeId :=
  match nodes with
  | [node] => return node
  | nodes => shape (Shape.block nodes line)

/-- The statement of a construct. -/
def nested (line : Nat) (statement : DocumentM (List NodeId)) : DocumentM NodeId := do
  asOne (← deeper statement) line

/-- A block of statements. -/
def nestedBlock (line : Nat) (statements : DocumentM (List NodeId)) : DocumentM NodeId := do
  shape (Shape.block (← deeper statements) line)

def newVar (line : Nat) : DocumentM NodeId := shape (TreeM.newNodeAt .var (knownLine line))

mutual

def buildExpr : Expr → DocumentM NodeId
  | .name name => shape (TreeM.newString .name name)
  | .string value => shape (TreeM.newString .string value)
  | .number value => shape (TreeM.newNumber value)
  | .boolean value => shape (TreeM.newNode (if value then .trueValue else .falseValue))
  | .null => shape (TreeM.newNode .nullValue)
  | .receiver => shape (TreeM.newNode .thisValue)
  | .regExp pattern flags => onBuilder (Builder.regExp pattern flags)
  | .unary op operand => do
    let kind ← operator op
    let operand ← buildExpr operand
    shape (Shape.unary kind operand)
  | .binary op left right => do
    let kind ← operator op
    let left ← buildExpr left
    let right ← buildExpr right
    shape (Shape.binary kind left right)
  | .member object property => do
    let object ← buildExpr object
    shape (Shape.getProp object property)
  | .element object index => do
    let object ← buildExpr object
    let index ← buildExpr index
    shape (Shape.binary .getElem object index)
  | .assign target value => do
    let target ← buildExpr target
    let value ← buildExpr value
    checkedShape (Shape.assignment target value)
  | .delete target => do
    let target ← buildExpr target
    shape (Shape.delete target)
  | .call callee args => do
    let callee ← buildExpr callee
    let args ← buildExprs args
    shape (Shape.invocation .call callee args)
  | .new callee args => do
    let callee ← buildExpr callee
    let args ← buildExprs args
    shape (Shape.invocation .new callee args)
  | .function definition => buildFunction .expression definition

def buildExprs : List Expr → DocumentM (List NodeId)
  | [] => return []
  | e :: rest => do
    let node ← buildExpr e
    let nodes ← buildExprs rest
    return node :: nodes

def buildOptExpr : Option Expr → DocumentM (Option NodeId)
  | none => return none
  | some e => some <$> buildExpr e

def buildFunction (functionType : FunctionType) : FunctionDef → DocumentM NodeId
  | .mk name params body line endLine source => do
    let id ← onBuilder (Builder.beginFunction name functionType line)
    onBuilder (params.forM Builder.addParam)
    if let some source := source then onBuilder (Builder.setSource id source)
    let statements ← afresh (buildStmts body)
    onBuilder (Builder.finishFunction id statements endLine)

/-- The nodes of a statement: one, after the labels in front of it. -/
def buildStmt : Stmt → DocumentM (List NodeId)
  | .expr expr line => do
    let expr ← buildExpr expr
    return [← shape (Shape.exprStatement expr line)]
  | .var decls line => do
    let node ← newVar line
    buildDecls node decls
    return [node]
  | .block body line => do
    return [← nestedBlock line (buildStmts body)]
  | .ifElse cond yes no line => do
    let cond ← buildExpr cond
    let yes ← nested line (buildStmt yes)
    let no ← buildOptStmt line no
    return [← shape (Shape.ifElse cond yes no line)]
  | .whileLoop cond body line => do
    let cond ← buildExpr cond
    let body ← nested line (buildStmt body)
    return [← shape (Shape.loop .testFirst body (some cond) none none line)]
  | .doWhile body cond line => do
    let body ← nested line (buildStmt body)
    let cond ← buildExpr cond
    return [← shape (Shape.loop .testLast body (some cond) none none line)]
  | .forLoop init cond step body line => do
    let init ← buildOptHead init
    let cond ← buildOptExpr cond
    let step ← buildOptExpr step
    let body ← nested line (buildStmt body)
    return [← shape (Shape.loop .counted body cond init step line)]
  | .forIn left object body line => do
    let left ← buildHead left
    let object ← buildExpr object
    let body ← nested line (buildStmt body)
    return [← checkedShape (Shape.forIn left object body line)]
  | .ret value line => do
    let value ← buildOptExpr value
    return [← shape (Shape.ret value line)]
  | .throw value line => do
    let value ← buildExpr value
    return [← shape (Shape.throwing value line)]
  | .breakTo label line => return [← shape (Shape.jump .breakStmt label line)]
  | .continueTo label line => return [← shape (Shape.jump .continueStmt label line)]
  | .labelled label body line => do
    let node ← shape (Shape.label label line)
    let nodes ← buildStmt body
    return node :: nodes
  | .switch selector cases line => do
    let selector ← buildExpr selector
    let node ← shape (Shape.switch selector line)
    deeper (buildCases node cases)
    return [node]
  | .tryCatch block handlers final line => do
    let block ← nestedBlock line (buildStmts block)
    let clauses ← buildHandlers handlers
    let final ← buildOptBlock line final
    return [← shape (Shape.tryStatement block clauses final line)]
  | .withScope object body line => do
    let object ← buildExpr object
    let body ← nested line (buildStmt body)
    return [← shape (Shape.withScope object body line)]
  | .function definition => do
    if definition.name.isEmpty then throw (.unnamedFunction definition.line)
    let functionType : FunctionType :=
      if (← get).nesting = 0 then .statement else .expressionStatement
    return [← buildFunction functionType definition]

def buildStmts : List Stmt → DocumentM (List NodeId)
  | [] => return []
  | s :: rest => do
    let nodes ← buildStmt s
    let more ← buildStmts rest
    return nodes ++ more

def buildOptStmt (line : Nat) : Option Stmt → DocumentM (Option NodeId)
  | none => return none
  | some s => some <$> nested line (buildStmt s)

def buildOptBlock (line : Nat) : Option (List Stmt) → DocumentM (Option NodeId)
  | none => return none
  | some body => some <$> nestedBlock line (buildStmts body)

def buildDecls (statement : NodeId) : List Declarator → DocumentM Unit
  | [] => return ()
  | .mk name init :: rest => do
    let init ← buildOptExpr init
    onBuilder (Builder.addVar statement name init)
    buildDecls statement rest

/-- The head of a loop is a variable statement or a bare expression. -/
def buildHead : Stmt → DocumentM NodeId
  | .var decls line => do
    let node ← newVar line
    buildDecls node decls
    return node
  | .expr expr _ => buildExpr expr
  | _ => throw .loopHead

def buildOptHead : Option Stmt → DocumentM (Option NodeId)
  | none => return none
  | some s => some <$> buildHead s

/-- The clauses of a switch; the statements of a clause are built before its test. -/
def buildCases (switch : NodeId) : List SwitchCase → DocumentM Unit
  | [] => return ()
  | .mk test body :: rest => do
    let statements ← buildStmts body
    match ← buildOptExpr test with
    | some test => discard (shape (Shape.switchCase switch test statements))
    | none => discard (shape (Shape.switchDefault switch statements))
    buildCases switch rest

def buildHandlers : List Handler → DocumentM (List CatchClause)
  | [] => return []
  | .mk name guard body line :: rest => do
    let condition ← buildOptExpr guard
    let body ← nestedBlock line (buildStmts body)
    let clauses ← buildHandlers rest
    return { name, condition, body, line } :: clauses

end

/-- Builds the program of a script; a script without a source name gets the fallback. -/
def build (script : Script) (fallback : Option String) :
    Except Fault (Except BuildError Program) :=
  let construct : DocumentM Program := do
    let statements ← buildStmts script.body
    onBuilder (Builder.finishScript statements script.endLine)
  (construct.run.run ⟨.start (script.source <|> fallback), 0⟩).map (·.1)

end ScriptEngine.Document
