import ScriptEngine.Syntax.Tree

/-!
# Shapes of expressions and statements

The nodes that stand for each construct of the language. Expressions are nodes over their operands;
statements are built from jumps and targets, in the form that lowering takes up: a loop is a `LOOP`
with its body, its test and its three targets, a try is a `TRY` with its block, its catch clauses
and its finally block as a subroutine, a with statement is a `WITH` between the instructions that
enter and leave its scope.

A line of zero means that the line is not known.
-/

namespace ScriptEngine

inductive SyntaxComplaint where
  | assignmentTarget
  | manyForInVariables
  | noForInVariable
  | forInTarget
deriving DecidableEq, Repr, Inhabited

def SyntaxComplaint.message : SyntaxComplaint → String
  | .assignmentTarget => "invalid assignment left-hand side"
  | .manyForInVariables => "only one variable allowed in for...in loop"
  | .noForInVariable => "missing variable in for...in loop"
  | .forInTarget => "invalid left-hand side of for...in loop"

structure CatchClause where
  name : String
  condition : Option NodeId
  body : NodeId
  line : Nat
deriving DecidableEq, Repr, Inhabited

def knownLine (line : Nat) : Option Nat := if 0 < line then some line else none

namespace Shape

open TreeM

/-! ## Expressions -/

def detachPair (node : NodeId) : TreeM (NodeId × NodeId) := do
  let t ← get
  let some object := t.firstChild? node | throw (.noObject node)
  let some key := t.lastChild? node | throw (.noKey node)
  removeChild node object
  removeChild node key
  return (object, key)

def unary (kind : Token) (operand : NodeId) : TreeM NodeId := newWithChildren kind [operand]

def binary (kind : Token) (left right : NodeId) : TreeM NodeId :=
  newWithChildren kind [left, right]

def getProp (object : NodeId) (name : String) : TreeM NodeId := do
  let key ← newString .string name
  binary .getProp object key

def assignment (target value : NodeId) : TreeM (Except SyntaxComplaint NodeId) := do
  match ← kind target with
  | .name =>
    setKind target .bindName
    .ok <$> binary .setName target value
  | .getProp =>
    let (object, key) ← detachPair target
    .ok <$> newWithChildren .setProp [object, key, value]
  | .getElem =>
    let (object, key) ← detachPair target
    .ok <$> newWithChildren .setElem [object, key, value]
  | _ => return .error .assignmentTarget

/-- Deletion of a name, a property or an element; of anything else it is just true. -/
def delete (target : NodeId) : TreeM NodeId := do
  match ← kind target with
  | .name =>
    setKind target .bindName
    let key ← cloneNode target
    setKind key .string
    binary .delProp target key
  | .getProp | .getElem =>
    let (object, key) ← detachPair target
    binary .delProp object key
  | _ => newNode .trueValue

def invocation (kind : Token) (callee : NodeId) (args : List NodeId) : TreeM NodeId := do
  let node ← newWithChildren kind [callee]
  addChildren node args
  return node

/-! ## Simple statements -/

def exprStatement (expr : NodeId) (line : Nat) : TreeM NodeId := do
  let node ← newWithChildren .exprStmt [expr]
  setLine node (knownLine line)
  return node

def block (statements : List NodeId) (line : Nat) : TreeM NodeId := do
  let node ← newNodeAt .block (knownLine line)
  addChildren node statements
  return node

def ret (value : Option NodeId) (line : Nat) : TreeM NodeId := do
  let node ← newNodeAt .ret (knownLine line)
  addChildren node value.toList
  return node

def throwing (value : NodeId) (line : Nat) : TreeM NodeId := do
  let node ← newWithChildren .throw [value]
  setLine node (knownLine line)
  return node

def label (name : String) (line : Nat) : TreeM NodeId := do
  let node ← newNodeAt .label (knownLine line)
  let child ← newString .name name
  addChildToBack node child
  return node

def jump (kind : Token) (name : Option String) (line : Nat) : TreeM NodeId := do
  let node ← newNodeAt kind (knownLine line)
  if let some name := name then
    let child ← newString .name name
    addChildToBack node child
  return node

/-- A conditional: a jump over the first branch, and over the second if there is one. -/
def ifElse (cond yes : NodeId) (no : Option NodeId) (line : Nat) : TreeM NodeId := do
  let result ← newNodeAt .block (knownLine line)
  let otherwise ← newNode .target
  let test ← newWithChildren .ifNe [cond]
  setTarget test otherwise
  addChildToBack result test
  addChildToBack result yes
  match no with
  | some no =>
    let stop ← newNode .target
    let skip ← newNode .goto
    setTarget skip stop
    addChildren result [skip, otherwise, no, stop]
  | none => addChildToBack result otherwise
  return result

/-! ## Loops -/

inductive LoopKind where
  | testFirst
  | testLast
  | counted
deriving DecidableEq, Repr

def condition : Option NodeId → TreeM NodeId
  | some cond => return cond
  | none => newNode .trueValue

/-- The start of a counted loop, in front of it: a variable statement or an expression. -/
def loopStart (loop : NodeId) : Option NodeId → TreeM Unit
  | some init => do
    let start ← if (← kind init) = .var then pure init else newWithChildren .pop [init]
    addChildToFront loop start
  | none => return ()

/-- The step of a counted loop, behind its body. The answer is its target. -/
def loopStep (loop body : NodeId) (step : Option NodeId) : TreeM NodeId := do
  let target ← newNode .target
  addChildAfter loop target body
  if let some step := step then
    let pop ← newWithChildren .pop [step]
    addChildAfter loop pop target
  return target

/-- The way into a loop: one that tests first starts with a jump to the test, and a counted loop has
its start before that jump. The answer is where `continue` goes. -/
def loopEntry (loopKind : LoopKind) (loop body condTarget : NodeId) (init step : Option NodeId) :
    TreeM NodeId := do
  if loopKind = .testLast then return condTarget
  let toCond ← newNode .goto
  setTarget toCond condTarget
  addChildToFront loop toCond
  if loopKind = .testFirst then return condTarget
  loopStart loop init
  loopStep loop body step

/-- A loop: the body between its targets, then the test that jumps back to it. -/
def loop (loopKind : LoopKind) (body : NodeId) (cond init step : Option NodeId) (line : Nat) :
    TreeM NodeId := do
  let bodyTarget ← newNode .target
  let condTarget ← newNode .target
  let cond ← condition cond
  let test ← newWithChildren .ifEq [cond]
  setTarget test bodyTarget
  let breakTarget ← newNode .target
  let result ← newNodeAt .loop (knownLine line)
  addChildren result [bodyTarget, body, condTarget, test, breakTarget]
  let continueTarget ← loopEntry loopKind result body condTarget init step
  modifyJump result
    ({ · with target := some breakTarget, continueTarget := some continueTarget })
  return result

def forInTarget (left : NodeId) : TreeM (Except SyntaxComplaint NodeId) := do
  match ← kind left with
  | .name | .getProp | .getElem => return .ok left
  | .var =>
    let t ← get
    if t.firstChild? left ≠ t.lastChild? left then return .error .manyForInVariables
    match (t.lastChild? left).bind t.string? with
    | some name => .ok <$> newString .name name
    | none => return .error .noForInVariable
  | _ => return .error .forInTarget

def enumPart (kind : Token) (init : NodeId) : TreeM NodeId := do
  let node ← newNode kind
  setAttr node .enumInit (.node init)
  return node

/-- The body of a loop over keys, behind the assignment of the key. -/
def enumBody (assign body : NodeId) : TreeM NodeId := do
  let pop ← newWithChildren .pop [assign]
  let block ← newNode .block
  addChildren block [pop, body]
  return block

/-- A loop over the keys of an object, inside a block that starts and ends the enumeration. A head
that declares a variable comes first. -/
def forIn (left object body : NodeId) (line : Nat) : TreeM (Except SyntaxComplaint NodeId) := do
  let leftKind ← kind left
  match ← forInTarget left with
  | .error complaint => return .error complaint
  | .ok target =>
    let init ← newWithChildren .enumInit [object]
    let more ← enumPart .enumNext init
    let key ← enumPart .enumId init
    match ← assignment target key with
    | .error complaint => return .error complaint
    | .ok assign =>
      let newBody ← enumBody assign body
      let loop ← loop .testFirst newBody (some more) none none line
      let done ← enumPart .enumDone init
      let head := if leftKind = .var then [left] else []
      .ok <$> block (head ++ [init, loop, done]) line

/-! ## Switches -/

def switch (selector : NodeId) (line : Nat) : TreeM NodeId := do
  let node ← newWithChildren .switch [selector]
  setLine node (knownLine line)
  return node

def switchCase (switch expr : NodeId) (statements : List NodeId) : TreeM NodeId := do
  let body ← block statements 0
  let clause ← newWithChildren .switchCase [expr, body]
  addChildToBack switch clause
  return clause

def switchDefault (switch : NodeId) (statements : List NodeId) : TreeM NodeId := do
  let body ← block statements 0
  let clause ← newWithChildren .switchDefault [body]
  addChildToBack switch clause
  return clause

/-! ## With and try -/

/-- A with statement: its body between the instructions that enter and leave the scope. -/
def withScope (object body : NodeId) (line : Nat) : TreeM NodeId := do
  let result ← newNodeAt .block (knownLine line)
  let enter ← newWithChildren .enterWith [object]
  addChildToBack result enter
  let inner ← newWithChildren .withBody [body]
  setLine inner (knownLine line)
  addChildToBack result inner
  let leave ← newNode .leaveWith
  addChildToBack result leave
  return result

def isEmptyBlock (t : Tree) (id : NodeId) : Bool := t.kind id = .block && !t.hasChildren id

def addJump (kind : Token) (parent target : NodeId) : TreeM Unit := do
  let jump ← newNode kind
  setTarget jump target
  addChildToBack parent jump

/-- One catch clause of a try: a scope for the caught value, in it the body behind the guard, and
at the end of the body a jump past the other clauses. -/
def catchClause (tryNode stop : NodeId) (clause : CatchClause) : TreeM Unit := do
  let cond ← condition clause.condition
  let leave ← newNode .leaveWith
  addChildToBack clause.body leave
  addJump .goto clause.body stop
  let guarded ← ifElse cond clause.body none clause.line
  let scope ← newString .catchScope clause.name
  let inner ← withScope scope guarded clause.line
  addChildToBack tryNode inner

/-- The catch clauses of a try, a rethrow behind them, and the way on to the finally block. -/
def catchClauses (tryNode stop : NodeId) (finallyTarget : Option NodeId)
    (clauses : List CatchClause) : TreeM Unit := do
  let catchTarget ← newNode .target
  modifyJump tryNode ({ · with target := some catchTarget })
  addChildToBack tryNode catchTarget
  let caught ← newNode .target
  clauses.forM (catchClause tryNode caught)
  let rethrow ← newNode .throw
  addChildren tryNode [rethrow, caught]
  if let some finallyTarget := finallyTarget then
    addJump .jsr tryNode finallyTarget
    addJump .goto tryNode stop

/-- The target of a finally block, and the way there from the end of the try block. -/
def openFinally (tryNode : NodeId) : TreeM NodeId := do
  let target ← newNode .target
  modifyJump tryNode ({ · with finallyTarget := some target })
  addJump .jsr tryNode target
  return target

def finallyBlock (tryNode target final : NodeId) : TreeM Unit := do
  addChildToBack tryNode target
  addChildToBack tryNode final
  let back ← newNode .retsub
  addChildToBack tryNode back

/-- A try statement with clauses, with a finally block that does something, or with both. -/
def guarded (body : NodeId) (clauses : List CatchClause) (final : Option NodeId) (line : Nat) :
    TreeM NodeId := do
  let node ← newWithChildren .tryStmt [body]
  setLine node (knownLine line)
  let finallyTarget ← match final with
    | some _ => some <$> openFinally node
    | none => pure none
  let stop ← newNode .target
  addJump .goto node stop
  if !clauses.isEmpty then catchClauses node stop finallyTarget clauses
  if let (some finallyTarget, some final) := (finallyTarget, final) then
    finallyBlock node finallyTarget final
  addChildToBack node stop
  return node

/-- A try statement. Without statements to try, or without a clause and a finally block that does
something, it is just the block. -/
def tryStatement (body : NodeId) (clauses : List CatchClause) (final : Option NodeId)
    (line : Nat) : TreeM NodeId := do
  let bodyKind ← kind body
  let t ← get
  if bodyKind = .block ∧ !t.hasChildren body then return body
  let final ← match final with
    | some f => do
      t.check f
      pure (if isEmptyBlock t f then none else some f)
    | none => pure none
  if clauses.isEmpty ∧ final.isNone then return body
  guarded body clauses final line

end Shape

end ScriptEngine
