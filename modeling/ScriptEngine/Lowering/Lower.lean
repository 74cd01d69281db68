import ScriptEngine.Lowering.Jumps
import ScriptEngine.Lowering.Names

/-!
# Lowering

`Program.lower` takes every body of a program once, the script first and each function where its
node is met, and changes its nodes in the order of the text. Functions whose node is in no tree come
last. What is wrong with the structure of the script is reported, and lowering goes on.
-/

namespace ScriptEngine.Lowering

/-- What the walk does after a node has been changed. -/
inductive Visit where
  /-- Visits the children of the node now in this place. -/
  | children (node : NodeId)
  /-- Goes on behind the node. -/
  | done (node : NodeId)
  /-- Lowers a function first. -/
  | function (node : NodeId) (body : BodyId)
deriving DecidableEq, Repr

/-- A node that stands for a function. The function sees this body, so its calls check the receiver
and this body needs an activation record, unless this body is the script. -/
def lowerFunctionNode (node : NodeId) : LowerM Visit := do
  let body ← openBody
  match (← tree).function? node with
  | some id =>
    if id = body.id then return .done node
    requireActivation
    (← get).program.checkBody id
    if body.inFunction then modifyBody id ({ · with checkThis := true })
    return .function node id
  | none => return .done node

/-- A with statement opens a region that ends where its scope is left. -/
def lowerWith (node : NodeId) : LowerM Unit := do
  requireActivation
  let t ← tree
  match (t.next? node).filter (t.kind · = .leaveWith) with
  | some exit => openRegion node exit
  | none => throw (.withNotClosed node)

/-- A try opens a region if it has a finally block, and needs a temporary in any case. -/
def lowerTry (node : NodeId) : LowerM Unit := do
  if let some exit := ((← tree).jump? node).bind (·.finallyTarget) then
    modifyOpenBody ({ · with hasFinally := true })
    openRegion node exit
  modifyBody (← openBody).id fun b => { b with localCount := b.localCount + 1 }

def lowerKind (config : Config) (parent node : NodeId) : Token → LowerM Visit
  | .function => lowerFunctionNode node
  | .label => do
    lowerLabel parent node
    return .children node
  | .switch => do
    lowerSwitch parent node
    return .children node
  | .switchCase | .switchDefault => do
    recordClause node
    return .children node
  | .loop => do
    if let some exit := (← tree).target? node then openRegion node exit
    return .children node
  | .withBody => do
    lowerWith node
    return .children node
  | .tryStmt => do
    lowerTry node
    return .children node
  | .target | .leaveWith => do
    closeRegions node
    return .children node
  | .ret => return .children (← lowerReturn parent node)
  | .breakStmt | .continueStmt => do
    lowerJump parent node
    return .done node
  | .call | .new => do
    lowerCall node
    return .children node
  | .getProp => do
    lowerGetProp config node
    return .children node
  | .exprStmt => do
    let inFunction := (← openBody).inFunction
    onTree (TreeM.setKind node (if inFunction then .pop else .popv))
    return .children node
  | .var => return .children (← lowerVar parent node)
  | .name => do
    lowerName config node
    return .children node
  | .setName => do
    lowerSetName config node
    return .children node
  | .delProp => return .children (← lowerDelete config parent node)
  | _ => return .children node

/-- Changes one node. -/
def lowerNode (config : Config) (parent node : NodeId) : LowerM Visit := do
  lowerKind config parent node ((← tree).kind node)

/-- Takes up a body. -/
def startBody (id : BodyId) : LowerM Unit :=
  modify fun s =>
    { s with
      started := s.started.setIfInBounds id.index true
      body := { id, inFunction := (s.program.body id).isFunction } }

/-- Ends a body: undoes the accesses by slot if it needs an activation record. -/
def finishBody : LowerM Unit := do
  let body ← openBody
  if ((← get).program.body body.id).requiresActivation then
    onTree (body.changes.forM revert)
  modifyBody body.id fun b => { b with hasFinally := b.hasFinally || body.hasFinally }

def isStarted (id : BodyId) : LowerM Bool := return (← get).started.getD id.index false

/-- Lowers the nodes from `cursor` on, children of `parent`, and everything below them. -/
def walk (config : Config) : Nat → NodeId → Option NodeId → LowerM Unit
  | _, _, none => return ()
  | 0, _, some _ => throw .endlessWalk
  | fuel + 1, parent, some node => do
    match ← lowerNode config parent node with
    | .children node =>
      walk config fuel node ((← tree).firstChild? node)
      walk config fuel parent ((← tree).next? node)
    | .done node => walk config fuel parent ((← tree).next? node)
    | .function node id =>
      if !(← isStarted id) then
        let outer ← openBody
        startBody id
        let root := ((← get).program.body id).root
        walk config fuel root ((← tree).firstChild? root)
        finishBody
        modifyOpenBody fun _ => outer
      walk config fuel parent ((← tree).next? node)

def lowerBody (config : Config) (fuel : Nat) (id : BodyId) : LowerM Unit := do
  if !(← isStarted id) then
    startBody id
    let root := ((← get).program.body id).root
    walk config fuel root ((← tree).firstChild? root)
    finishBody

/-- Lowering visits each node once and adds at most a few nodes for it and one for each region that
is open there, so the square of the size bounds the length of every path of the walk. -/
def walkFuel (p : Program) : Nat := (p.tree.size + 4) * (p.tree.size + 4)

end Lowering

def Program.lower (p : Program) (config : Config) : Except Fault (Program × Diagnostics) := do
  let start : LoweringState :=
    { program := p
      diagnostics := { limit := some config.maxDiagnostics }
      started := Array.replicate p.bodies.size false
      body := { id := .script, inFunction := false } }
  let bodies := (List.range p.bodies.size).map BodyId.mk
  let (_, s) ← (bodies.forM (Lowering.lowerBody config (Lowering.walkFuel p))).run start
  return (s.program, s.diagnostics)

end ScriptEngine
