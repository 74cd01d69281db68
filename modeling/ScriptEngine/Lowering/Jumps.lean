import ScriptEngine.Lowering.Basic

/-!
# Labels, switches and jumps

A label gets a break target after its statement, which stacked labels share, and the continue target
of the loop that it stands on. The clauses of a switch move behind it, in front of its break target.
A jump out of with scopes and past finally blocks is preceded by the steps that leave them,
innermost first.
-/

namespace ScriptEngine.Lowering

/-! ## Labels -/

/-- Whether a region is that of the label with the given name. -/
def isLabelled (t : Tree) (label : String) (r : Region) : Bool :=
  r.kind = .label && (t.jump? r.node).bind (·.label) = some label

/-- The statement that a label stands on: the first sibling that is neither label nor target. -/
def labelledStatement? (t : Tree) (label : NodeId) : Option NodeId :=
  (t.run (t.next? label)).find? fun n => t.kind n ≠ .label && t.kind n ≠ .target

/-- The loop of a labelled statement: the statement itself, or the loop inside the block around an
enumeration of keys. -/
def loopOf? (t : Tree) (statement : NodeId) : Option NodeId :=
  match t.kind statement with
  | .loop => some statement
  | .block | .localBlock =>
    let children := t.children statement
    if children.any (t.kind · = .enumInit) then children.find? (t.kind · = .loop) else none
  | _ => none

/-- The break target of a statement that an open label already placed. -/
def sharedTarget? (t : Tree) (regions : List Region) (statement : NodeId) : Option NodeId :=
  (t.next? statement).filter fun n =>
    t.kind n = .target && regions.any fun r => r.kind = .label && r.exit = n

/-- Gives a label its name and its targets, and opens its region. -/
def lowerLabel (parent node : NodeId) : LowerM Unit := do
  let t ← tree
  let some nameNode := t.firstChild? node | return
  let label := (t.string? nameNode).getD ""
  onTree (TreeM.removeChild node nameNode)
  let body ← openBody
  if body.regions.any (isLabelled (← tree) label) then
    report node (.duplicateLabel label)
  else
    onTree (TreeM.modifyJump node ({ · with label := some label }))
    let t ← tree
    if let some statement := labelledStatement? t node then
      let target ← match sharedTarget? t body.regions statement with
        | some target => pure target
        | none => onTree do
          let target ← TreeM.newNode .target
          TreeM.addChildAfter parent target statement
          return target
      let t ← tree
      let continueTarget := (loopOf? t statement).bind fun loop =>
        (t.jump? loop).bind (·.continueTarget)
      onTree (TreeM.modifyJump node ({ · with target := some target, continueTarget }))
      openRegion node target

/-! ## Switches -/

/-- Moves clauses of a switch behind `anchor`, one after the other. -/
def moveClauses (parent switch : NodeId) : NodeId → List NodeId → TreeM Unit
  | _, [] => return ()
  | anchor, clause :: rest => do
    TreeM.removeChild switch clause
    TreeM.addChildAfter parent clause anchor
    moveClauses parent switch clause rest

/-- Moves the clauses of a switch behind it, ends them with a target, and opens the region. -/
def lowerSwitch (parent node : NodeId) : LowerM Unit := do
  let target ← onTree do
    let target ← TreeM.newNode .target
    TreeM.addChildAfter parent target node
    moveClauses parent node node (((← get).children node).drop 1)
    TreeM.modifySwitch node ({ · with target := some target })
    return target
  openRegion node target

def recordClause (node : NodeId) : LowerM Unit := do
  if let some switch := (← openBody).nearest? .switch then
    let isCase := (← tree).kind node = .switchCase
    onTree (TreeM.modifySwitch switch.node fun s =>
      if isCase then { s with cases := s.cases ++ [node] } else { s with fallback := some node })

/-! ## Jumps -/

/-- Fresh nodes for the steps that leave regions, in the order of the regions. -/
def unwindSteps : List Region → TreeM (List NodeId)
  | [] => return []
  | r :: rest =>
    match r.kind with
    | .tryStmt => do
      let step ← TreeM.newNode .jsr
      TreeM.setTarget step r.exit
      return step :: (← unwindSteps rest)
    | .withBody => do
      let step ← TreeM.newNode .leaveWith
      return step :: (← unwindSteps rest)
    | _ => unwindSteps rest

/-- A return past finally blocks stores its value, takes the steps, and returns what is stored. The
answer is the node now in the place of the return. -/
def lowerReturn (parent node : NodeId) : LowerM NodeId := do
  let body ← openBody
  if !body.hasFinally then return node
  onTree do
    let steps ← unwindSteps body.regions
    if steps.isEmpty then return node
    let t ← get
    let line := t.line node
    match t.firstChild? node with
    | some value =>
      TreeM.removeChild node value
      let store ← TreeM.newWithChildren .popv [value]
      TreeM.setLine store line
      let block ← TreeM.newNodeAt .block line
      TreeM.addChildToBack block store
      TreeM.addChildren block steps
      let ret ← TreeM.newNodeAt .returnPopv line
      TreeM.addChildToBack block ret
      TreeM.replaceChild parent node block
      return block
    | none =>
      steps.forM fun step => TreeM.addChildBefore parent step node
      return node

/-- Whether a jump can go to a region: an unlabelled one to a loop, and a break also to a switch. -/
def isDestination (t : Tree) (isBreak : Bool) (label : Option String) (r : Region) : Bool :=
  match label with
  | none => r.kind = .loop || (isBreak && r.kind = .switch)
  | some label => isLabelled t label r

/-- Where a jump to a region goes. -/
def destinationTarget? (t : Tree) (isBreak : Bool) (r : Region) : Option NodeId :=
  if r.kind = .switch then (t.switch? r.node).bind (·.target)
  else if isBreak then t.target? r.node
  else (t.jump? r.node).bind (·.continueTarget)

def jumpError (isBreak : Bool) (label : Option String) (found : Bool) : LoweringError :=
  match label with
  | none => if isBreak then .breakOutside else .continueOutside
  | some label => if found then .continueNonLoop else .undefinedLabel label

def takeLabel (node : NodeId) : LowerM (Option String) := do
  let t ← tree
  match t.firstChild? node with
  | some nameNode =>
    onTree (TreeM.removeChild node nameNode)
    return some ((t.string? nameNode).getD "")
  | none => return none

/-- Turns a break or continue into a jump to its target, after the steps that leave the regions
between. A jump that goes nowhere is reported and does nothing. -/
def lowerJump (parent node : NodeId) : LowerM Unit := do
  let isBreak := (← tree).kind node = .breakStmt
  let label ← takeLabel node
  let t ← tree
  let regions := (← openBody).regions
  let inner := regions.takeWhile fun r => !isDestination t isBreak label r
  let found := regions[inner.length]?
  match found.bind (destinationTarget? t isBreak) with
  | some target =>
    onTree do
      let steps ← unwindSteps inner
      steps.forM fun step => TreeM.addChildBefore parent step node
      TreeM.setKind node .goto
      TreeM.setTarget node target
  | none =>
    report node (jumpError isBreak label found.isSome)
    onTree (TreeM.setKind node .nop)

end ScriptEngine.Lowering
