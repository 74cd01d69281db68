import ScriptEngine.Lowering.Basic

/-!
# Calls and variables

Calls that can see their caller's scope are marked. Variable statements become assignments whose
values are dropped. A name that stands for a variable of a function is accessed by its slot, unless
the function needs an activation record; a slot cannot be deleted.
-/

namespace ScriptEngine.Lowering

/-! ## Calls and properties -/

def propertyNode? (t : Tree) (access : NodeId) : Option NodeId :=
  (t.firstChild? access).bind t.next?

def specialCall? (t : Tree) (call : NodeId) : Option SpecialCall :=
  (t.firstChild? call).bind fun callee =>
    match t.kind callee with
    | .name => (t.string? callee).bind SpecialCall.ofName?
    | .getProp =>
      ((propertyNode? t callee).filter (t.kind · = .string)).bind fun property =>
        (t.string? property).bind SpecialCall.ofMethod?
    | _ => none

def lowerCall (node : NodeId) : LowerM Unit := do
  if let some special := specialCall? (← tree) node then
    onTree (TreeM.setAttr node .specialCall (.int special.code))
    requireActivation

/-- A property access can show the activation record of the running function. -/
def lowerGetProp (config : Config) (node : NodeId) : LowerM Unit := do
  let t ← tree
  let name := ((propertyNode? t node).bind t.string?).getD ""
  if config.isActivationName name || (name == "length" && config.languageVersion = .v12) then
    requireActivation

/-! ## Variables -/

/-- The assignments of a variable statement: one for each declaration with a value. -/
def moveDeclarations (statement block : NodeId) (line : Option Nat) : List NodeId → TreeM Unit
  | [] => return ()
  | decl :: rest => do
    TreeM.removeChild statement decl
    if let some init := (← get).firstChild? decl then
      TreeM.removeChild decl init
      TreeM.setKind decl .bindName
      let assign ← TreeM.newWithChildren .setName [decl, init]
      let pop ← TreeM.newWithChildren .pop [assign]
      TreeM.setLine pop line
      TreeM.addChildToBack block pop
    moveDeclarations statement block line rest

def lowerVar (parent node : NodeId) : LowerM NodeId :=
  onTree do
    let t ← get
    let line := t.line node
    let block ← TreeM.newNodeAt .block line
    moveDeclarations node block line ((← get).children node)
    TreeM.replaceChild parent node block
    return block

def localSlot? (config : Config) (name : String) : LowerM (Option Nat) := do
  let body ← openBody
  if !body.inFunction || body.inWith then return none
  if config.isActivationName name then requireActivation
  let record := (← get).program.body body.id
  return if record.requiresActivation then none else record.vars.get? name

def lowerName (config : Config) (node : NodeId) : LowerM Unit := do
  let name := ((← tree).string? node).getD ""
  if let some slot ← localSlot? config name then
    onTree do
      TreeM.setKind node .getVar
      TreeM.setAttr node .varIndex (.int slot)
    noteChange (.getVar node)

/-- The name node of an assignment to a name or of its deletion. -/
def boundName? (t : Tree) (node : NodeId) : Option NodeId :=
  (t.firstChild? node).filter (t.kind · = .bindName)

def lowerSetName (config : Config) (node : NodeId) : LowerM Unit := do
  let t ← tree
  if let some bind := boundName? t node then
    if let some slot ← localSlot? config ((t.string? bind).getD "") then
      onTree do
        TreeM.setKind node .setVar
        TreeM.setKind bind .string
        TreeM.setAttr node .varIndex (.int slot)
      noteChange (.setVar node bind)

/-- A local variable is not deleted, and the deletion is false. -/
def lowerDelete (config : Config) (parent node : NodeId) : LowerM NodeId := do
  let t ← tree
  let some bind := boundName? t node | return node
  let slot ← localSlot? config ((t.string? bind).getD "")
  if slot.isNone then return node
  let replacement ← onTree do
    let replacement ← TreeM.newNodeAt .falseValue (t.line node)
    TreeM.replaceChild parent node replacement
    return replacement
  noteChange (.deleteLocal parent node replacement)
  return replacement

/-- Undoes a change to local slots. -/
def revert : SlotChange → TreeM Unit
  | .getVar node => do
    TreeM.setKind node .name
    TreeM.eraseAttr node .varIndex
  | .setVar node bind => do
    TreeM.setKind node .setName
    TreeM.setKind bind .bindName
    TreeM.eraseAttr node .varIndex
  | .deleteLocal parent deletion replacement => TreeM.replaceChild parent replacement deletion

end ScriptEngine.Lowering
