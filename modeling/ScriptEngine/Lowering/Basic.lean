import ScriptEngine.Config.Basic
import ScriptEngine.Diagnostics
import ScriptEngine.Syntax.Program

/-!
# State of lowering

Lowering walks over one body after the other. While it is inside a label, loop, switch, with or
try-finally, that construct is an open region with the node at which it ends; the open regions are
kept innermost first. Accesses to local slots are noted, because they are undone if the body turns
out to need an activation record.
-/

namespace ScriptEngine

/-- An open construct and the node that ends it. -/
structure Region where
  node : NodeId
  kind : Token
  exit : NodeId
deriving DecidableEq, Repr, Inhabited

/-- A change to local slots that may have to be undone. -/
inductive SlotChange where
  | getVar (node : NodeId)
  | setVar (node bind : NodeId)
  | deleteLocal (parent deletion replacement : NodeId)
deriving DecidableEq, Repr, Inhabited

structure OpenBody where
  id : BodyId
  inFunction : Bool
  /-- The open regions, innermost first. -/
  regions : List Region := []
  hasFinally : Bool := false
  /-- The changes to local slots, latest first. -/
  changes : List SlotChange := []
deriving DecidableEq, Repr, Inhabited

namespace OpenBody

def inWith (b : OpenBody) : Bool := b.regions.any (·.kind = .withBody)

def nearest? (b : OpenBody) (kind : Token) : Option Region := b.regions.find? (·.kind = kind)

end OpenBody

/-- A program half lowered. -/
structure LoweringState where
  program : Program
  diagnostics : Diagnostics
  /-- Which bodies have been taken up. -/
  started : Array Bool
  body : OpenBody
deriving Inhabited

/-- Computations that lower a program and may end in a fault. -/
abbrev LowerM := StateT LoweringState (Except Fault)

namespace Lowering

def onTree (m : TreeM α) : LowerM α := fun s => do
  let (a, tree) ← m s.program.tree
  return (a, { s with program := { s.program with tree } })

def tree : LowerM Tree := return (← get).program.tree

def openBody : LowerM OpenBody := return (← get).body

def modifyOpenBody (f : OpenBody → OpenBody) : LowerM Unit :=
  modify fun s => { s with body := f s.body }

def modifyBody (id : BodyId) (f : Body → Body) : LowerM Unit :=
  modify fun s => { s with program := s.program.modifyBody id f }

/-- Notes that the current body needs an activation record; a script never does. -/
def requireActivation : LowerM Unit := do
  let body ← openBody
  if body.inFunction then modifyBody body.id ({ · with requiresActivation := true })

def openRegion (node exit : NodeId) : LowerM Unit := do
  let kind := (← tree).kind node
  modifyOpenBody fun b => { b with regions := ⟨node, kind, exit⟩ :: b.regions }

/-- Closes the regions that end at a node. -/
def closeRegions (node : NodeId) : LowerM Unit :=
  modifyOpenBody fun b => { b with regions := b.regions.dropWhile (·.exit = node) }

def noteChange (r : SlotChange) : LowerM Unit :=
  modifyOpenBody fun b => { b with changes := r :: b.changes }

def report (node : NodeId) (error : LoweringError) : LowerM Unit :=
  modify fun s =>
    { s with
      diagnostics := s.diagnostics.pushError error.message
        (s.program.body s.body.id).sourceName (s.program.tree.line node) }

end Lowering

end ScriptEngine
