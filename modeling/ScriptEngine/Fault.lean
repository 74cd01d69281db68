import ScriptEngine.Syntax.Node

/-!
# Faults

A fault is a broken promise: a caller or an embedding program used an operation outside its
precondition. Faults are not errors of a script. They end whatever is under way, and each has one
text.
-/

namespace ScriptEngine

/-- The broken promises that end a run. -/
inductive Fault where
  | outOfRange (size index : Nat)
  | rangeEnd (stop size : Nat)
  | tooManyChildren
  | hasSibling (edit : String) (node : NodeId)
  | notChild (child parent : NodeId)
  | noSibling (node : NodeId)
  | noJumpData (node : NodeId) (kind : Token)
  | notSwitch (node : NodeId)
  | noObject (node : NodeId)
  | noKey (node : NodeId)
  | notInnermost (body : BodyId)
  | unclosedFunction
  | parameterAfterVariable
  | withNotClosed (node : NodeId)
  | notOpcode (kind : Token)
  /-- A walk over a tree whose links form a cycle. -/
  | endlessWalk
  | stackMismatch (function : String)
  | lostBinding (index : Nat) (formal : String)
  | noReceiver (function : String)
  | callDepth
deriving DecidableEq, Repr, Inhabited

def Fault.message : Fault → String
  | .outOfRange size index => s!"index out of bounds: the len is {size} but the index is {index}"
  | .rangeEnd stop size => s!"range end index {stop} out of range for slice of length {size}"
  | .tooManyChildren => "at most three pre-linked children"
  | .hasSibling edit node => s!"{edit}: {node} already has a sibling link"
  | .notChild child parent => s!"{child} is not a child of {parent}"
  | .noSibling node => s!"{node} has no following sibling"
  | .noJumpData node kind => s!"{node} ({kind}) has no jump attributes"
  | .notSwitch node => s!"{node} is not a switch"
  | .noObject node => s!"{node} has no object"
  | .noKey node => s!"{node} has no key"
  | .notInnermost body => s!"{body} is not the innermost open function"
  | .unclosedFunction => "unclosed function body"
  | .parameterAfterVariable => "parameters must be declared before variables"
  | .withNotClosed node => s!"{node} (WITH) is not followed by LEAVEWITH"
  | .notOpcode kind => s!"{kind} is not an opcode"
  | .endlessWalk => "the links of the tree form a cycle"
  | .stackMismatch function =>
    s!"activation stack mismatch: popping `{function}` which is not the innermost activation"
  | .lostBinding index formal =>
    s!"arguments[{index}] is shared with formal `{formal}` but the activation has no such binding"
  | .noReceiver function =>
    s!"bad implementation of call as constructor: `{function}` supplies its own receiver but " ++
      "returned a non-object"
  | .callDepth => "calls are nested too deeply"

end ScriptEngine
