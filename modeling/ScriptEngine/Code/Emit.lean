import ScriptEngine.Code.Unit

/-!
# Writing bodies as code

A lowered body is written node by node, the children of a node before the node itself. Kinds that
are no opcodes leave no byte, nodes of functions are passed over, and targets mark the place where
they stand. An opcode is followed by its operand:

* a jump by the offset of its target, four bytes, filled in at the end;
* a number or a node with a string by the position of the constant, two bytes;
* an access to a local variable by its slot, a regular expression by its position, two bytes;
* a call by the number of its arguments, one byte.
-/

namespace ScriptEngine

/-- Code of a body together with what is open: where targets stand, and which operands wait for
their offset. -/
structure Emitter where
  out : Assembler := {}
  /-- Places of targets, latest first. -/
  targets : List (NodeId × Nat) := []
  /-- Operands of jumps with their targets, latest first. -/
  fixups : List (Nat × NodeId) := []
  tryDepth : Nat := 0

abbrev EmitM := StateT Emitter (ExceptT CodeError (Except Fault))

namespace Emitter

def modifyOut (f : Assembler → Assembler) : EmitM Unit := modify fun e => { e with out := f e.out }

/-- Puts a constant into a pool and its position behind the opcode. -/
def emitConstant (intern : Assembler → Except CodeError Nat × Assembler) : EmitM Unit := do
  let position ← modifyGet fun e =>
    let out := e.out
    let e := { e with out := {} }
    let (position, out) := intern out
    (position, { e with out })
  match position with
  | .ok index => modifyOut (·.emitShort index)
  | .error error => throw error

def emitOpcode (kind : Token) : EmitM Unit := do
  let e ← get
  let out ← (e.out.emit kind : Except Fault Assembler)
  set { e with out }

def emitOperand (t : Tree) (body : Body) (id : NodeId) : EmitM Unit := do
  match t.kind id with
  | .goto | .ifEq | .ifNe | .jsr =>
    match t.target? id with
    | some target =>
      modify fun e =>
        { e with out := e.out.emitLong 0, fixups := (e.out.pc, target) :: e.fixups }
    | none => throw (.noJumpTarget id (t.kind id))
  | .number => emitConstant (·.addNumber (((t.node id).number?).getD (Number.zero false)))
  | .getVar | .setVar =>
    let slot := t.intAttrD id .varIndex (-1)
    if 0 ≤ slot ∧ slot < Int.pow 2 16 then modifyOut (·.emitShort slot.toNat)
    else throw (.noVariableSlot id)
  | .regExp =>
    let index := t.intAttrD id .regExpIndex (-1)
    if 0 ≤ index ∧ index < body.regexpTable.size then modifyOut (·.emitShort index.toNat)
    else throw (.noRegExp id)
  | .call | .new =>
    let count := (t.children id).length - 1
    modifyOut (·.noteCalleeArgs count)
    if count < Nat.pow 2 8 then modifyOut (·.emitByte count) else throw (.tooManyArguments id)
  | _ =>
    if let some s := t.string? id then emitConstant (·.addString s)

/-- Writes a node and everything below it, down to `fuel` levels; `depth` counts the operands on
the stack. -/
def emitNode (t : Tree) (body : Body) : Nat → Nat → NodeId → EmitM Unit
  | 0, _, _ => throwThe Fault .endlessWalk
  | fuel + 1, depth, id => do
    match t.kind id with
    | .target => modify fun e => { e with targets := (id, e.out.pc) :: e.targets }
    | .function => return ()
    | kind =>
      if let some line := t.line id then modifyOut (·.noteLine line)
      if kind = .tryStmt then
        modify fun e =>
          { e with tryDepth := e.tryDepth + 1, out := e.out.noteTryDepth (e.tryDepth + 1) }
      (t.children id).forM (emitNode t body fuel (depth + 1))
      if kind = .tryStmt then modify fun e => { e with tryDepth := e.tryDepth - 1 }
      modifyOut (·.noteStack (depth + 1))
      if kind.isBytecode then
        emitOpcode kind
        emitOperand t body id

def patchJump (operand : Nat) (target : NodeId) : EmitM Unit := do
  let e ← get
  match e.targets.lookup target with
  | some pc =>
    if pc < Nat.pow 2 31 then
      let out ← (e.out.patchLong operand pc : Except Fault Assembler)
      set { e with out }
    else throw .functionTooLarge
  | none => throw (.unplacedTarget target)

def emitBody (p : Program) (body : Body) : EmitM Unit := do
  (p.tree.children body.root).forM (emitNode p.tree body (p.tree.size + 1) 0)
  modifyOut (·.noteLocals body.localCount)
  (← get).fixups.reverse.forM fun (operand, target) => patchJump operand target

end Emitter

def Program.emit (p : Program) (body : Body) : Except Fault (Except CodeError Assembler) :=
  (((Emitter.emitBody p body).run {}).run).map fun r => r.map (·.2.out)

end ScriptEngine
