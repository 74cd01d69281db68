import ScriptEngine.Code.Emit
import ScriptEngine.Lowering.Lower

/-!
# Compilation

To compile a program is to lower it and to assemble the unit of its script, with the units of nested
functions inside. A program about which lowering complains has no unit.
-/

namespace ScriptEngine

inductive CompileError where
  | complaints (diagnostics : Diagnostics)
  | code (error : CodeError)
deriving DecidableEq, Repr, Inhabited

def CompileError.message : CompileError → String
  | .complaints diagnostics => diagnostics.failure
  | .code error => error.message

namespace Program

/-- The unit of a lowered body. Nested functions are assembled first, down to `fuel` levels. -/
def assembleBody (p : Program) (config : Config) (fromEvalCode : Bool) :
    Nat → BodyId → ExceptT CodeError (Except Fault) CompiledUnit
  | 0, _ => throwThe Fault .endlessWalk
  | fuel + 1, id => do
    let body := p.body id
    let nested ← body.functions.mapM (assembleBody p config fromEvalCode fuel)
    let out ← ExceptT.mk (p.emit body)
    return out.finish body nested config fromEvalCode

/-- The unit of the script of a lowered program. No function is nested in more functions than there
are. -/
def assemble (p : Program) (config : Config) (fromEvalCode : Bool) :
    Except Fault (Except CodeError CompiledUnit) :=
  (p.assembleBody config fromEvalCode (p.bodies.size + 1) .script).run

def compile (p : Program) (config : Config) (fromEvalCode : Bool) :
    Except Fault (Except CompileError CompiledUnit) := do
  let (p, diagnostics) ← p.lower config
  if diagnostics.hasErrors then return .error (.complaints diagnostics)
  return (← p.assemble config fromEvalCode).mapError .code

end Program

end ScriptEngine
