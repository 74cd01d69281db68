import ScriptEngine.Code.LineTable
import ScriptEngine.Code.Pool
import ScriptEngine.Fault

/-!
# Assembling code

An assembler collects the code of one body: bytes, constants, lines, and how much of each resource
the code needs. Operands of more than one byte are written with their low byte first.
-/

namespace ScriptEngine

inductive CodeError where
  | tooManyStrings
  | tooManyNumbers
  | noJumpTarget (node : NodeId) (kind : Token)
  | noVariableSlot (node : NodeId)
  | noRegExp (node : NodeId)
  | tooManyArguments (node : NodeId)
  | unplacedTarget (target : NodeId)
  | functionTooLarge
deriving DecidableEq, Repr, Inhabited

namespace CodeError

/-- Whether a limit of the code format is exceeded; otherwise the tree was not fit for code. -/
def isRange : CodeError → Bool
  | tooManyStrings | tooManyNumbers | tooManyArguments _ | functionTooLarge => true
  | _ => false

def detail : CodeError → String
  | tooManyStrings => "too many string constants"
  | tooManyNumbers => "too many number constants"
  | noJumpTarget node kind => s!"{node} ({kind}) has no jump target"
  | noVariableSlot node => s!"{node} has no variable slot"
  | noRegExp node => s!"{node} has no regexp literal"
  | tooManyArguments node => s!"too many arguments in call at {node}"
  | unplacedTarget target => s!"jump target {target} was never placed"
  | functionTooLarge => "function too large"

def message (e : CodeError) : String :=
  (if e.isRange then "RangeError: " else "InternalError: ") ++ e.detail

end CodeError

/-- The code of a body under construction. -/
structure Assembler where
  code : Array UInt8 := #[]
  strings : StringPool := {}
  numbers : NumberPool := {}
  lines : LineTable := {}
  maxLocals : Nat := 0
  maxStack : Nat := 0
  maxTryDepth : Nat := 0
  maxCalleeArgs : Nat := 0

instance : Inhabited Assembler := ⟨{}⟩

namespace Assembler

def pc (a : Assembler) : Nat := a.code.size

def littleEndian (value : Int) : Nat → List UInt8
  | 0 => []
  | n + 1 => UInt8.ofNat (value % 256).toNat :: littleEndian (value / 256) n

def emitBytes (a : Assembler) (bytes : List UInt8) : Assembler :=
  { a with code := bytes.foldl Array.push a.code }

def emit (a : Assembler) (op : Token) : Except Fault Assembler :=
  if op.isBytecode then .ok (a.emitBytes [UInt8.ofNat op.code]) else .error (.notOpcode op)

def emitByte (a : Assembler) (value : Nat) : Assembler := a.emitBytes (littleEndian value 1)

def emitShort (a : Assembler) (value : Nat) : Assembler := a.emitBytes (littleEndian value 2)

def emitLong (a : Assembler) (value : Int) : Assembler := a.emitBytes (littleEndian value 4)

def overwrite (code : Array UInt8) (start : Nat) (bytes : List UInt8) : Array UInt8 :=
  (bytes.foldl (fun (code, i) b => (code.setIfInBounds i b, i + 1)) (code, start)).1

/-- Writes a signed operand of four bytes over the one at an offset. -/
def patchLong (a : Assembler) (start : Nat) (value : Int) : Except Fault Assembler :=
  if start + 4 ≤ a.code.size then
    .ok { a with code := overwrite a.code start (littleEndian value 4) }
  else .error (.rangeEnd (start + 4) a.code.size)

def positionOr (error : CodeError) : Option Nat → Except CodeError Nat
  | some i => .ok i
  | none => .error error

def addString (a : Assembler) (s : String) : Except CodeError Nat × Assembler :=
  let strings := a.strings
  let a := { a with strings := {} }
  let (i, strings) := strings.intern s
  (positionOr .tooManyStrings i, { a with strings })

/-- The position of a number constant; constants are the same if their bits are. -/
def addNumber (a : Assembler) (x : Number) : Except CodeError Nat × Assembler :=
  let numbers := a.numbers
  let a := { a with numbers := {} }
  let (i, numbers) := numbers.intern x
  (positionOr .tooManyNumbers i, { a with numbers })

/-- Notes that code for a line starts here. Offsets in the table have thirty-two bits. -/
def noteLine (a : Assembler) (line : Nat) : Assembler :=
  { a with lines := a.lines.note (UInt32.ofNat a.pc).toNat line }

def noteStack (a : Assembler) (depth : Nat) : Assembler :=
  { a with maxStack := max a.maxStack depth }

def noteTryDepth (a : Assembler) (depth : Nat) : Assembler :=
  { a with maxTryDepth := max a.maxTryDepth depth }

def noteCalleeArgs (a : Assembler) (count : Nat) : Assembler :=
  { a with maxCalleeArgs := max a.maxCalleeArgs count }

def noteLocals (a : Assembler) (count : Nat) : Assembler :=
  { a with maxLocals := max a.maxLocals count }

end Assembler

end ScriptEngine
