import ScriptEngine.Number.Reader
import ScriptEngine.Text.Blank

/-!
# Script values

A value is undefined, null, a boolean, a number, a string, or an object, which is known by its place
in the store. The conversions here never look inside objects.
-/

namespace ScriptEngine

structure ObjId where
  index : Nat
deriving DecidableEq, Repr, Inhabited

/-- A script value. -/
inductive Value where
  | undefined
  | null
  | boolean (b : Bool)
  | number (x : Number)
  | string (s : String)
  | object (id : ObjId)
deriving DecidableEq, Repr, Inhabited

namespace Value

def ofNat (n : Nat) : Value := .number (.ofNat n)

def ofObject? : Option ObjId → Value
  | some id => .object id
  | none => .undefined

def isUndefined (v : Value) : Bool := v = .undefined

def isNull (v : Value) : Bool := v = .null

def isNullish (v : Value) : Bool := v.isUndefined || v.isNull

def object? : Value → Option ObjId
  | .object id => some id
  | _ => none

def isObject (v : Value) : Bool := v.object?.isSome

/-- Equality as scripts see it: a NaN differs from itself, and the two zeros are equal. -/
def equals : Value → Value → Bool
  | .number x, .number y => x.equals y
  | v, w => v = w

def toBoolean : Value → Bool
  | .undefined | .null => false
  | .boolean b => b
  | .number x => !x.isNaN && !x.isZero
  | .string s => !s.isEmpty
  | .object _ => true

/-- The number that a string stands for: nothing but blanks is zero, and what is no numeral is no
number. -/
def stringToNumber (s : String) : Number :=
  match Text.trimBlanks s.toList with
  | [] => .zero false
  | cs => (Number.read? cs).getD .nan

def toNumber : Value → Number
  | .undefined => .nan
  | .null => .zero false
  | .boolean b => .ofNat b.toNat
  | .number x => x
  | .string s => stringToNumber s
  | .object _ => .nan

/-- The value as a natural number below `2 ^ 32`: without its fraction, modulo `2 ^ 32`. -/
def toUInt32 (v : Value) : Nat := v.toNumber.toUInt32

end Value

end ScriptEngine
