import ScriptEngine.Number.Reader

/-!
# Indices

The names that are indices: decimal numerals without a leading zero, below `2 ^ 64`.
-/

namespace ScriptEngine

def arrayIndex? (name : String) : Option Nat :=
  match name.toList with
  | [] => none
  | '0' :: _ :: _ => none
  | cs =>
    let n := Number.digitsValue cs
    if cs.all Char.isDigit && n < Nat.pow 2 64 then some n else none

def indexName (index : Nat) : String := toString index

end ScriptEngine
