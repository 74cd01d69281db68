import ScriptEngine.Number.Basic

/-!
# JSON values

Objects keep their members in the order of the text, repeated names included, and numerals keep
apart what the text keeps apart: integers that fit in sixty-four bits, and everything else.
-/

namespace ScriptEngine

inductive Numeral where
  | natural (n : Nat)
  | negative (n : Nat)
  | real (x : Number)
deriving DecidableEq, Repr, Inhabited

def Numeral.toNumber : Numeral → Number
  | .natural n => .ofNat n
  | .negative n => .ofInt (-n)
  | .real x => x

inductive Json where
  | null
  | bool (b : Bool)
  | number (n : Numeral)
  | string (s : String)
  | array (items : List Json)
  | object (members : List (String × Json))
deriving Repr, Inhabited

namespace Json

mutual

def depth : Json → Nat
  | .array items => depthOfItems items + 1
  | .object members => depthOfMembers members + 1
  | _ => 0

def depthOfItems : List Json → Nat
  | [] => 0
  | item :: rest => max item.depth (depthOfItems rest)

def depthOfMembers : List (String × Json) → Nat
  | [] => 0
  | (_, value) :: rest => max value.depth (depthOfMembers rest)

end

def isNull : Json → Bool
  | .null => true
  | _ => false

def string? : Json → Option String
  | .string s => some s
  | _ => none

def bool? : Json → Option Bool
  | .bool b => some b
  | _ => none

def items? : Json → Option (List Json)
  | .array items => some items
  | _ => none

def number? : Json → Option Number
  | .number n => some n.toNumber
  | _ => none

def word? : Json → Option Nat
  | .number (.natural n) => if n < Nat.pow 2 32 then some n else none
  | _ => none

/-- The values of the named fields of a record. A record is written as an object, in which none of
the names may be repeated and other names are ignored, or as the list of its fields in order, of
which the last ones may be missing. -/
def fields? (names : List String) : Json → Option (List (Option Json))
  | .object members =>
    if names.all fun n => (members.filter (·.1 = n)).length ≤ 1 then
      some (names.map fun n => members.lookup n)
    else none
  | .array items =>
    if items.length ≤ names.length then
      some (items.map some ++ List.replicate (names.length - items.length) none)
    else none
  | _ => none

end Json

end ScriptEngine
