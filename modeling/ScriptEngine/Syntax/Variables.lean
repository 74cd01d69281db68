import ScriptEngine.Fault

/-!
# Variable tables

The variables of a body: its parameters in order, repeated names included, then its declared
variables. A name stands for its last occurrence. An index leads from names to positions; it is kept
in step with the names.
-/

namespace ScriptEngine

/-- The positions of names, later ones first. -/
def nameIndex (names : List String) : List (String × Nat) :=
  names.zipIdx.foldl (fun index entry => entry :: index) []

theorem nameIndex_eq (names : List String) : nameIndex names = names.zipIdx.reverse := by
  rw [nameIndex, List.foldl_flip_cons_eq_append', List.append_nil]

theorem nameIndex_append_singleton (names : List String) (name : String) :
    nameIndex (names ++ [name]) = (name, names.length) :: nameIndex names := by
  simp [nameIndex, List.zipIdx_append]

/-- Parameters followed by declared variables. -/
structure VariableTable where
  names : List String := []
  paramCount : Nat := 0
  index : List (String × Nat) := nameIndex names
  index_eq : index = nameIndex names := by rfl
deriving DecidableEq, Repr

namespace VariableTable

instance : Inhabited VariableTable := ⟨{}⟩

def size (v : VariableTable) : Nat := v.names.length

def isEmpty (v : VariableTable) : Bool := v.names.isEmpty

def get? (v : VariableTable) (name : String) : Option Nat := v.index.lookup name

def isParameter (v : VariableTable) (name : String) : Bool :=
  match v.get? name with
  | some i => i < v.paramCount
  | none => false

def push (v : VariableTable) (name : String) : VariableTable :=
  { v with
    names := v.names ++ [name]
    index := (name, v.names.length) :: v.index
    index_eq := by rw [nameIndex_append_singleton, v.index_eq] }

@[simp] theorem names_push (v : VariableTable) (name : String) :
    (v.push name).names = v.names ++ [name] := rfl

/-- Adds a parameter; all parameters come before the first variable. -/
def addParameter (v : VariableTable) (name : String) : Except Fault VariableTable :=
  if v.paramCount = v.names.length then .ok { v.push name with paramCount := v.paramCount + 1 }
  else .error .parameterAfterVariable

/-- Declares a variable. The answer is false if the name was known. -/
def addLocal (v : VariableTable) (name : String) : Bool × VariableTable :=
  match v.get? name with
  | some _ => (false, v)
  | none => (true, v.push name)

/-- Removes a declared variable. The answer is false for parameters and unknown names. The names
behind it move up, so all positions are noted again. -/
def removeLocal (v : VariableTable) (name : String) : Bool × VariableTable :=
  match v.get? name with
  | some i =>
    if v.paramCount ≤ i then
      let names := v.names.eraseIdx i
      (true, { names, paramCount := v.paramCount, index := nameIndex names })
    else (false, v)
  | none => (false, v)

end VariableTable

end ScriptEngine
