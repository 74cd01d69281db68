import ScriptEngine.Value.Basic

/-!
# Properties

The named properties of an object, each with its value and with what may be done to it. A map holds
a name at most once.
-/

namespace ScriptEngine

/-- A property: its value, and whether it can be written, is enumerated and can be deleted. -/
structure Property where
  value : Value
  writable : Bool := true
  enumerable : Bool := true
  configurable : Bool := true
deriving DecidableEq, Repr, Inhabited

namespace Property

/-- A property that enumeration passes over. -/
def hidden (value : Value) : Property := { value, enumerable := false }

/-- A property that cannot be deleted. -/
def permanent (value : Value) : Property := { value, configurable := false }

/-- A hidden property that can be neither written nor deleted. -/
def readOnly (value : Value) : Property :=
  { value, writable := false, enumerable := false, configurable := false }

end Property

/-- Named properties, each name once. -/
structure PropertyMap where
  entries : List (String × Property) := []
deriving DecidableEq, Repr, Inhabited

namespace PropertyMap

def size (m : PropertyMap) : Nat := m.entries.length

def isEmpty (m : PropertyMap) : Bool := m.entries.isEmpty

def find? (m : PropertyMap) (name : String) : Option Property := m.entries.lookup name

def get? (m : PropertyMap) (name : String) : Option Value := (m.find? name).map (·.value)

def has (m : PropertyMap) (name : String) : Bool := (m.find? name).isSome

/-- Puts a property in the place of the one with its name, or at the end. -/
def replace (name : String) (p : Property) : List (String × Property) → List (String × Property)
  | [] => [(name, p)]
  | (n, q) :: rest => if n = name then (n, p) :: rest else (n, q) :: replace name p rest

def define (m : PropertyMap) (name : String) (p : Property) : PropertyMap :=
  ⟨replace name p m.entries⟩

/-- Writes a value: into the property with the name if it can be written, else into a new ordinary
property if there is none. -/
def put (m : PropertyMap) (name : String) (value : Value) : PropertyMap :=
  match m.find? name with
  | some p => if p.writable then m.define name { p with value } else m
  | none => m.define name { value }

/-- Deletes a property. The answer is false if it cannot be deleted. -/
def delete (m : PropertyMap) (name : String) : Bool × PropertyMap :=
  match m.find? name with
  | some p => if p.configurable then (true, ⟨m.entries.filter (·.1 ≠ name)⟩) else (false, m)
  | none => (true, m)

def sortNames (names : List String) : List String := names.mergeSort fun a b => decide (a ≤ b)

def names (m : PropertyMap) : List String := sortNames (m.entries.map (·.1))

def keys (m : PropertyMap) : List String :=
  sortNames ((m.entries.filter (·.2.enumerable)).map (·.1))

end PropertyMap

end ScriptEngine
