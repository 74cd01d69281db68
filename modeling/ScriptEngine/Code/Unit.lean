import ScriptEngine.Code.Assembler
import ScriptEngine.Config.Basic
import ScriptEngine.Syntax.Program

/-!
# Compiled units

A compiled unit is what is left of a body after compilation: its code with the constants and lines,
the names of its variables, the resources that a call needs, and the units of the functions in it.
-/

namespace ScriptEngine

/-- The compiled form of a script or function. -/
structure CompiledUnit where
  name : String
  encodedSource : Option String
  sourceName : Option String
  needsActivation : Bool
  checkThis : Bool
  fromEvalCode : Bool
  useDynamicScope : Bool
  /-- None for a script. -/
  functionType : Option FunctionType
  code : Array UInt8
  strings : Array String
  numbers : Array Number
  regexps : List RegExpLiteral
  /-- The units of nested functions, in source order. -/
  nested : List CompiledUnit
  /-- Parameters, repeated names included, then variables. -/
  argNames : List String
  /-- How many of the names are parameters. -/
  argCount : Nat
  maxVars : Nat
  maxLocals : Nat
  maxStack : Nat
  maxTryDepth : Nat
  maxCalleeArgs : Nat
  lines : LineTable
  languageVersion : LanguageVersion
  baseLine : Option Nat
  endLine : Option Nat

namespace CompiledUnit

def isFunction (u : CompiledUnit) : Bool := u.functionType.isSome

def argName? (u : CompiledUnit) (slot : Nat) : Option String := u.argNames[slot]?

def lineAt? (u : CompiledUnit) (pc : Nat) : Option Nat := u.lines.lineAt? pc

def fold (f : CompiledUnit → List α → α) (u : CompiledUnit) : α :=
  f u (u.nested.attach.map fun ⟨v, _⟩ => v.fold f)
termination_by sizeOf u
decreasing_by
  have := List.sizeOf_lt_of_mem ‹v ∈ u.nested›
  cases u
  simp_all
  omega

def count (u : CompiledUnit) : Nat := u.fold fun _ counts => counts.foldr (· + ·) 1

def descend? (u : CompiledUnit) : List Nat → Option CompiledUnit
  | [] => some u
  | i :: rest => (u.nested[i]?).bind (descend? · rest)

end CompiledUnit

def Assembler.finish (a : Assembler) (body : Body) (nested : List CompiledUnit) (config : Config)
    (fromEvalCode : Bool) : CompiledUnit :=
  { name := body.name
    encodedSource := body.encodedSource
    sourceName := body.sourceName
    needsActivation := body.requiresActivation
    checkThis := body.checkThis
    fromEvalCode
    useDynamicScope := config.dynamicScope
    functionType := body.functionType
    code := a.code
    strings := a.strings.items
    numbers := a.numbers.items
    regexps := body.regexps
    nested
    argNames := body.vars.names
    argCount := body.vars.paramCount
    maxVars := body.vars.size
    maxLocals := max a.maxLocals body.localCount
    maxStack := a.maxStack
    maxTryDepth := a.maxTryDepth
    maxCalleeArgs := a.maxCalleeArgs
    lines := a.lines
    languageVersion := config.languageVersion
    baseLine := body.baseLine
    endLine := body.endLine }

instance : Inhabited CompiledUnit :=
  ⟨Assembler.finish {} { id := .script, functionType := none, name := "", root := ⟨0⟩ } [] {} false⟩

end ScriptEngine
