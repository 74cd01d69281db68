import ScriptEngine.Value.Basic

/-!
# Errors of scripts

A computation of a script fails with an error that the engine raises, or with a value that the
script throws.
-/

namespace ScriptEngine

inductive ErrorClass where
  | syntaxError
  | typeError
  | referenceError
  | rangeError
  | internalError
deriving DecidableEq, Repr, Inhabited

def ErrorClass.label : ErrorClass → String
  | .syntaxError => "SyntaxError"
  | .typeError => "TypeError"
  | .referenceError => "ReferenceError"
  | .rangeError => "RangeError"
  | .internalError => "InternalError"

inductive ScriptError where
  | raised (errorClass : ErrorClass) (detail : String)
  | thrown (value : Value)
deriving DecidableEq, Repr, Inhabited

namespace ScriptError

def notDefined (name : String) : ScriptError :=
  .raised .referenceError s!"{name} is not defined"

def noProperties (text : String) : ScriptError :=
  .raised .typeError s!"{text} has no properties"

def notFunction (text : String) : ScriptError :=
  .raised .typeError s!"{text} is not a function"

def prototypeNotObject (function : String) : ScriptError :=
  .raised .typeError s!"'prototype' property of {function} is not an object"

def methodOnNonFunction (method : String) : ScriptError :=
  .raised .typeError s!"Function.prototype.{method} called on a non-function"

def notArray : ScriptError :=
  .raised .typeError "second argument to Function.prototype.apply must be an array"

def notScript (name : String) : ScriptError :=
  .raised .internalError s!"`{name}` is a function body, not a script"

end ScriptError

end ScriptEngine
