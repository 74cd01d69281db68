import ScriptEngine.Number.Basic

/-!
# Script documents

A parsed script in the form in which it is exchanged: statements and expressions with the lines they
stand on. A line of zero is not known. Operators are named by their tokens.
-/

namespace ScriptEngine.Document

mutual

inductive Expr where
  | name (name : String)
  | string (value : String)
  | number (value : Number)
  | boolean (value : Bool)
  | null
  | receiver
  | regExp (pattern flags : String)
  | unary (op : String) (operand : Expr)
  | binary (op : String) (left right : Expr)
  | member (object : Expr) (property : String)
  | element (object index : Expr)
  | assign (target value : Expr)
  | delete (target : Expr)
  | call (callee : Expr) (args : List Expr)
  | new (callee : Expr) (args : List Expr)
  | function (definition : FunctionDef)

inductive Stmt where
  | expr (expr : Expr) (line : Nat)
  | var (decls : List Declarator) (line : Nat)
  | block (body : List Stmt) (line : Nat)
  | ifElse (cond : Expr) (yes : Stmt) (no : Option Stmt) (line : Nat)
  | whileLoop (cond : Expr) (body : Stmt) (line : Nat)
  | doWhile (body : Stmt) (cond : Expr) (line : Nat)
  | forLoop (init : Option Stmt) (cond step : Option Expr) (body : Stmt) (line : Nat)
  | forIn (left : Stmt) (object : Expr) (body : Stmt) (line : Nat)
  | ret (value : Option Expr) (line : Nat)
  | throw (value : Expr) (line : Nat)
  | breakTo (label : Option String) (line : Nat)
  | continueTo (label : Option String) (line : Nat)
  | labelled (label : String) (body : Stmt) (line : Nat)
  | switch (selector : Expr) (cases : List SwitchCase) (line : Nat)
  | tryCatch (block : List Stmt) (handlers : List Handler) (final : Option (List Stmt))
      (line : Nat)
  | withScope (object : Expr) (body : Stmt) (line : Nat)
  | function (definition : FunctionDef)

inductive Declarator where
  | mk (name : String) (init : Option Expr)

inductive SwitchCase where
  | mk (test : Option Expr) (body : List Stmt)

inductive Handler where
  | mk (param : String) (guard : Option Expr) (body : List Stmt) (line : Nat)

inductive FunctionDef where
  | mk (name : String) (params : List String) (body : List Stmt) (line endLine : Nat)
      (source : Option String)

end

def FunctionDef.name : FunctionDef → String
  | .mk name _ _ _ _ _ => name

def FunctionDef.line : FunctionDef → Nat
  | .mk _ _ _ line _ _ => line

instance : Inhabited Expr := ⟨.null⟩
instance : Inhabited Stmt := ⟨.block [] 0⟩

structure Script where
  source : Option String
  body : List Stmt
  endLine : Nat
deriving Inhabited

end ScriptEngine.Document
