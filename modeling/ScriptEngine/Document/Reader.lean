import ScriptEngine.Document.Basic
import ScriptEngine.Json.Reader

/-!
# Reading documents

A document is a JSON record. Statements and expressions are records whose field `type` names their
form; in the list notation of a record the name of the form comes first. Below the statements of
the script itself, a form may also be given by its number. Lines are natural numbers below `2 ^ 32`
and default to zero, lists marked as optional default to the empty list, and optional parts may be
missing or null.
-/

namespace ScriptEngine.Document

/-! ## Fields -/

def required (field : Option Json) (read : Json → Option α) : Option α := field.bind read

def defaulted (field : Option Json) (fallback : α) (read : Json → Option α) : Option α :=
  match field with
  | some value => read value
  | none => some fallback

def optional (field : Option Json) (read : Json → Option α) : Option (Option α) :=
  match field with
  | some value => if value.isNull then some none else (read value).map some
  | none => some none

def listOf (read : Json → Option α) (value : Json) : Option (List α) :=
  value.items?.bind (·.mapM read)

/-- The form that a tag stands for: the one that it names, or the one at its place in the list. -/
def formOf? (forms : List String) : Json → Option String
  | .string form => some form
  | .number (.natural n) => forms[n]?
  | _ => none

/-- The form of a tagged record, and the record without its tag. -/
def tagged? (forms : List String) : Json → Option (String × Json)
  | .object members =>
    match members.filter (·.1 = "type") with
    | [(_, tag)] => (formOf? forms tag).map (·, .object (members.filter (·.1 ≠ "type")))
    | _ => none
  | .array (tag :: rest) => (formOf? forms tag).map (·, .array rest)
  | _ => none

/-! ## Forms -/

def exprForms : List String :=
  ["name", "string", "number", "boolean", "null", "this", "regexp", "unary", "binary", "member",
    "index", "assign", "delete", "call", "new", "function"]

def stmtForms : List String :=
  ["expr", "var", "block", "if", "while", "do_while", "for", "for_in", "return", "throw", "break",
    "continue", "labelled", "switch", "try", "with", "function"]

/-- What the forms of expressions and statements contain is read with less fuel. -/
structure Readers where
  expr : Json → Option Expr
  stmt : Json → Option Stmt

namespace Readers

def stmts (r : Readers) : Json → Option (List Stmt) := listOf r.stmt

def exprs (r : Readers) : Json → Option (List Expr) := listOf r.expr

def declarator (r : Readers) (value : Json) : Option Declarator := do
  let [name, init] ← value.fields? ["name", "init"] | none
  return .mk (← required name Json.string?) (← optional init r.expr)

def switchCase (r : Readers) (value : Json) : Option SwitchCase := do
  let [test, body] ← value.fields? ["test", "body"] | none
  return .mk (← optional test r.expr) (← required body r.stmts)

def handler (r : Readers) (value : Json) : Option Handler := do
  let [param, guard, body, line] ← value.fields? ["param", "guard", "body", "line"] | none
  return .mk (← required param Json.string?) (← optional guard r.expr) (← required body r.stmts)
    (← defaulted line 0 Json.word?)

def functionDef (r : Readers) (value : Json) : Option FunctionDef := do
  let [name, params, body, line, endLine, source] ←
    value.fields? ["name", "params", "body", "line", "end_line", "source"] | none
  return .mk (← defaulted name "" Json.string?) (← defaulted params [] (listOf Json.string?))
    (← required body r.stmts) (← defaulted line 0 Json.word?) (← defaulted endLine 0 Json.word?)
    (← optional source Json.string?)

/-- Whether a record is empty in the list notation, as one without fields has to be. -/
def fieldless : Json → Bool
  | .array items => items.isEmpty
  | _ => true

def exprForm (r : Readers) (form : String) (value : Json) : Option Expr := do
  match form with
  | "name" =>
    let [name] ← value.fields? ["name"] | none
    return .name (← required name Json.string?)
  | "string" =>
    let [x] ← value.fields? ["value"] | none
    return .string (← required x Json.string?)
  | "number" =>
    let [x] ← value.fields? ["value"] | none
    return .number (← required x Json.number?)
  | "boolean" =>
    let [x] ← value.fields? ["value"] | none
    return .boolean (← required x Json.bool?)
  | "null" => if fieldless value then some .null else none
  | "this" => if fieldless value then some .receiver else none
  | "regexp" =>
    let [pattern, flags] ← value.fields? ["pattern", "flags"] | none
    return .regExp (← required pattern Json.string?) (← defaulted flags "" Json.string?)
  | "unary" =>
    let [op, operand] ← value.fields? ["op", "operand"] | none
    return .unary (← required op Json.string?) (← required operand r.expr)
  | "binary" =>
    let [op, left, right] ← value.fields? ["op", "left", "right"] | none
    return .binary (← required op Json.string?) (← required left r.expr) (← required right r.expr)
  | "member" =>
    let [object, property] ← value.fields? ["object", "property"] | none
    return .member (← required object r.expr) (← required property Json.string?)
  | "index" =>
    let [object, index] ← value.fields? ["object", "index"] | none
    return .element (← required object r.expr) (← required index r.expr)
  | "assign" =>
    let [target, x] ← value.fields? ["target", "value"] | none
    return .assign (← required target r.expr) (← required x r.expr)
  | "delete" =>
    let [target] ← value.fields? ["target"] | none
    return .delete (← required target r.expr)
  | "call" =>
    let [callee, args] ← value.fields? ["callee", "args"] | none
    return .call (← required callee r.expr) (← defaulted args [] r.exprs)
  | "new" =>
    let [callee, args] ← value.fields? ["callee", "args"] | none
    return .new (← required callee r.expr) (← defaulted args [] r.exprs)
  | "function" => (r.functionDef value).map .function
  | _ => none

def stmtForm (r : Readers) (form : String) (value : Json) : Option Stmt := do
  match form with
  | "expr" =>
    let [expr, line] ← value.fields? ["expr", "line"] | none
    return .expr (← required expr r.expr) (← defaulted line 0 Json.word?)
  | "var" =>
    let [decls, line] ← value.fields? ["decls", "line"] | none
    return .var (← required decls (listOf r.declarator)) (← defaulted line 0 Json.word?)
  | "block" =>
    let [body, line] ← value.fields? ["body", "line"] | none
    return .block (← required body r.stmts) (← defaulted line 0 Json.word?)
  | "if" =>
    let [cond, yes, no, line] ← value.fields? ["cond", "then", "else", "line"] | none
    return .ifElse (← required cond r.expr) (← required yes r.stmt) (← optional no r.stmt)
      (← defaulted line 0 Json.word?)
  | "while" =>
    let [cond, body, line] ← value.fields? ["cond", "body", "line"] | none
    return .whileLoop (← required cond r.expr) (← required body r.stmt)
      (← defaulted line 0 Json.word?)
  | "do_while" =>
    let [body, cond, line] ← value.fields? ["body", "cond", "line"] | none
    return .doWhile (← required body r.stmt) (← required cond r.expr)
      (← defaulted line 0 Json.word?)
  | "for" =>
    let [init, cond, step, body, line] ←
      value.fields? ["init", "cond", "update", "body", "line"] | none
    return .forLoop (← optional init r.stmt) (← optional cond r.expr) (← optional step r.expr)
      (← required body r.stmt) (← defaulted line 0 Json.word?)
  | "for_in" =>
    let [left, object, body, line] ← value.fields? ["left", "object", "body", "line"] | none
    return .forIn (← required left r.stmt) (← required object r.expr) (← required body r.stmt)
      (← defaulted line 0 Json.word?)
  | "return" =>
    let [x, line] ← value.fields? ["value", "line"] | none
    return .ret (← optional x r.expr) (← defaulted line 0 Json.word?)
  | "throw" =>
    let [x, line] ← value.fields? ["value", "line"] | none
    return .throw (← required x r.expr) (← defaulted line 0 Json.word?)
  | "break" =>
    let [label, line] ← value.fields? ["label", "line"] | none
    return .breakTo (← optional label Json.string?) (← defaulted line 0 Json.word?)
  | "continue" =>
    let [label, line] ← value.fields? ["label", "line"] | none
    return .continueTo (← optional label Json.string?) (← defaulted line 0 Json.word?)
  | "labelled" =>
    let [label, body, line] ← value.fields? ["label", "body", "line"] | none
    return .labelled (← required label Json.string?) (← required body r.stmt)
      (← defaulted line 0 Json.word?)
  | "switch" =>
    let [selector, cases, line] ← value.fields? ["discriminant", "cases", "line"] | none
    return .switch (← required selector r.expr) (← required cases (listOf r.switchCase))
      (← defaulted line 0 Json.word?)
  | "try" =>
    let [block, handlers, final, line] ←
      value.fields? ["block", "handlers", "finalizer", "line"] | none
    return .tryCatch (← required block r.stmts) (← defaulted handlers [] (listOf r.handler))
      (← optional final r.stmts) (← defaulted line 0 Json.word?)
  | "with" =>
    let [object, body, line] ← value.fields? ["object", "body", "line"] | none
    return .withScope (← required object r.expr) (← required body r.stmt)
      (← defaulted line 0 Json.word?)
  | "function" => (r.functionDef value).map .function
  | _ => none

end Readers

/-- The readers for expressions and statements nested in at most `fuel` records. -/
def readers : Nat → Readers
  | 0 => ⟨fun _ => none, fun _ => none⟩
  | fuel + 1 =>
    let r := readers fuel
    { expr := fun value => do
        let (form, value) ← tagged? exprForms value
        r.exprForm form value
      stmt := fun value => do
        let (form, value) ← tagged? stmtForms value
        r.stmtForm form value }

/-- Reads a statement of the script itself, whose form is always named. -/
def topStmt (r : Readers) (value : Json) : Option Stmt := do
  let (form, value) ← tagged? [] value
  r.stmtForm form value

def scriptFields : List String := ["source", "body", "end_line"]

def ofJson? (value : Json) : Option Script := do
  let r := readers (value.depth + 1)
  let [source, body, endLine] ← value.fields? scriptFields | none
  return { source := ← optional source Json.string?
           body := ← required body (listOf (topStmt r))
           endLine := ← defaulted endLine 0 Json.word? }

/-- How deeply the arrays and objects of a document may not be nested. -/
def nestingLimit : Nat := 128

def read? (text : String) : Option Script :=
  (Json.readRecord? nestingLimit scriptFields text).bind ofJson?

end ScriptEngine.Document
