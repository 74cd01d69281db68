import ScriptEngine.Code.Unit
import ScriptEngine.Diagnostics
import ScriptEngine.Json.Basic

/-!
# Views as JSON

What tools get to see of tokens, nodes, bodies, units and diagnostics. Numbers of scripts are
written by the digits of their bits, so that nothing is rounded; positions and lines are plain
numbers, and what is missing is `null`.
-/

namespace ScriptEngine

namespace Json

def opt (view : α → Json) (a : Option α) : Json := (a.map view).getD .null

def listOf (view : α → Json) (items : List α) : Json := .array (items.map view)

instance : Coe String Json := ⟨.string⟩

instance : Coe Bool Json := ⟨.bool⟩

instance : Coe Nat Json := ⟨fun n => .number (.natural n)⟩

instance : Coe Int Json :=
  ⟨fun z => .number (if z < 0 then .negative z.natAbs else .natural z.toNat)⟩

instance : Coe NodeId Json := ⟨fun id => id.index⟩

instance : Coe BodyId Json := ⟨fun id => id.index⟩

instance : Coe (Option String) Json := ⟨opt .string⟩

instance : Coe (Option Nat) Json := ⟨opt fun n => n⟩

instance : Coe (Option NodeId) Json := ⟨opt fun id => id⟩

instance : Coe (Option BodyId) Json := ⟨opt fun id => id⟩

instance : Coe (List String) Json := ⟨listOf .string⟩

end Json

open Json

/-! ## Numbers and tokens -/

/-- The digits of the bits of a number; all numbers that are none look the same. -/
def Number.bitText (x : Number) : String := if x.isNaN then "nan" else x.hexDigits

def Number.view (x : Number) : Json := .object [("num", x.bitText)]

def NodeData.label : NodeData → String
  | .none => "none"
  | .jump _ => "jump"
  | .switch _ => "switch"
  | .function _ => "function"

def Token.view (t : Token) : Json :=
  .object [("name", t.spelling), ("display", toString t), ("code", t.code),
    ("bytecode", t.isBytecode), ("jump", t.isJump), ("props", (NodeData.ofKind t).label)]

/-! ## Diagnostics -/

def Diagnostic.view (d : Diagnostic) : Json :=
  .object [("message", d.message), ("source", d.sourceName), ("line", d.line),
    ("severity", d.severity.label)]

def Diagnostics.view (ds : Diagnostics) : Json :=
  .object [("items", listOf Diagnostic.view ds.items), ("errors", ds.errors),
    ("dropped", ds.dropped), ("text", ds.text)]

/-! ## Nodes and bodies -/

def AttrValue.view : AttrValue → Json
  | .int n => .object [("int", n)]
  | .node id => .object [("node", id)]

def Payload.view : Payload → Json
  | .none => .null
  | .number x => x.view
  | .string s => s
  | .int z => .object [("int", z)]

def NodeData.view : NodeData → Json
  | .none => .null
  | .jump j => .object [("jump", .array [j.target, j.continueTarget, j.finallyTarget, j.label])]
  | .switch s =>
    .object [("switch", .array [s.target, listOf (fun c : NodeId => c) s.cases, s.fallback])]
  | .function b => .object [("function", b)]

def Node.view (n : Node) : Json :=
  .object [("kind", n.kind.spelling), ("links", .array [n.first, n.last, n.next]),
    ("payload", n.payload.view), ("string", n.string?),
    ("number", opt (fun x => x.bitText) n.number?), ("line", n.line), ("props", n.data.view),
    ("attrs_empty", n.attrs.isEmpty),
    ("attrs", listOf (fun (key, value) => .array [key.label, value.view]) n.attrs.entries)]

/-- The view of a body of a program, with its place in the enclosing body and the first function of
its name. -/
def Program.bodyView (p : Program) (b : Body) : Json :=
  let place := b.parent.bind fun parent => (p.body parent).nestedIndex? b.id
  .object [("id", toString b.id), ("type", b.functionType.map (·.label)),
    ("is_function", b.isFunction), ("name", b.name), ("root", b.root), ("parent", b.parent),
    ("vars", b.vars.names), ("params", b.vars.paramCount),
    ("flags", .array [b.requiresActivation, b.checkThis, b.hasFinally]),
    ("functions", listOf (fun id : BodyId => id) b.functions), ("regexps", b.regexps.length),
    ("locals", b.localCount), ("source_name", b.sourceName), ("encoded_source", b.encodedSource),
    ("lines", .array [b.baseLine, b.endLine]),
    ("named", (p.functionNamed? b.name).map (·.id)), ("place", place)]

/-! ## Units -/

def hexByte (b : UInt8) : List Char :=
  let digits := Nat.toDigits 16 b.toNat
  List.replicate (2 - digits.length) '0' ++ digits

def CompiledUnit.codeText (u : CompiledUnit) : String :=
  String.ofList (u.code.toList.flatMap hexByte)

/-- Up to how many strings of a unit are shown; of more there is only the number. -/
def CompiledUnit.shownStrings : Nat := 1000

/-- The view of a unit, given the views of the units inside it. -/
def CompiledUnit.viewWith (u : CompiledUnit) (nested : List Json) : Json :=
  let lineAt (pc : Nat) : Json := u.lineAt? pc
  let strings : Json :=
    if u.strings.size ≤ shownStrings then u.strings.toList else u.strings.size
  .object [("name", u.name), ("encoded_source", u.encodedSource), ("source_name", u.sourceName),
    ("flags", .array [u.needsActivation, u.checkThis, u.fromEvalCode, u.useDynamicScope,
      u.isFunction]),
    ("function_type", u.functionType.map (·.code)), ("bytecode", u.codeText),
    ("strings", strings), ("numbers", u.numbers.toList.map (·.bitText)),
    ("regexps", listOf (fun x => .array [x.source, x.flags]) u.regexps),
    ("arg_names", u.argNames), ("arg_count", u.argCount),
    ("slot_names", .array [u.argName? 0, u.argName? u.argCount]),
    ("max", .object [("vars", u.maxVars), ("locals", u.maxLocals), ("stack", u.maxStack),
      ("try", u.maxTryDepth), ("args", u.maxCalleeArgs)]),
    ("lines", listOf (fun e => .array [e.pc, e.line]) u.lines.entries.toList),
    ("line_at", .array [lineAt 0, lineAt (u.code.size / 2), lineAt u.code.size]),
    ("version", u.languageVersion.code), ("base_line", u.baseLine), ("end_line", u.endLine),
    ("nested", .array nested)]

def CompiledUnit.view (u : CompiledUnit) : Json := u.fold viewWith

end ScriptEngine
