import ScriptEngine.Number.Text
import ScriptEngine.Syntax.Program
import ScriptEngine.Text.Quoted

/-!
# Tree listings

A listing shows one node a line, its children below it, indented by two more spaces. A program is
listed body by body, each under a line with its flags and, if it has any, a line with its variables.
-/

namespace ScriptEngine

/-- A field of a listing line that is only shown if it is set. -/
private def listingField (name : String) (value : Option String) : String :=
  match value with
  | some v => s!" {name}={v}"
  | none => ""

def Payload.listing : Payload → String
  | .none => ""
  | .number x => " " ++ x.plainText
  | .string s => " " ++ Text.quoted s
  | .int n => " " ++ toString n

def NodeData.listing : NodeData → String
  | .none => ""
  | .jump j =>
    listingField "label" j.label ++ listingField "target" (j.target.map toString) ++
      listingField "continue" (j.continueTarget.map toString) ++
      listingField "finally" (j.finallyTarget.map toString)
  | .switch s =>
    let cases := "[" ++ ",".intercalate (s.cases.map toString) ++ "]"
    listingField "target" (s.target.map toString) ++
      listingField "cases" (if s.cases.isEmpty then Option.none else some cases) ++
      listingField "default" (s.fallback.map toString)
  | .function body => " " ++ toString body

def AttrValue.listing : AttrValue → String
  | .int n => toString n
  | .node id => toString id

def Attrs.listing (a : Attrs) : String :=
  String.join (a.entries.map fun (key, value) => s!" {key.label}={value.listing}")

def Node.listing (n : Node) (id : NodeId) : String :=
  s!"{id} {n.kind}" ++ n.payload.listing ++ n.data.listing ++ n.attrs.listing ++
    listingField "line" (n.line.map toString)

namespace Tree

/-- The lines of a node and its descendants, down to `fuel` levels. -/
def listingLines (t : Tree) : Nat → Nat → NodeId → List String
  | 0, _, _ => []
  | fuel + 1, depth, id =>
    (String.ofList (List.replicate (2 * depth) ' ') ++ (t.node id).listing id) ::
      (t.children id).flatMap (listingLines t fuel (depth + 1))

def unlines (lines : List String) : String := String.join (lines.map (· ++ "\n"))

/-- The listing of a node and its descendants. No path without a cycle is longer than the arena. -/
def listing (t : Tree) (id : NodeId) : String := unlines (t.listingLines (t.size + 1) 0 id)

end Tree

def Body.displayName (b : Body) : String := if b.name.isEmpty then "<anonymous>" else b.name

def Body.heading (b : Body) : String :=
  let what := match b.functionType with
    | none => "script"
    | some t => s!"function {b.displayName} ({t.label})"
  s!"{b.id} {what}" ++ (if b.requiresActivation then " [activation]" else "") ++
    (if b.checkThis then " [check-this]" else "") ++ (if b.hasFinally then " [finally]" else "")

def Program.bodyLines (p : Program) (b : Body) : List String :=
  let vars := if b.vars.isEmpty then [] else ["  vars: " ++ ", ".intercalate b.vars.names]
  b.heading :: vars ++ (p.tree.children b.root).flatMap (p.tree.listingLines (p.tree.size + 1) 1)

def Program.listing (p : Program) : String := Tree.unlines (p.bodies.toList.flatMap p.bodyLines)

end ScriptEngine
