import ScriptEngine.Proofs.Forest

/-!
# Trees as they are built

`Built` is the grammar of the forests that a parser's calls leave in the arena: which kinds of nodes
stand where and which targets go with which statements. It is stated on forests alone, without
reference to the functions that make them.

Jumps of the grammar lead to targets of the same body. Each target has a depth, the number of with
scopes around it, and a jump and its target have the same one; `Forest.Marks` reads the depths off a
forest, and `Built` asks them of a relation that includes the marks of the whole body. The only jump
across a with scope is that at the end of a catch clause, right after the scope has been left.
-/

namespace ScriptEngine

/-! ## Labels -/

/-- The opcodes whose operand is a target. -/
def Token.isBranch : Token → Bool
  | .goto | .ifEq | .ifNe | .jsr => true
  | _ => false

/-- Kinds that lowering passes over, whatever is below them. -/
def Token.isPlain : Token → Bool
  | .function | .label | .switch | .loop | .withBody | .tryStmt | .target | .enterWith
  | .leaveWith | .ret | .returnPopv | .retsub | .breakStmt | .continueStmt | .var | .name
  | .setName | .bindName | .delProp | .getVar | .setVar | .nop | .script => false
  | _ => true

/-- Of these, accesses to properties are those of whose parts the grammar knows. -/
def Token.isBare (kind : Token) : Bool := kind.isPlain && kind != .getProp && kind != .getElem

theorem Token.isPlain_of_isBare {kind : Token} (h : kind.isBare) : kind.isPlain := by
  simp only [isBare, Bool.and_eq_true] at h
  exact h.1.1

/-- The target of a jump. -/
def Node.target? (n : Node) : Option NodeId := n.jump?.bind (·.target)

/-- A label of a statement, with room for its targets, and the name below it. -/
structure LabelNode where
  id : NodeId
  node : Node
  nameId : NodeId
  nameNode : Node
  kind_eq : node.kind = .label
  data_eq : ∃ j, node.data = .jump j
  name_eq : nameNode.kind = .name

attribute [simp] LabelNode.kind_eq LabelNode.name_eq

def LabelNode.name (a : LabelNode) : String := a.nameNode.string?.getD ""

/-- Labels in front of a statement. -/
def labelForest : List LabelNode → Forest
  | [] => .nil
  | a :: rest => .cons a.id a.node (.leaf a.nameId a.nameNode) (labelForest rest)

/-- The label below a jump. -/
inductive JumpLabel : Forest → Option String → Prop
  | none : JumpLabel .nil none
  | name {n ln} (hkind : ln.kind = .name) : JumpLabel (.leaf n ln) (some (ln.string?.getD ""))

/-! ## The grammar -/

/-- What a forest stands for. -/
inductive Form where
  /-- One node: an expression or a statement without labels. -/
  | one
  /-- Statements, targets and instructions in sequence. -/
  | list
  /-- The declarations of a variable statement. -/
  | decls
deriving DecidableEq, Repr

/-- Forests that are built, at a depth of with scopes. -/
inductive Built (marks : NodeId → Nat → Prop) : Form → Nat → Forest → Prop
  | plain {w id l kids} (hkind : l.kind.isBare)
      (hjump : l.kind.isBranch → ∃ target, l.target? = some target ∧ marks target w)
      (hkids : Built marks .list w kids) :
      Built marks .one w (.tree id l kids)
  | access {w id l object key} (hkind : l.kind = .getProp ∨ l.kind = .getElem)
      (hobject : Built marks .one w object) (hkey : Built marks .one w key) :
      Built marks .one w (.tree id l (object ++ key))
  | name {w id l} (hkind : l.kind = .name) : Built marks .one w (.leaf id l)
  | setName {w id l bind lb value} (hkind : l.kind = .setName) (hbind : lb.kind = .bindName)
      (hvalue : Built marks .one w value) :
      Built marks .one w (.tree id l (.cons bind lb .nil value))
  | deleteName {w id l bind lb key lk} (hkind : l.kind = .delProp) (hbind : lb.kind = .bindName)
      (hkey : lk.kind = .string) :
      Built marks .one w (.tree id l (.cons bind lb .nil (.leaf key lk)))
  | deleteProp {w id l object key} (hkind : l.kind = .delProp) (hobject : Built marks .one w object)
      (hkey : Built marks .one w key) :
      Built marks .one w (.tree id l (object ++ key))
  | function {w id l body} (hkind : l.kind = .function) (hdata : l.data = .function body) :
      Built marks .one w (.leaf id l)
  | var {w id l kids} (hkind : l.kind = .var) (hdecls : Built marks .decls w kids) :
      Built marks .one w (.tree id l kids)
  | ret {w id l} (hkind : l.kind = .ret) : Built marks .one w (.leaf id l)
  | retValue {w id l value} (hkind : l.kind = .ret) (hvalue : Built marks .one w value) :
      Built marks .one w (.tree id l value)
  | jump {w id l j name label} (hkind : l.kind = .breakStmt ∨ l.kind = .continueStmt)
      (hdata : l.data = .jump j) (hname : JumpLabel name label) :
      Built marks .one w (.tree id l name)
  | switch {w id l data selector clauses} (hkind : l.kind = .switch) (hdata : l.data = .switch data)
      (hselector : Built marks .one w selector) (hclauses : Built marks .list w clauses) :
      Built marks .one w (.tree id l (selector ++ clauses))
  | loop {w id l j body stop ls continueTo} (hkind : l.kind = .loop) (hdata : l.data = .jump j)
      (htarget : j.target = some stop) (hcontinue : j.continueTarget = some continueTo)
      (hmark : marks continueTo w) (hbody : Built marks .list w body) (hstop : ls.kind = .target)
      (hstopMark : marks stop w) :
      Built marks .one w (.tree id l (body ++ .leaf stop ls))
  | tryCatch {w id l j kids} (hkind : l.kind = .tryStmt) (hdata : l.data = .jump j)
      (hfinally : j.finallyTarget = none) (hkids : Built marks .list w kids) :
      Built marks .one w (.tree id l kids)
  | tryFinally {w id l j guarded entry le final back lb stop ls} (hkind : l.kind = .tryStmt)
      (hdata : l.data = .jump j) (hfinally : j.finallyTarget = some entry)
      (hguarded : Built marks .list w guarded) (hentry : le.kind = .target)
      (hentryMark : marks entry w) (hfinal : Built marks .one w final) (hback : lb.kind = .retsub)
      (hstop : ls.kind = .target) (hstopMark : marks stop w) :
      Built marks .one w
        (.tree id l (guarded ++ .cons entry le .nil
          (final ++ .cons back lb .nil (.leaf stop ls))))
  | nil {w} : Built marks .list w .nil
  | target {w id l rest} (hkind : l.kind = .target) (hmark : marks id w)
      (hrest : Built marks .list w rest) :
      Built marks .list w (.cons id l .nil rest)
  | labelled {w labels id l kids rest} (hone : Built marks .one w (.tree id l kids))
      (hrest : Built marks .list w rest) :
      Built marks .list w (labelForest labels ++ .cons id l kids rest)
  | withScope {w enter le object inner li body leave lv rest} (henter : le.kind = .enterWith)
      (hobject : Built marks .list w object) (hinner : li.kind = .withBody)
      (hbody : Built marks .list (w + 1) body) (hleave : lv.kind = .leaveWith)
      (hrest : Built marks .list w rest) :
      Built marks .list w (.cons enter le object (.cons inner li body (.cons leave lv .nil rest)))
  | exit {w leave lv skip lg target rest} (hleave : lv.kind = .leaveWith) (hskip : lg.kind = .goto)
      (htarget : lg.target? = some target) (hmark : marks target w)
      (hrest : Built marks .list (w + 1) rest) :
      Built marks .list (w + 1) (.cons leave lv .nil (.cons skip lg .nil rest))
  | declNil {w} : Built marks .decls w .nil
  | decl {w id l rest} (hkind : l.kind = .name) (hrest : Built marks .decls w rest) :
      Built marks .decls w (.cons id l .nil rest)
  | declInit {w id l init rest} (hkind : l.kind = .name) (hinit : Built marks .one w init)
      (hrest : Built marks .decls w rest) :
      Built marks .decls w (.cons id l init rest)

/-! ## Marks -/

/-- A target stands in the forest at a depth of with scopes. -/
def Forest.Marks (w : Nat) : Forest → NodeId → Nat → Prop
  | .nil, _, _ => False
  | .cons id l kids rest, target, depth =>
    (l.kind = .target ∧ id = target ∧ w = depth) ∨
      kids.Marks (if l.kind = .withBody then w + 1 else w) target depth ∨
        rest.Marks w target depth

/-- A forest that is built, wherever it stands: its jumps lead to its own targets. -/
def Forest.IsBuilt (form : Form) (f : Forest) : Prop :=
  ∀ w (marks : NodeId → Nat → Prop), (∀ target depth, f.Marks w target depth → marks target depth) →
    Built marks form w f

/-- A forest without jumps that is built, as an expression is. -/
def Forest.IsJumpFree (form : Form) (f : Forest) : Prop :=
  ∀ w (marks : NodeId → Nat → Prop), Built marks form w f

variable {w : Nat} {id : NodeId} {l : Node} {kids f g : Forest}

namespace Forest

variable {depth : Nat} {target : NodeId}

@[simp, grind =] theorem marks_nil : Forest.nil.Marks w target depth ↔ False := Iff.rfl

@[simp, grind =] theorem marks_cons {rest : Forest} :
    (Forest.cons id l kids rest).Marks w target depth ↔
      (l.kind = .target ∧ id = target ∧ w = depth) ∨
        kids.Marks (if l.kind = .withBody then w + 1 else w) target depth ∨
          rest.Marks w target depth := Iff.rfl

@[simp, grind =] theorem marks_append :
    (f ++ g).Marks w target depth ↔ f.Marks w target depth ∨ g.Marks w target depth := by
  induction f with
  | nil => simp
  | cons id l kids rest _ ih => simp [ih, or_assoc]

/-- What is marked is a target of the forest. -/
theorem Marks.mem_ids (h : f.Marks w target depth) : target ∈ f.ids := by
  induction f generalizing w with
  | nil => exact h.elim
  | cons id l kids rest ihk ihr =>
    simp only [ids_cons, List.mem_cons, List.mem_append]
    rcases h with ⟨-, rfl, -⟩ | h | h
    · exact .inl rfl
    · exact .inr (.inl (ihk h))
    · exact .inr (.inr (ihr h))

/-- A node that stands in a forest once is marked with one depth. -/
theorem Marks.unique (hnd : f.ids.Nodup) {depth' : Nat}
    (h : f.Marks w target depth) (h' : f.Marks w target depth') : depth = depth' := by
  induction f generalizing w with
  | nil => exact h.elim
  | cons id l kids rest ihk ihr =>
    simp only [ids_cons, List.nodup_cons, List.mem_append, not_or, List.nodup_append] at hnd
    obtain ⟨⟨hidk, hidr⟩, hndk, hndr, hdis⟩ := hnd
    rcases h with ⟨-, rfl, rfl⟩ | h | h <;> rcases h' with ⟨-, h2, h3⟩ | h' | h'
    · exact h3
    · exact absurd h'.mem_ids hidk
    · exact absurd h'.mem_ids hidr
    · exact absurd (h2 ▸ h.mem_ids) hidk
    · exact ihk hndk h h'
    · exact absurd rfl (hdis _ h.mem_ids _ h'.mem_ids)
    · exact absurd (h2 ▸ h.mem_ids) hidr
    · exact absurd rfl (hdis _ h'.mem_ids _ h.mem_ids)
    · exact ihr hndr h h'

end Forest

/-! ## Laws of the grammar -/

namespace Built

variable {marks : NodeId → Nat → Prop} {form : Form}

/-- A statement without labels in front of others. -/
theorem node (hone : Built marks .one w (.tree id l kids))
    (hg : Built marks .list w g) : Built marks .list w (.cons id l kids g) :=
  show Built marks .list w (labelForest [] ++ .cons id l kids g) from .labelled hone hg

/-- Statements in sequence. -/
theorem append (hf : Built marks .list w f) (hg : Built marks .list w g) :
    Built marks .list w (f ++ g) := by
  generalize hform : Form.list = form at hf
  induction hf with
  | nil => simpa using hg
  | target hkind hmark _ ih => exact .target hkind hmark (ih hg hform)
  | labelled hone _ _ ihr =>
    rw [Forest.append_assoc]
    exact .labelled hone (ihr hg hform)
  | withScope henter hobject hinner hbody hleave _ _ _ ihr =>
    exact .withScope henter hobject hinner hbody hleave (ihr hg hform)
  | exit hleave hskip htarget hmark _ ih =>
    exact .exit hleave hskip htarget hmark (ih hg hform)
  | _ => cases hform

/-- Declarations in sequence. -/
theorem append_decls (hf : Built marks .decls w f) (hg : Built marks .decls w g) :
    Built marks .decls w (f ++ g) := by
  generalize hform : Form.decls = form at hf
  induction hf with
  | declNil => simpa using hg
  | decl hkind _ ih => exact .decl hkind (ih hg hform)
  | declInit hkind hinit _ _ ihr => exact .declInit hkind hinit (ihr hg hform)
  | _ => cases hform

/-- A single node is a tree. -/
theorem one_eq_tree (h : Built marks .one w f) : ∃ id l kids, f = .tree id l kids := by
  cases h <;> exact ⟨_, _, _, rfl⟩

/-- A single node alone in a list. -/
theorem list_of_one (h : Built marks .one w f) : Built marks .list w f := by
  obtain ⟨id, l, kids, rfl⟩ := h.one_eq_tree
  exact .node h .nil

end Built

end ScriptEngine
