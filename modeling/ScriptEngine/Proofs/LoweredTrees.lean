import ScriptEngine.Lowering.Jumps
import ScriptEngine.Proofs.Plots

/-!
# Lowered trees

`Lowered` relates a forest of the grammar `Built` to what lowering makes of it. It says which nodes
are kept, which targets and steps are added, and where jumps lead. Names of variables are left as
they are; `Slotted` says what becomes of them.

The scopes around a forest are given innermost first. A jump goes to the nearest scope that is a
destination for it, after the steps that leave the scopes inside that one.

What lowering notes on its way besides, complaints and facts about bodies, is a list of events. A
return asks whether a finally block has been noted before it, so the relation also has the state of
this flag in front of the forest.
-/

namespace ScriptEngine

variable {id stop : NodeId} {l : Node} {kids front : Forest} {continueTo : Option NodeId}
  {labels : List LabelNode}

/-- A construct around a node, with the targets that a jump out of it needs. -/
inductive Scope where
  | loop (node stop continueTo : NodeId)
  | switch (node stop : NodeId)
  | withBody (node leave : NodeId)
  | label (node : NodeId) (name : String) (stop : NodeId) (continueTo : Option NodeId)
  /-- The part of a try that its finally block guards. -/
  | guarded (node entry : NodeId)
deriving DecidableEq, Repr

namespace Scope

/-- The node of the construct. -/
def node : Scope → NodeId
  | .loop node _ _ | .switch node _ | .withBody node _ | .label node _ _ _ | .guarded node _ => node

/-- The node at which the scope ends. -/
def exit : Scope → NodeId
  | .loop _ stop _ | .switch _ stop | .label _ _ stop _ => stop
  | .withBody _ leave => leave
  | .guarded _ entry => entry

def kind : Scope → Token
  | .loop .. => .loop
  | .switch .. => .switch
  | .withBody .. => .withBody
  | .label .. => .label
  | .guarded .. => .tryStmt

/-- The scope is that of the label with a name. -/
def isLabelled (name : String) : Scope → Bool
  | .label _ n _ _ => n = name
  | _ => false

/-- A jump can go to the scope: an unlabelled one to a loop, and a break also to a switch. -/
def isDestination (isBreak : Bool) : Option String → Scope → Bool
  | none, .loop .. => true
  | none, .switch .. => isBreak
  | some name, scope => scope.isLabelled name
  | _, _ => false

/-- Where a jump to the scope leads. -/
def target? (isBreak : Bool) : Scope → Option NodeId
  | .loop _ stop continueTo => some (if isBreak then stop else continueTo)
  | .switch _ stop => some stop
  | .label _ _ stop continueTo => if isBreak then some stop else continueTo
  | .withBody .. | .guarded .. => none

/-- The step by which a jump leaves the scope. -/
def step? : Scope → Option Node
  | .withBody .. => some (.ofKind .leaveWith)
  | .guarded _ entry => some ((Node.ofKind .jsr).withJump { target := some entry })
  | .loop .. | .switch .. | .label .. => none

/-- The region that is open inside the scope. -/
def region (scope : Scope) : Region := ⟨scope.node, scope.kind, scope.exit⟩

/-- The arena knows the targets of the scope. -/
def Open (t : Tree) : Scope → Prop
  | .loop node stop continueTo => ∃ j, (t.label node).data = .jump j ∧ j.target = some stop ∧
      j.continueTarget = some continueTo
  | .switch node stop => (t.label node).data = .switch { target := some stop }
  | .label node name stop continueTo => ∃ j, (t.label node).data = .jump j ∧
      j.label = some name ∧ j.target = some stop ∧ j.continueTarget = continueTo
  | .withBody .. | .guarded .. => True

/-- Whether a scope is open depends on the label of its node. -/
theorem Open.congr {t t' : Tree} {scope : Scope} (h : scope.Open t)
    (hl : t'.label scope.node = t.label scope.node) : scope.Open t' := by
  cases scope with
  | withBody | guarded => trivial
  | loop | switch | label =>
    simp only [node] at hl
    simpa only [Open, hl] using h

end Scope

/-- Nodes without children, side by side. -/
def Forest.leaves : List (NodeId × Node) → Forest
  | [] => .nil
  | (id, l) :: rest => .cons id l .nil (leaves rest)

/-! ## What a forest says to lowering -/

/-- The continue target of a loop. -/
def Node.continueTarget? (n : Node) : Option NodeId := n.jump?.bind (·.continueTarget)

namespace Forest

/-- The siblings with a given kind, as labels. -/
def rootsOf (kind : Token) : Forest → List Node
  | .nil => []
  | .cons _ l _ rest => if l.kind = kind then l :: rest.rootsOf kind else rest.rootsOf kind

/-- The roots of a kind. -/
theorem mem_rootsOf_cons {kind : Token} {n : Node} {rest : Forest} :
    n ∈ (Forest.cons id l kids rest).rootsOf kind ↔
      l.kind = kind ∧ n = l ∨ n ∈ rest.rootsOf kind := by
  rw [rootsOf]
  split <;> simp_all

/-- Where `continue` goes if the statement has a label: the statement is a loop, or the block around
an enumeration of keys, with a loop in it. -/
def continueOf (l : Node) (kids : Forest) : Option NodeId :=
  match l.kind with
  | .loop => l.continueTarget?
  | .block | .localBlock =>
    if kids.rootsOf .enumInit = [] then none
    else (kids.rootsOf .loop).head?.bind Node.continueTarget?
  | _ => none

/-- The second of the siblings. -/
def second? : Forest → Option Node
  | .cons _ _ _ (.cons _ l _ _) => some l
  | _ => none

/-- The class of a call that can see its caller's scope, told by what is below the call. -/
def specialCall? : Forest → Option SpecialCall
  | .nil => none
  | .cons _ l kids _ =>
    match l.kind with
    | .name => l.string?.bind SpecialCall.ofName?
    | .getProp =>
      (kids.second?.filter (·.kind = .string)).bind fun property =>
        property.string?.bind SpecialCall.ofMethod?
    | _ => none

/-- The first of the siblings is a name that is bound. -/
def bindsName : Forest → Bool
  | .cons _ l _ _ => l.kind = .bindName
  | .nil => false

/-- The name of the property that an access reads, told by what is below the access. -/
def propertyName (kids : Forest) : String := (kids.second?.bind Node.string?).getD ""

end Forest

/-- Kinds of nodes that lowering leaves in their places, over what becomes of their children: those
that the grammar is silent about, and accesses to names and properties. -/
def Token.isKept (kind : Token) : Bool :=
  kind.isPlain || kind = .name || kind = .setName || kind = .bindName || kind = .delProp

theorem Token.isKept_of_isPlain {kind : Token} (h : kind.isPlain) : kind.isKept := by
  simp [isKept, h]

/-- What lowering makes of a node that keeps its place and its children. -/
def Node.lowered (inFunction : Bool) (l : Node) (kids : Forest) : Node :=
  match l.kind with
  | .exprStmt => l.withKind (if inFunction then .pop else .popv)
  | .call | .new =>
    match kids.specialCall? with
    | some special => l.withAttr .specialCall (.int special.code)
    | none => l
  | _ => l

/-- Only expression statements change their kind. -/
theorem Node.kind_lowered (inFunction : Bool) (l : Node) (kids : Forest) :
    (l.lowered inFunction kids).kind =
      if l.kind = .exprStmt then (if inFunction then .pop else .popv) else l.kind := by
  unfold lowered
  split
  · next hkind => rw [if_pos hkind]; rfl
  · next hkind => rw [if_neg (by simp [hkind])]; cases kids.specialCall? <;> rfl
  · next hkind => rw [if_neg (by simp [hkind])]; cases kids.specialCall? <;> rfl
  · next hkind _ _ => rw [if_neg hkind]

/-- So a node of another kind than these in the end is of the kind that it was. -/
theorem Node.kind_of_lowered {inFunction : Bool} {k : Token}
    (h : (l.lowered inFunction kids).kind = k) (hpop : k ≠ .pop) (hpopv : k ≠ .popv) :
    l.kind = k := by
  rw [kind_lowered] at h
  split at h
  · split at h
    exacts [absurd h.symm hpop, absurd h.symm hpopv]
  · exact h

/-! ## Events -/

/-- What lowering notes on its way through a body. -/
inductive Event where
  /-- A complaint about a line. -/
  | complaint (line : Option Nat) (error : LoweringError)
  /-- The body needs an activation record. -/
  | activation
  /-- A try, which needs a temporary. -/
  | attempt
  /-- A finally block. -/
  | guard
  /-- The calls of another body check their receiver. -/
  | receiver (body : BodyId)
  /-- The function of another body, which is lowered if it has not been taken up. -/
  | function (body : BodyId)
  /-- A clause of a switch. -/
  | clause (switch : NodeId) (isCase : Bool) (node : NodeId)
deriving DecidableEq, Repr

/-- A finally block has been noted, before some events or among them. -/
def met (past : Bool) (events : List Event) : Bool := past || events.contains .guard

@[simp] theorem met_nil (past : Bool) : met past [] = past := by simp [met]

@[simp] theorem met_append (past : Bool) (events events' : List Event) :
    met past (events ++ events') = met (met past events) events' := by
  simp [met, Bool.or_assoc, Bool.decide_or]

@[simp] theorem met_true (events : List Event) : met true events = true := by simp [met]

/-- A clause is recorded with the innermost switch around it. -/
def clauseEvents (scopes : List Scope) (isCase : Bool) (node : NodeId) : List Event :=
  match scopes.find? (·.kind = .switch) with
  | some scope => [.clause scope.node isCase node]
  | none => []

/-- What lowering knows when it takes up a body. -/
structure Site where
  config : Config
  /-- The targets of the body and their depths. -/
  marks : NodeId → Nat → Prop
  body : BodyId
  inFunction : Bool
  /-- Nodes from here on are made by lowering. -/
  first : Nat

namespace Site

variable (site : Site)

/-- The node is made by lowering. -/
def IsNew (q : NodeId) : Prop := site.first ≤ q.index

/-- A script never needs an activation record. -/
def activations : List Event := if site.inFunction then [.activation] else []

/-- A call that can see its caller's scope asks for an activation record. -/
def callEvents (kids : Forest) : List Event :=
  if kids.specialCall?.isSome then site.activations else []

/-- A property access may show the activation record. -/
def accessEvents (l : Node) (kids : Forest) : List Event :=
  if l.kind = .getProp ∧ (site.config.isActivationName kids.propertyName ||
    (kids.propertyName == "length" && site.config.languageVersion = .v12)) then site.activations
  else []

/-- So may a variable with one of its names, if it would be accessed by its slot. -/
def nameEvents (scopes : List Scope) (name : String) : List Event :=
  if site.inFunction ∧ (∀ scope ∈ scopes, scope.kind ≠ .withBody) ∧
    site.config.isActivationName name then [.activation] else []

/-- What is noted at a node that keeps its place and its children. -/
def plainEvents (scopes : List Scope) (id : NodeId) (l : Node) (kids : Forest) : List Event :=
  match l.kind with
  | .call | .new => site.callEvents kids
  | .switchCase => clauseEvents scopes true id
  | .switchDefault => clauseEvents scopes false id
  | .getProp => site.accessEvents l kids
  | .name | .bindName => site.nameEvents scopes (l.string?.getD "")
  | _ => []

/-- A function inside a function sees it. -/
def functionEvents (body : BodyId) : List Event :=
  if body = site.body then []
  else if site.inFunction then [.activation, .receiver body, .function body]
  else [.function body]

end Site

/-! ## Lowered forests -/

section

variable (site : Site)

/-- Labels in front of a statement open their scopes, but those whose name is taken. -/
inductive LabelsOpen (stop : NodeId) (continueTo : Option NodeId) :
    List Scope → List LabelNode → List Scope → Forest → List Event → Prop
  | nil {scopes} : LabelsOpen stop continueTo scopes [] scopes .nil []
  | repeated {scopes a rest inner front events} (hname : scopes.any (Scope.isLabelled a.name))
      (hrest : LabelsOpen stop continueTo scopes rest inner front events) :
      LabelsOpen stop continueTo scopes (a :: rest) inner (.cons a.id a.node .nil front)
        (.complaint a.node.line (.duplicateLabel a.name) :: events)
  | fresh {scopes a rest inner front j events} (hname : ¬ scopes.any (Scope.isLabelled a.name))
      (hdata : a.node.data = .jump j)
      (hrest : LabelsOpen stop continueTo (.label a.id a.name stop continueTo :: scopes) rest inner
        front events) :
      LabelsOpen stop continueTo scopes (a :: rest) inner (.cons a.id
        (a.node.withJump
          { j with label := some a.name, target := some stop, continueTarget := continueTo })
        .nil front) events

/-- Forests and what lowering makes of them, inside scopes and at a depth of with scopes. -/
inductive Lowered : List Scope → Form → Nat → Bool → Forest → Forest → List Event → Prop
  | plain {E w past id l kids h events} (hkind : l.kind.isKept)
      (hjump : l.kind.isBranch → ∃ target, l.target? = some target ∧ site.marks target w)
      (hdelete : l.kind = .delProp → ¬ kids.bindsName ∧ ¬ h.bindsName)
      (hkids : Lowered E .list w past kids h events) :
      Lowered E .one w past (.tree id l kids) (.tree id (l.lowered site.inFunction kids) h)
        (site.plainEvents E id l kids ++ events)
  | deleteName {E w past id l bind lb key lk} (hkind : l.kind = .delProp)
      (hbind : lb.kind = .bindName) (hkey : lk.kind = .string) :
      Lowered E .one w past (.tree id l (.cons bind lb .nil (.leaf key lk)))
        (.tree id l (.cons bind lb .nil (.leaf key lk))) (site.nameEvents E (lb.string?.getD ""))
  | function {E w past id l body} (hkind : l.kind = .function) (hdata : l.data = .function body) :
      Lowered E .one w past (.leaf id l) (.leaf id l) (site.functionEvents body)
  | var {E w past id l kids block h events} (hkind : l.kind = .var) (hnew : site.IsNew block)
      (hline : ∀ n ∈ h.rootsOf .pop, n.line = l.line)
      (hdecls : Lowered E .decls w past kids h events) :
      Lowered E .one w past (.tree id l kids) (.tree block (.ofKindAt .block l.line) h) events
  | ret {E w past id l steps} (hkind : l.kind = .ret)
      (hpast : past = false → ∀ scope ∈ E, scope.kind ≠ .tryStmt)
      (hsteps : steps.map Prod.snd = if past then E.filterMap Scope.step? else [])
      (hnew : ∀ step ∈ steps, site.IsNew step.1) :
      Lowered E .one w past (.leaf id l) (.leaves steps ++ .leaf id l) []
  | retValue {E w past id l value hv events} (hkind : l.kind = .ret)
      (hpast : past = false → ∀ scope ∈ E, scope.kind ≠ .tryStmt)
      (hsteps : past = false ∨ E.filterMap Scope.step? = [])
      (hvalue : Lowered E .one w past value hv events) :
      Lowered E .one w past (.tree id l value) (.tree id l hv) events
  | retLater {E w past id l value hv block store steps back events} (hkind : l.kind = .ret)
      (hpast : past = true) (hsome : E.filterMap Scope.step? ≠ [])
      (hvalue : Lowered E .one w past value hv events)
      (hsteps : steps.map Prod.snd = E.filterMap Scope.step?)
      (hnew : ∀ step ∈ steps, site.IsNew step.1) (hblock : site.IsNew block)
      (hstore : site.IsNew store) (hback : site.IsNew back) :
      Lowered E .one w past (.tree id l value) (.tree block (.ofKindAt .block l.line)
        (.cons store ((Node.ofKind .popv).withLine l.line) hv
          (.leaves steps ++ .leaf back (.ofKindAt .returnPopv l.line)))) events
  | jump {E inner dest outer w past id l j name label target steps}
      (hkind : l.kind = .breakStmt ∨ l.kind = .continueStmt) (hdata : l.data = .jump j)
      (hname : JumpLabel name label) (hscopes : E = inner ++ dest :: outer)
      (hinner : ∀ scope ∈ inner, ¬ scope.isDestination (l.kind = .breakStmt) label)
      (hdest : dest.isDestination (l.kind = .breakStmt) label)
      (htarget : dest.target? (l.kind = .breakStmt) = some target)
      (hsteps : steps.map Prod.snd = inner.filterMap Scope.step?)
      (hnew : ∀ step ∈ steps, site.IsNew step.1) :
      Lowered E .one w past (.tree id l name)
        (.leaves steps ++ .leaf id ((l.withKind .goto).withJump
        { j with target := some target })) []
  | lost {E w past id l j name label} (hkind : l.kind = .breakStmt ∨ l.kind = .continueStmt)
      (hdata : l.data = .jump j) (hname : JumpLabel name label)
      (hnone : (E.find? (Scope.isDestination (l.kind = .breakStmt) label)).bind
      (Scope.target? (l.kind = .breakStmt)) = none) :
      Lowered E .one w past (.tree id l name) (.leaf id (l.withKind .nop))
        [.complaint l.line (Lowering.jumpError (l.kind = .breakStmt) label
          (E.find? (Scope.isDestination (l.kind = .breakStmt) label)).isSome)]
  | switch {E w past id l data selector clauses hs hc stop events events'}
      (hkind : l.kind = .switch) (hdata : l.data = .switch data) (hnew : site.IsNew stop)
      (hselector : Lowered (.switch id stop :: E) .one w past selector hs events)
      (hclauses : Lowered (.switch id stop :: E) .list w (met past events) clauses hc events') :
      Lowered E .one w past (.tree id l (selector ++ clauses))
        (.cons id (l.withStop (some stop)) hs
          (hc ++ .leaf stop (.ofKind .target))) (events ++ events')
  | loop {E w past id l j body hb stop ls continueTo events} (hkind : l.kind = .loop)
      (hdata : l.data = .jump j) (htarget : j.target = some stop)
      (hcontinue : j.continueTarget = some continueTo) (hmark : site.marks continueTo w)
      (hbody : Lowered (.loop id stop continueTo :: E) .list w past body hb events)
      (hstop : ls.kind = .target) (hstopMark : site.marks stop w) :
      Lowered E .one w past (.tree id l (body ++ .leaf stop ls)) (.tree id l (hb ++ .leaf stop ls))
        events
  | tryCatch {E w past id l j kids h events} (hkind : l.kind = .tryStmt) (hdata : l.data = .jump j)
      (hfinally : j.finallyTarget = none) (hkids : Lowered E .list w past kids h events) :
      Lowered E .one w past (.tree id l kids) (.tree id l h) (.attempt :: events)
  | tryFinally {E w past id l j guarded hg entry le final hf back lb stop ls events events'}
      (hkind : l.kind = .tryStmt) (hdata : l.data = .jump j)
      (hfinally : j.finallyTarget = some entry)
      (hguarded : Lowered (.guarded id entry :: E) .list w true guarded hg events)
      (hentry : le.kind = .target) (hentryMark : site.marks entry w)
      (hfinal : Lowered E .one w true final hf events') (hback : lb.kind = .retsub)
      (hstop : ls.kind = .target) (hstopMark : site.marks stop w) :
      Lowered E .one w past
        (.tree id l (guarded ++ .cons entry le .nil
          (final ++ .cons back lb .nil (.leaf stop ls))))
        (.tree id l (hg ++ .cons entry le .nil (hf ++ .cons back lb .nil (.leaf stop ls))))
        (.guard :: .attempt :: (events ++ events'))
  | nil {E w past} : Lowered E .list w past .nil .nil []
  | target {E w past id l rest hr events} (hkind : l.kind = .target) (hmark : site.marks id w)
      (hrest : Lowered E .list w past rest hr events) :
      Lowered E .list w past (.cons id l .nil rest) (.cons id l .nil hr) events
  | labelled {E inner w past labels id l kids rest front h stop hr complaints events events'}
      (hopen : LabelsOpen stop (kids.continueOf l) E labels inner front complaints)
      (hnew : inner ≠ E → site.IsNew stop)
      (hone : Lowered inner .one w past (.tree id l kids) h events)
      (hrest : Lowered E .list w (met past events) rest hr events') :
      Lowered E .list w past (labelForest labels ++ .cons id l kids rest)
        (front ++ (h ++ ((if inner = E then .nil else .leaf stop (.ofKind .target)) ++ hr)))
        (complaints ++ (events ++ events'))
  | withScope
      {E w past enter le object ho inner li body hb leave lv rest hr events events' events''}
      (henter : le.kind = .enterWith) (hobject : Lowered E .list w past object ho events)
      (hinner : li.kind = .withBody)
      (hbody : Lowered (.withBody inner leave :: E) .list (w + 1) (met past events) body hb events')
      (hleave : lv.kind = .leaveWith)
      (hrest : Lowered E .list w (met (met past events) events') rest hr events'') :
      Lowered E .list w past
        (.cons enter le object (.cons inner li body (.cons leave lv .nil rest)))
        (.cons enter le ho (.cons inner li hb (.cons leave lv .nil hr)))
        (events ++ (site.activations ++ (events' ++ events'')))
  | exit {E w past leave lv skip lg target rest hr events} (hleave : lv.kind = .leaveWith)
      (hskip : lg.kind = .goto) (htarget : lg.target? = some target) (hmark : site.marks target w)
      (hrest : Lowered E .list (w + 1) past rest hr events) :
      Lowered E .list (w + 1) past (.cons leave lv .nil (.cons skip lg .nil rest))
        (.cons leave lv .nil (.cons skip lg .nil hr)) events
  | declNil {E w past} : Lowered E .decls w past .nil .nil []
  | decl {E w past id l rest hr events} (hkind : l.kind = .name)
      (hrest : Lowered E .decls w past rest hr events) :
      Lowered E .decls w past (.cons id l .nil rest) hr events
  | declInit {E w past id l init hi rest hr pop assign line events events'} (hkind : l.kind = .name)
      (hpop : site.IsNew pop) (hassign : site.IsNew assign)
      (hinit : Lowered E .one w past init hi events)
      (hrest : Lowered E .decls w (met past events) rest hr events') :
      Lowered E .decls w past (.cons id l init rest)
        (.cons pop ((Node.ofKind .pop).withLine line)
          (.tree assign (.ofKind .setName) (.cons id (l.withKind .bindName) .nil hi)) hr)
        (site.nameEvents E (l.string?.getD "") ++ (events ++ events'))

end

/-- Labels only add scopes inside those around them, at most one each. -/
theorem LabelsOpen.exists_append {scopes inner : List Scope} {events : List Event}
    (h : LabelsOpen stop continueTo scopes labels inner front events) :
    ∃ opened, inner = opened ++ scopes ∧ opened.length ≤ labels.length := by
  induction h with
  | nil => exact ⟨[], rfl, Nat.le_refl _⟩
  | repeated _ _ ih =>
    obtain ⟨opened, rfl, hlen⟩ := ih
    exact ⟨opened, rfl, Nat.le_succ_of_le hlen⟩
  | @fresh scopes a _ _ _ _ _ _ _ _ ih =>
    obtain ⟨opened, rfl, hlen⟩ := ih
    exact ⟨opened ++ [.label a.id a.name stop continueTo], by simp, by simpa using hlen⟩

/-- A label that is opened is inside more than what is around it. -/
theorem LabelsOpen.ne_tail {scope : Scope} {scopes inner : List Scope} {events : List Event}
    (h : LabelsOpen stop continueTo (scope :: scopes) labels inner front events) :
    inner ≠ scopes := by
  obtain ⟨opened, rfl, -⟩ := h.exists_append
  intro heq
  have hlen := congrArg List.length heq
  simp only [List.length_append, List.length_cons] at hlen
  omega

/-! ## Complaints and the flag -/

namespace Site

variable (site : Site) (past : Bool)

@[simp] theorem met_activations : met past site.activations = past := by
  simp only [met, activations]
  split <;> simp

@[simp] theorem met_clauseEvents (scopes : List Scope) (isCase : Bool) (node : NodeId) :
    met past (clauseEvents scopes isCase node) = past := by
  rw [clauseEvents]
  split <;> simp [met]

@[simp] theorem met_callEvents (kids : Forest) : met past (site.callEvents kids) = past := by
  rw [callEvents]
  split <;> simp

@[simp] theorem met_accessEvents (l : Node) (kids : Forest) :
    met past (site.accessEvents l kids) = past := by
  rw [accessEvents]
  split <;> simp

@[simp] theorem met_nameEvents (scopes : List Scope) (name : String) :
    met past (site.nameEvents scopes name) = past := by
  simp only [met, nameEvents]
  split <;> simp

@[simp] theorem met_plainEvents (scopes : List Scope) (id : NodeId) (l : Node) (kids : Forest) :
    met past (site.plainEvents scopes id l kids) = past := by
  unfold plainEvents
  split <;> simp

end Site

namespace Lowered

variable {site : Site} {E : List Scope} {w : Nat} {past : Bool} {a b : NodeId} {la lb : Node}
  {ka kb ha hb : Forest} {events events' : List Event}

/-- A name that is read or bound. -/
theorem name (hkind : la.kind = .name ∨ la.kind = .bindName) :
    Lowered site E .one w past (.leaf a la) (.leaf a la)
    (site.nameEvents E (la.string?.getD "")) := by
  rcases hkind with hk | hk <;>
  · have hlow : Lowered site E .one w past (.leaf a la) _ _ :=
      .plain (by simp [hk, Token.isKept]) (by simp [hk, Token.isBranch]) (by simp [hk]) .nil
    simpa [Site.plainEvents, Node.lowered, hk] using hlow

/-- Two nodes, one lowered after the other. -/
theorem pair (hfirst : Lowered site E .one w past (.tree a la ka) ha events)
    (hsecond : Lowered site E .one w (met past events) (.tree b lb kb) hb events') :
    Lowered site E .list w past (.cons a la ka (.tree b lb kb)) (ha ++ hb) (events ++ events') := by
  have hnew : E ≠ E → site.IsNew b := fun h => absurd rfl h
  have hlist := Lowered.labelled .nil hnew hfirst (.labelled .nil hnew hsecond .nil)
  simpa [labelForest] using hlist

/-- Two nodes below one that accesses a variable or a property. -/
theorem access (hkind : l.kind = .setName ∨ l.kind = .delProp)
    (hdelete : l.kind = .delProp → la.kind ≠ .bindName ∧ ¬ (ha ++ hb).bindsName)
    (hfirst : Lowered site E .one w past (.tree a la ka) ha events)
    (hsecond : Lowered site E .one w (met past events) (.tree b lb kb) hb events') :
    Lowered site E .one w past (.tree id l (.cons a la ka (.tree b lb kb))) (.tree id l (ha ++ hb))
      (events ++ events') := by
  have hdelete' : l.kind = .delProp → ¬ (Forest.cons a la ka (.tree b lb kb)).bindsName ∧
      ¬ (ha ++ hb).bindsName := by simpa [Forest.bindsName] using hdelete
  rcases hkind with hk | hk <;>
  · have hlow : Lowered site E .one w past (.tree id l _) _ _ :=
      .plain (by simp [hk, Token.isKept]) (by simp [hk, Token.isBranch]) hdelete'
      (hfirst.pair hsecond)
    simpa [Site.plainEvents, Node.lowered, hk] using hlow

end Lowered

/-- Opening labels starts no try. -/
theorem LabelsOpen.met_eq {scopes inner : List Scope} {events : List Event}
    (h : LabelsOpen stop continueTo scopes labels inner front events) (past : Bool) :
    met past events = past := by
  induction h with
  | nil => simp
  | repeated _ _ ih => simpa [met] using ih
  | fresh _ _ _ ih => exact ih

end ScriptEngine
