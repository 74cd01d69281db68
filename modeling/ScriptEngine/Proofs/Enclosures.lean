import ScriptEngine.Proofs.KeptNodes

/-!
# What is around a jump

`Forest.mentions` reads a forest as it is built, before it is lowered, and lists the labels, jumps
and functions in it, in the order of the text. A label or a jump comes with the statements around
it, innermost first. From these alone it is clear whether the name of a label is taken and whether a
jump has somewhere to go, so that the list says which complaints there must be.
-/

namespace ScriptEngine

open Forest Node

variable {id : NodeId} {l : Node} {kids f g : Forest} {label : Option String}
  {outer : List Enclosure} {limits : Limits} {labels : List LabelNode}

/-- A statement around a node. -/
inductive Enclosure where
  | loop (node : NodeId) (stop continueTo : Option NodeId)
  | switch (node : NodeId)
  | withBody (node : NodeId)
  /-- A label, with the continue target of the statement that it stands in front of. -/
  | label (node : NodeId) (name : String) (continueTo : Option NodeId)
  /-- The part of a try that its finally block guards. -/
  | guarded (node entry : NodeId)
deriving DecidableEq, Repr

namespace Enclosure

/-- The statement is labelled with a name. -/
def isLabelled (name : String) : Enclosure → Bool
  | .label _ n _ => n = name
  | _ => false

/-- A jump can go to the statement: an unlabelled one to a loop, and a break also to a switch. -/
def isDestination (isBreak : Bool) : Option String → Enclosure → Bool
  | none, .loop .. => true
  | none, .switch _ => isBreak
  | some name, enclosure => enclosure.isLabelled name
  | _, _ => false

/-- `continue` can go to the statement. -/
def continues : Enclosure → Bool
  | .loop .. => true
  | .label _ _ continueTo => continueTo.isSome
  | .switch _ | .withBody _ | .guarded .. => false

end Enclosure

/-- What is wrong with a jump, given what is around it. -/
def jumpError? (isBreak : Bool) (label : Option String) (around : List Enclosure) :
    Option LoweringError :=
  match around.find? (Enclosure.isDestination isBreak label), label with
  | none, none => some (if isBreak then .breakOutside else .continueOutside)
  | none, some name => some (.undefinedLabel name)
  | some destination, _ =>
    if isBreak || destination.continues then none else some .continueNonLoop

/-- What is wrong with a label, given what is around it. -/
def labelError? (name : String) (around : List Enclosure) : Option LoweringError :=
  if around.any (Enclosure.isLabelled name) then some (.duplicateLabel name) else none

/-- What a label stands in front of: more labels, and then a statement. -/
structure Labelled where
  /-- The labels that follow. -/
  stack : List NodeId := []
  /-- The statement, with all that is below it. -/
  nodes : List NodeId := []
  /-- Where `continue` goes. -/
  continueTo : Option NodeId := none
deriving DecidableEq, Repr

/-- A place in a forest that lowering has to look at, with what is around it. -/
inductive Mention where
  | label (node : NodeId) (line : Option Nat) (name : String) (around : List Enclosure)
      (before : Labelled)
  | jump (node : NodeId) (line : Option Nat) (isBreak : Bool) (label : Option String)
      (around : List Enclosure)
  | function (body : BodyId)
deriving DecidableEq, Repr

/-- What lowering has to note of a place. -/
def Mention.event? : Mention → Option Event
  | .label _ line name around _ => (labelError? name around).map (.complaint line)
  | .jump _ line isBreak name around => (jumpError? isBreak name around).map (.complaint line)
  | .function body => some (.function body)

namespace Forest

/-- The text of the first sibling: the name of a label, or of the label of a jump. -/
def headText? : Forest → Option String
  | .nil => none
  | .cons _ l _ _ => some (l.string?.getD "")

/-- The labels in front of the first statement, and the statement. -/
def labelled : Forest → Labelled
  | .nil => {}
  | .cons id l kids rest =>
    if l.kind = .label then { rest.labelled with stack := id :: rest.labelled.stack }
    else { nodes := id :: kids.ids, continueTo := kids.continueOf l }

end Forest

namespace Node

/-- The place that a node is itself, unless it is a label. -/
def mention? (id : NodeId) (l : Node) (kids : Forest) (around : List Enclosure) : Option Mention :=
  match l.kind, l.data with
  | .breakStmt, _ => some (.jump id l.line true kids.headText? around)
  | .continueStmt, _ => some (.jump id l.line false kids.headText? around)
  | .function, .function body => some (.function body)
  | _, _ => none

/-- What a node puts around its children. -/
def encloses (id : NodeId) (l : Node) : List Enclosure :=
  match l.kind with
  | .loop => [.loop id l.target? l.continueTarget?]
  | .switch => [.switch id]
  | .withBody => [.withBody id]
  | .tryStmt => l.finallyTarget?.toList.map (.guarded id)
  | _ => []

end Node

namespace Forest

/-- The labels, jumps and functions of a forest, each before those below it and after it. `labels`
are the labels in front of the first sibling and `outer` is what is around all siblings. From a
later sibling on, something else may be around them. -/
def mentions : Forest → (labels outer : List Enclosure) → Option (NodeId × List Enclosure) →
    List Mention
  | .nil, _, _, _ => []
  | .cons id l kids rest, labels, outer, later =>
    let outer := (later.filter (·.1 = id)).elim outer Prod.snd
    let later := later.filter (·.1 ≠ id)
    let around := labels ++ outer
    if l.kind = .label then
      let name := kids.headText?.getD ""
      .label id l.line name around rest.labelled ::
        rest.mentions
          (if (labelError? name around).isSome then labels
            else .label id name rest.labelled.continueTo :: labels) outer later
    else
      -- A finally block does not guard itself.
      (l.mention? id kids around).toList ++
        (kids.mentions [] (l.encloses id ++ around) (l.finallyTarget?.map (·, around)) ++
          rest.mentions [] outer later)

variable {rest : Forest} {labels outer : List Enclosure}
  {later : Option (NodeId × List Enclosure)}

private theorem mentions_cons (hlater : ∀ e ∈ later, e.1 ≠ id) :
    (Forest.cons id l kids rest).mentions labels outer later =
      if l.kind = .label then
        .label id l.line (kids.headText?.getD "") (labels ++ outer) rest.labelled ::
          rest.mentions
            (if (labelError? (kids.headText?.getD "") (labels ++ outer)).isSome then labels
              else .label id (kids.headText?.getD "") rest.labelled.continueTo :: labels)
            outer later
      else
        (l.mention? id kids (labels ++ outer)).toList ++
          (kids.mentions [] (l.encloses id ++ (labels ++ outer))
              (l.finallyTarget?.map (·, labels ++ outer)) ++
            rest.mentions [] outer later) := by
  cases later with
  | none => rfl
  | some e =>
    have hne : e.1 ≠ id := hlater e rfl
    simp [mentions, Option.filter, hne]

/-- From a sibling on, something else may be around. -/
theorem mentions_later {outer' : List Enclosure} :
    (Forest.cons id l kids rest).mentions labels outer (some (id, outer')) =
      (Forest.cons id l kids rest).mentions labels outer' none := by
  have hsame : (some (id, outer')).filter (fun e => decide (e.1 = id)) =
      some (id, outer') := by simp
  have hnone : (some (id, outer')).filter (fun e => decide (e.1 ≠ id)) = none := by simp
  unfold mentions
  dsimp only
  rw [hsame, hnone]
  rfl

/-- A label is mentioned, and stands around what is behind it if it is not a repeated one. -/
theorem mentions_label (hkind : l.kind = .label) (hlater : ∀ e ∈ later, e.1 ≠ id) :
    (Forest.cons id l kids rest).mentions labels outer later =
      .label id l.line (kids.headText?.getD "") (labels ++ outer) rest.labelled ::
        rest.mentions
          (if (labelError? (kids.headText?.getD "") (labels ++ outer)).isSome then labels
            else .label id (kids.headText?.getD "") rest.labelled.continueTo :: labels)
            outer later := by
  rw [mentions_cons hlater, if_pos hkind]

/-- A node without a label, and what is behind it. -/
theorem mentions_node (hkind : l.kind ≠ .label) (hlater : ∀ e ∈ later, e.1 ≠ id) :
    (Forest.cons id l kids rest).mentions labels outer later =
      (Forest.tree id l kids).mentions [] (labels ++ outer) none ++
      rest.mentions [] outer later := by
  rw [mentions_cons hlater, if_neg hkind, mentions_cons (by simp), if_neg hkind]
  simp [mentions]

/-- A node encloses what is below it, and behind a finally target only what is around the node. -/
theorem mentions_tree (hkind : l.kind ≠ .label) :
    (Forest.tree id l kids).mentions [] outer none =
      (l.mention? id kids outer).toList ++
        kids.mentions [] (l.encloses id ++ outer) (l.finallyTarget?.map (·, outer)) := by
  rw [mentions_cons (by simp), if_neg hkind]
  simp [mentions]

/-- The last sibling is no label: every label has its statement. -/
def isClosed : Forest → Bool
  | .nil => true
  | .cons _ l _ rest => rest.isClosed && (l.kind ≠ .label || rest ≠ .nil)

@[simp] theorem isClosed_nil : Forest.nil.isClosed := rfl

private theorem labelled_append (hf : f.isClosed) (hne : f ≠ .nil) (g : Forest) :
    (f ++ g).labelled = f.labelled := by
  induction f with
  | nil => exact absurd rfl hne
  | cons id l kids rest _ ih =>
    simp only [isClosed, Bool.and_eq_true, Bool.or_eq_true, decide_eq_true_eq] at hf
    by_cases hkind : l.kind = .label
    · have hrest : rest ≠ .nil := hf.2.resolve_left (not_not.mpr hkind)
      simp [labelled, hkind, ih hf.1 hrest]
    · simp [labelled, hkind]

/-- Siblings are read one after the other, but labels with their statement. -/
theorem mentions_append (hf : f.isClosed) (g : Forest) (hne : labels = [] ∨ f ≠ .nil)
    (hlater : ∀ e ∈ later, e.1 ∉ f.roots) : (f ++ g).mentions labels outer later =
      f.mentions labels outer none ++ g.mentions [] outer later := by
  induction f generalizing labels with
  | nil =>
    obtain rfl : labels = [] := hne.resolve_right (by simp)
    simp [mentions]
  | cons id l kids rest _ ih =>
    simp only [isClosed, Bool.and_eq_true, Bool.or_eq_true, decide_eq_true_eq] at hf
    have hid : ∀ e ∈ later, e.1 ≠ id := fun e he heq => hlater e he (by simp [heq])
    have hroots : ∀ e ∈ later, e.1 ∉ rest.roots := fun e he hin => hlater e he (by simp [hin])
    rw [cons_append]
    by_cases hkind : l.kind = .label
    · have hrest : rest ≠ .nil := hf.2.resolve_left (not_not.mpr hkind)
      rw [mentions_label hkind hid, mentions_label hkind (by simp),
        labelled_append hf.1 hrest, ih hf.1 (.inr hrest) hroots, List.cons_append]
    · rw [mentions_node hkind hid, ih hf.1 (.inl rfl) hroots, ← List.append_assoc,
        ← mentions_node hkind (by simp)]

end Forest

/-- Kinds of nodes that lowering does not stop at, and that put nothing around their children. -/
def Token.isTransparent : Token → Bool
  | .label | .breakStmt | .continueStmt | .function | .loop | .switch | .withBody | .tryStmt =>
      false
  | _ => true

theorem Token.isTransparent_of_isKept {k : Token} (h : k.isKept) : k.isTransparent := by
  unfold isTransparent
  split <;> first | rfl | simp [isKept, isPlain] at h

/-- Most nodes enclose nothing. -/
theorem Forest.mentions_transparent (hkind : l.kind.isTransparent) :
    (Forest.tree id l kids).mentions [] outer none = kids.mentions [] outer none := by
  have hmention : l.mention? id kids outer = none := by
    unfold mention?
    split <;> first | rfl | simp_all [Token.isTransparent]
  have hencloses : l.encloses id = [] := by
    unfold encloses
    split <;> first | rfl | simp_all [Token.isTransparent]
  rw [mentions_tree (Token.ne_of_test hkind rfl), hmention, hencloses,
    finallyTarget?_eq_none (Token.ne_of_test hkind rfl)]
  rfl

namespace Forest

variable {outer : List Enclosure}

theorem mentions_switch (hkind : l.kind = .switch) :
    (Forest.tree id l kids).mentions [] outer none =
    kids.mentions [] (.switch id :: outer) none := by
  rw [mentions_tree (by simp [hkind]), finallyTarget?_eq_none (by simp [hkind])]
  simp [mention?, encloses, hkind]

theorem mentions_loop (hkind : l.kind = .loop) : (Forest.tree id l kids).mentions [] outer none =
    kids.mentions [] (.loop id l.target? l.continueTarget? :: outer) none := by
  rw [mentions_tree (by simp [hkind]), finallyTarget?_eq_none (by simp [hkind])]
  simp [mention?, encloses, hkind]

theorem mentions_withBody (hkind : l.kind = .withBody) :
    (Forest.tree id l kids).mentions [] outer none =
      kids.mentions [] (.withBody id :: outer) none := by
  rw [mentions_tree (by simp [hkind]), finallyTarget?_eq_none (by simp [hkind])]
  simp [mention?, encloses, hkind]

theorem mentions_try (hkind : l.kind = .tryStmt) : (Forest.tree id l kids).mentions [] outer none =
    kids.mentions [] (l.finallyTarget?.toList.map (.guarded id) ++ outer)
      (l.finallyTarget?.map (·, outer)) := by
  rw [mentions_tree (by simp [hkind])]
  simp [mention?, encloses, hkind]

end Forest

/-- A jump is read with its label. -/
theorem Forest.mentions_jump {name : Forest}
    (hkind : l.kind = .breakStmt ∨ l.kind = .continueStmt) (hname : JumpLabel name label) :
    (Forest.tree id l name).mentions [] outer none =
      [.jump id l.line (l.kind = .breakStmt) label outer] := by
  have htext : name.headText? = label := by cases hname <;> rfl
  have hbelow (outer : List Enclosure) : name.mentions [] outer none = [] := by
    cases hname with
    | none => rfl
    | name hname =>
      rw [mentions_transparent (hname ▸ rfl)]
      rfl
  have hmention : l.mention? id name outer =
      some (.jump id l.line (l.kind = .breakStmt) label outer) := by
    rcases hkind with hk | hk <;> simp [mention?, hk, htext]
  have hlabel : l.kind ≠ .label := by rcases hkind with hk | hk <;> simp [hk]
  have htry : l.kind ≠ .tryStmt := by rcases hkind with hk | hk <;> simp [hk]
  rw [mentions_tree hlabel, hmention, finallyTarget?_eq_none htry, Option.map_none, hbelow]
  rfl

/-! ## Scopes of lowering -/

namespace Scope

/-- What a scope of lowering is in the forest that is lowered. -/
def enclosure : Scope → Enclosure
  | .loop node stop continueTo => .loop node stop continueTo
  | .switch node _ => .switch node
  | .withBody node _ => .withBody node
  | .label node name _ continueTo => .label node name continueTo
  | .guarded node entry => .guarded node entry

@[simp] theorem isLabelled_enclosure (name : String) (scope : Scope) :
    scope.enclosure.isLabelled name = scope.isLabelled name := by
  cases scope <;> rfl

@[simp] theorem isDestination_enclosure (isBreak : Bool) (label : Option String) (scope : Scope) :
    scope.enclosure.isDestination isBreak label = scope.isDestination isBreak label := by
  cases label <;> cases scope <;> rfl

/-- A scope that is a destination has a target, but a label of no loop for `continue`. -/
theorem isSome_target? {isBreak : Bool} {scope : Scope} (h : scope.isDestination isBreak label) :
    (scope.target? isBreak).isSome = (isBreak || scope.enclosure.continues) := by
  cases scope with
  | loop | switch | label => cases label <;> cases isBreak <;> simp_all [isDestination, target?,
      enclosure, Enclosure.continues, isLabelled]
  | withBody | guarded => cases label <;> simp [isDestination, isLabelled] at h

end Scope

/-- Whether a label is repeated can be read off the scopes. -/
theorem labelError?_scopes (name : String) (scopes : List Scope) :
    labelError? name (scopes.map Scope.enclosure) =
      if scopes.any (Scope.isLabelled name) then some (.duplicateLabel name) else none := by
  simp [labelError?, List.any_map, Function.comp_def]

/-- Whether a jump has a destination can be read off the scopes. -/
theorem jumpError?_scopes (isBreak : Bool) (label : Option String) (scopes : List Scope) :
    jumpError? isBreak label (scopes.map Scope.enclosure) =
      if (scopes.find? (Scope.isDestination isBreak label)).bind (Scope.target? isBreak) = none then
        some (Lowering.jumpError isBreak label
          (scopes.find? (Scope.isDestination isBreak label)).isSome)
      else none := by
  have hfind : (scopes.map Scope.enclosure).find? (Enclosure.isDestination isBreak label) =
      (scopes.find? (Scope.isDestination isBreak label)).map Scope.enclosure := by
    simp only [List.find?_map, Function.comp_def, Scope.isDestination_enclosure]
  unfold jumpError?
  rw [hfind]
  cases hscope : scopes.find? (Scope.isDestination isBreak label) with
  | none => cases label <;> simp [Lowering.jumpError]
  | some scope =>
    have hdest := List.find?_some hscope
    have hsome := Scope.isSome_target? hdest
    simp only [Option.map_some, Option.bind_some, ← hsome]
    by_cases htarget : scope.target? isBreak = none
    · rw [if_pos htarget, if_neg (by simp [htarget])]
      -- Only the label of a statement that is no loop is a destination without a target.
      cases label with
      | some name => rfl
      | none => cases scope <;> simp [Scope.isDestination, Scope.target?] at hdest htarget
    · rw [if_neg htarget, if_pos (Option.isSome_iff_ne_none.mpr htarget)]

/-! ## Lowering -/

/-- A complaint, or a function that is found. -/
def Event.isNotice : Event → Bool
  | .complaint .. | .function _ => true
  | .activation | .attempt | .guard | .receiver _ | .clause .. => false

/-- What lowering has to note of some places, inside a body: the function of the body itself is no
news. -/
def noticesOf (body : BodyId) (places : List Mention) : List Event :=
  (places.filterMap Mention.event?).filter (· ≠ .function body)

@[simp] theorem noticesOf_nil (body : BodyId) : noticesOf body [] = [] := rfl

@[simp] theorem noticesOf_append (body : BodyId) (places places' : List Mention) :
    noticesOf body (places ++ places') = noticesOf body places ++ noticesOf body places' := by
  simp [noticesOf]

private theorem noticesOf_cons (body : BodyId) (place : Mention) (places : List Mention) :
    noticesOf body (place :: places) = noticesOf body [place] ++ noticesOf body places :=
  noticesOf_append body [place] places

namespace Site

variable (site : Site)

private theorem isNotice_activations : site.activations.filter Event.isNotice = [] := by
  rw [activations]
  split <;> rfl

private theorem isNotice_callEvents (kids : Forest) :
    (site.callEvents kids).filter Event.isNotice = [] := by
  rw [callEvents]
  split
  · exact site.isNotice_activations
  · rfl

private theorem isNotice_nameEvents (scopes : List Scope) (name : String) :
    (site.nameEvents scopes name).filter Event.isNotice = [] := by
  rw [nameEvents]
  split <;> rfl

private theorem isNotice_plainEvents (scopes : List Scope) (id : NodeId) (l : Node)
    (kids : Forest) : (site.plainEvents scopes id l kids).filter Event.isNotice = [] := by
  have hclause (isCase : Bool) : (clauseEvents scopes isCase id).filter Event.isNotice = [] := by
    rw [clauseEvents]
    split <;> rfl
  unfold plainEvents
  split
  · exact site.isNotice_callEvents kids
  · exact site.isNotice_callEvents kids
  · exact hclause true
  · exact hclause false
  · rw [accessEvents]
    split
    · exact site.isNotice_activations
    · rfl
  · exact site.isNotice_nameEvents scopes _
  · exact site.isNotice_nameEvents scopes _
  · rfl

private theorem isNotice_functionEvents (body : BodyId) :
    (site.functionEvents body).filter Event.isNotice = noticesOf site.body [.function body] := by
  rw [functionEvents]
  by_cases hbody : body = site.body
  · simp [noticesOf, Mention.event?, hbody]
  · rw [if_neg hbody]
    split <;> simp [noticesOf, Mention.event?, hbody, Event.isNotice]

end Site

namespace Lowered

variable {site : Site} {scopes : List Scope} {form : Form} {w : Nat} {past : Bool} {h : Forest}
  {events : List Event}

private theorem isClosed_labelForest (hg : g.isClosed) (hne : g ≠ .nil) :
    (labelForest labels ++ g).isClosed := by
  induction labels with
  | nil => exact hg
  | cons a labels ih =>
    have hsome : labelForest labels ++ g ≠ .nil := by
      cases labels with
      | nil => exact hne
      | cons => simp [labelForest]
    simp [labelForest, isClosed, ih, hsome]

/-- Every label has its statement. -/
theorem isClosed (hlow : Lowered site scopes form w past f h events) : f.isClosed := by
  induction hlow with
  | plain hkind =>
    have hne := Token.ne_of_test hkind (m := .label) rfl
    simp [Forest.isClosed, hne]
  | jump hkind | lost hkind =>
    rcases hkind with hk | hk <;> simp [Forest.isClosed, hk]
  | deleteName hkind | function hkind | var hkind
  | ret hkind | retValue hkind | retLater hkind | switch hkind | loop hkind | tryCatch hkind
  | tryFinally hkind => simp [Forest.isClosed, hkind]
  | nil | declNil => rfl
  | target hkind _ _ ih | decl hkind _ ih | declInit hkind _ _ _ _ _ ih =>
    simp [Forest.isClosed, hkind, ih]
  | labelled _ _ hone _ _ ih =>
    have hkind := Token.ne_of_test hone.single_tree (m := .label) rfl
    exact isClosed_labelForest (by simp [Forest.isClosed, hkind, ih]) (by simp)
  | withScope henter _ hinner _ hleave _ _ _ ih =>
    simp [Forest.isClosed, henter, hinner, hleave, ih]
  | exit hleave hskip _ _ _ ih => simp [Forest.isClosed, hleave, hskip, ih]

/-- Labels in front of a statement are its labels. -/
theorem labelled_labelForest (g : Forest) :
    (labelForest labels ++ g).labelled =
      { g.labelled with stack := labels.map LabelNode.id ++ g.labelled.stack } := by
  induction labels with
  | nil => rfl
  | cons a labels ih =>
    simp [labelForest, Forest.labelled, ih]

/-- The first of some labels opens a scope for what is behind it, unless it is one too many. -/
theorem mentions_labels {a : LabelNode} {pending : List Enclosure} :
    (labelForest (a :: labels) ++ g).mentions pending outer none =
      .label a.id a.node.line a.name (pending ++ outer) (labelForest labels ++ g).labelled ::
        (labelForest labels ++ g).mentions (if (labelError? a.name (pending ++ outer)).isSome
          then pending
          else .label a.id a.name (labelForest labels ++ g).labelled.continueTo :: pending)
          outer none := by
  rw [labelForest, cons_append, mentions_label a.kind_eq (by simp)]
  rfl

/-- Labels are read in the scopes that are open, and those that are not taken are around their
statement. -/
theorem mentions_labelForest {stop : NodeId} {continueTo : Option NodeId} {E inner : List Scope}
    {front : Forest} {complaints : List Event} {pending : List Enclosure}
    (hopen : LabelsOpen stop continueTo E labels inner front complaints)
    (hg : g.labelled.continueTo = continueTo) (hE : pending ++ outer = E.map Scope.enclosure) :
    ∃ pending' places, pending' ++ outer = inner.map Scope.enclosure ∧
      (labelForest labels ++ g).mentions pending outer none =
        places ++ g.mentions pending' outer none ∧
      ∀ body, noticesOf body places = complaints.filter Event.isNotice := by
  induction hopen generalizing pending with
  | nil => exact ⟨pending, [], hE, rfl, fun _ => rfl⟩
  | @repeated E a labels inner front events hname _ ih =>
    have herror : labelError? a.name (pending ++ outer) = some (.duplicateLabel a.name) := by
      rw [hE, labelError?_scopes, if_pos hname]
    obtain ⟨pending', places, hinner, hplaces, hnotices⟩ := ih hE
    refine ⟨pending', .label a.id a.node.line a.name (pending ++ outer)
      (labelForest labels ++ g).labelled :: places, hinner, ?_, ?_⟩
    · rw [mentions_labels, if_pos (by rw [herror]; rfl), hplaces, List.cons_append]
    · intro body
      have hevent : Mention.event? (.label a.id a.node.line a.name (pending ++ outer)
          (labelForest labels ++ g).labelled) =
          some (.complaint a.node.line (.duplicateLabel a.name)) := by
        rw [Mention.event?, herror, Option.map_some]
      rw [noticesOf_cons, hnotices body]
      simp [noticesOf, hevent, List.filter_cons, Event.isNotice]
  | @fresh E a labels inner front j events hname _ _ ih =>
    have hnone : labelError? a.name (pending ++ outer) = none := by
      rw [hE, labelError?_scopes, if_neg hname]
    have hE' : (.label a.id a.name continueTo :: pending) ++ outer =
        (Scope.label a.id a.name stop continueTo :: E).map Scope.enclosure := by
      rw [List.cons_append, hE]
      rfl
    obtain ⟨pending', places, hinner, hplaces, hnotices⟩ := ih hE'
    refine ⟨pending', .label a.id a.node.line a.name (pending ++ outer)
      (labelForest labels ++ g).labelled :: places, hinner, ?_, ?_⟩
    · have hcontinue : (labelForest labels ++ g).labelled.continueTo = continueTo := by
        rw [labelled_labelForest, hg]
      rw [mentions_labels, if_neg (by rw [hnone]; simp), hcontinue, hplaces, List.cons_append]
    · intro body
      have hevent : Mention.event? (.label a.id a.node.line a.name (pending ++ outer)
          (labelForest labels ++ g).labelled) = none := by
        rw [Mention.event?, hnone, Option.map_none]
      rw [noticesOf_cons, hnotices body]
      simp [noticesOf, hevent]

/-- What lowering complains of, and the functions that it finds, are those mentioned. -/
theorem notices_eq (hlow : Lowered site scopes form w past f h events) (hold : f.Old site.first) :
    events.filter Event.isNotice =
      noticesOf site.body (f.mentions [] (scopes.map Scope.enclosure) none) := by
  induction hlow with
  | plain hkind _ _ _ ih =>
    rw [mentions_transparent (Token.isTransparent_of_isKept hkind), List.filter_append,
      Site.isNotice_plainEvents, ih hold.cons.2.1, List.nil_append]
  | deleteName hkind hbind hkey =>
    rw [mentions_transparent (hkind ▸ rfl), mentions_node (by simp [hbind]) (by simp),
      mentions_transparent (hbind ▸ rfl), mentions_transparent (hkey ▸ rfl),
      Site.isNotice_nameEvents]
    rfl
  | function hkind hdata =>
    rw [mentions_tree (by simp [hkind]), Site.isNotice_functionEvents]
    simp [mention?, hkind, hdata, mentions]
  | var hkind _ _ _ ih | retValue hkind _ _ _ ih | retLater hkind _ _ _ _ _ _ _ _ ih =>
    rw [mentions_transparent (hkind ▸ rfl), ih hold.cons.2.1]
  | ret hkind =>
    rw [mentions_transparent (hkind ▸ rfl)]
    rfl
  | @jump E inner dest outer w past id l j name label target steps hkind _ hname hscopes hinner
      hdest htarget =>
    -- The jump has a destination, so there is nothing to say.
    have hfind : E.find? (Scope.isDestination (l.kind = .breakStmt) label) = some dest := by
      rw [hscopes, List.find?_append, List.find?_eq_none.mpr hinner, Option.none_or,
        List.find?_cons_of_pos hdest]
    have hnone : jumpError? (l.kind = .breakStmt) label (E.map Scope.enclosure) = none := by
      rw [jumpError?_scopes, hfind, if_neg (by simp [htarget])]
    rw [mentions_jump hkind hname]
    simp [noticesOf, Mention.event?, hnone]
  | @lost E w past id l j name label hkind _ hname hnone =>
    have hsome := (jumpError?_scopes (l.kind = .breakStmt) label E).trans (if_pos hnone)
    rw [mentions_jump hkind hname]
    simp [noticesOf, Mention.event?, hsome, Event.isNotice]
  | switch hkind _ _ hselector _ ihs ihc =>
    have hkids := hold.cons.2.1.append
    rw [mentions_switch hkind, mentions_append hselector.isClosed _ (.inl rfl) (by simp),
      noticesOf_append, List.filter_append, ihs hkids.1, ihc hkids.2]
    rfl
  | loop hkind hdata htarget hcontinue _ hbody hstop _ ih =>
    have hkids := hold.cons.2.1.append
    rw [mentions_loop hkind, mentions_append hbody.isClosed _ (.inl rfl) (by simp),
      mentions_transparent (hstop ▸ rfl), ih hkids.1, noticesOf_append]
    simp [Scope.enclosure, target?, continueTarget?, jump?, hdata, htarget, hcontinue,
      mentions]
  | tryCatch hkind hdata hfinally _ ih =>
    have hnone : Node.finallyTarget? _ = none := (finallyTarget?_eq hkind hdata).trans hfinally
    rw [mentions_try hkind, hnone, List.filter_cons_of_neg (by simp [Event.isNotice]),
      ih hold.cons.2.1]
    rfl
  | tryFinally hkind hdata hfinally hguarded hentry _ hfinal hback hstop _ ihg ihf =>
    have hsome : Node.finallyTarget? _ = some _ :=
      (finallyTarget?_eq hkind hdata).trans hfinally
    have hkids := hold.cons.2.1
    have hnot := hkids.not_mem_roots
    have hthen := hkids.append.2.cons.2.2
    rw [mentions_try hkind, hsome, Option.map_some,
      mentions_append hguarded.isClosed _ (.inl rfl) (by simpa using hnot),
      mentions_later, mentions_node (by simp [hentry]) (by simp),
      mentions_transparent (hentry ▸ rfl),
      mentions_append hfinal.isClosed _ (.inl rfl) (by simp),
      mentions_node (by simp [hback]) (by simp), mentions_transparent (hback ▸ rfl),
      mentions_transparent (hstop ▸ rfl)]
    simp [noticesOf_append, mentions, Event.isNotice, ihg hkids.append.1,
      ihf hthen.append.1, Scope.enclosure]
  | nil | declNil => rfl
  | target hkind _ _ ih =>
    rw [mentions_node (by simp [hkind]) (by simp), mentions_transparent (hkind ▸ rfl),
      ih hold.cons.2.2]
    rfl
  | @labelled E inner w past labels id l kids rest front h stop hr complaints events events'
      hopen _ hone _ iho ihr =>
    have hkind := Token.ne_of_test hone.single_tree (m := .label) rfl
    have hstatement := hold.append.2
    have htarget : (Forest.cons id l kids rest).labelled.continueTo = kids.continueOf l := by
      rw [Forest.labelled, if_neg hkind]
    -- The labels say what they have to say; then comes the statement, inside them.
    obtain ⟨pending, places, hinner, hplaces, hnotices⟩ :=
      mentions_labelForest hopen htarget (List.nil_append _)
    rw [hplaces, mentions_node hkind (by simp), hinner, noticesOf_append, noticesOf_append,
      List.filter_append, List.filter_append, hnotices, iho hstatement.head,
      ihr hstatement.cons.2.2]
  | withScope henter _ hinner _ hleave _ iho ihb ihr =>
    have hbody := hold.cons.2.2
    rw [mentions_node (by simp [henter]) (by simp), mentions_transparent (henter ▸ rfl),
      mentions_node (by simp [hinner]) (by simp), mentions_withBody hinner,
      mentions_node (by simp [hleave]) (by simp), mentions_transparent (hleave ▸ rfl)]
    simp [noticesOf_append, mentions, Scope.enclosure,
      site.isNotice_activations, iho hold.cons.2.1, ihb hbody.cons.2.1,
      ihr hbody.cons.2.2.cons.2.2]
  | exit hleave hskip _ _ _ ih =>
    rw [mentions_node (by simp [hleave]) (by simp), mentions_transparent (hleave ▸ rfl),
      mentions_node (by simp [hskip]) (by simp), mentions_transparent (hskip ▸ rfl),
      ih hold.cons.2.2.cons.2.2]
    rfl
  | decl hkind _ ih =>
    rw [mentions_node (by simp [hkind]) (by simp), mentions_transparent (hkind ▸ rfl),
      ih hold.cons.2.2]
    rfl
  | declInit hkind _ _ _ _ ihi ihr =>
    rw [mentions_node (by simp [hkind]) (by simp), mentions_transparent (hkind ▸ rfl),
      noticesOf_append, List.filter_append, Site.isNotice_nameEvents, List.filter_append,
      ihi hold.cons.2.1, ihr hold.cons.2.2]
    rfl

end Lowered

end ScriptEngine
