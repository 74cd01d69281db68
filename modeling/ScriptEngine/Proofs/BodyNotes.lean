import ScriptEngine.Proofs.KeptNodes

/-!
# What lowering notes of a body

While lowering passes over a body it notes that the body needs an activation record, that calls of
another body check their receiver, and which clauses a switch has. `Forest.notes` reads all this off
the forest as it was built, with no more context than the node above, whether there is a with scope
around, and the innermost switch.
-/

namespace ScriptEngine

open Forest Token Scope List

variable {e : Event} {id : NodeId} {l : Node} {kids f h : Forest} {site : Site} {E : List Scope}
  {form : Form} {events : List Event}

/-! ## Reading -/

/-- What is around a node, as far as it matters for what is noted there. -/
structure Surroundings where
  /-- The kind of the node above. -/
  parent : Token
  /-- There is a with scope around. -/
  inWith : Bool := false
  /-- The innermost switch around. -/
  switch : Option NodeId := none

/-- What is around the children of a node. -/
def Surroundings.below (c : Surroundings) (id : NodeId) (l : Node) : Surroundings where
  parent := l.kind
  inWith := c.inWith || l.kind == .withBody
  switch := if l.kind = .switch then some id else c.switch

/-- A name below a node of this kind is that of a variable which is read or assigned to. It may also
be the name of a label, or declare a variable without a value. -/
def Token.usesName (parent : Token) (kids : Forest) : Bool :=
  match parent with
  | .label | .breakStmt | .continueStmt => false
  | .var => kids ≠ .nil
  | _ => true

/-- What lowering finds out about bodies and switches. -/
def Event.isNote : Event → Bool
  | .activation | .receiver _ | .clause .. => true
  | .complaint .. | .attempt | .guard | .function _ => false

namespace Site

variable (site : Site)

/-- A variable with a name of the activation record needs the record, unless a with scope comes
first. -/
def nameNotes (c : Surroundings) (name : String) : List Event :=
  if site.inFunction ∧ c.inWith = false ∧ site.config.isActivationName name then [.activation]
  else []

/-- A function inside a function sees it, and its calls check their receiver. -/
def functionNotes (body : BodyId) : List Event :=
  if body ≠ site.body ∧ site.inFunction then [.activation, .receiver body] else []

/-- What is noted at a node. -/
def notes (c : Surroundings) (id : NodeId) (l : Node) (kids : Forest) : List Event :=
  match l.kind with
  | .withBody => site.activations
  | .function => l.function?.elim [] site.functionNotes
  | .call | .new => site.callEvents kids
  | .getProp => site.accessEvents l kids
  | .name => if c.parent.usesName kids then site.nameNotes c (l.string?.getD "") else []
  | .bindName => site.nameNotes c (l.string?.getD "")
  | .switchCase => c.switch.toList.map (.clause · true id)
  | .switchDefault => c.switch.toList.map (.clause · false id)
  | _ => []

variable {site} {c : Surroundings}

@[simp] theorem mem_activations :
    e ∈ site.activations ↔ site.inFunction = true ∧ e = .activation := by
  unfold activations
  split <;> simp_all

/-- A name is noted in a function, outside with statements, if records show it. -/
theorem mem_nameNotes {name : String} : e ∈ site.nameNotes c name ↔
    site.inFunction = true ∧ c.inWith = false ∧ site.config.isActivationName name = true ∧
      e = .activation := by
  unfold nameNotes
  split <;> simp_all

/-- A function inside another one needs its record, and checks its receiver. -/
theorem mem_functionNotes {body : BodyId} : e ∈ site.functionNotes body ↔
    site.inFunction = true ∧ body ≠ site.body ∧ (e = .activation ∨ e = .receiver body) := by
  unfold functionNotes
  split
  · simp_all
  · next hnot =>
    simp only [not_mem_nil, false_iff]
    exact fun h => hnot ⟨h.2.1, h.1⟩

/-- Nothing else is noted at a node that is no clause. -/
theorem mem_notes_of_isFree (hkind : l.kind.isFree) (he : e ∈ site.notes c id l kids) :
    e = .activation ∨ ∃ k, e = .receiver k := by
  have hcall {kids : Forest} (he : e ∈ site.callEvents kids) : e = .activation := by
    rw [callEvents] at he
    split at he <;> simp_all
  unfold notes at he
  split at he
  · exact .inl (mem_activations.mp he).2
  · cases hdata : l.function? with
    | none =>
      rw [hdata] at he
      cases he
    | some k =>
      rw [hdata] at he
      exact (mem_functionNotes.mp he).2.2.imp_right fun h => ⟨k, h⟩
  · exact .inl (hcall he)
  · exact .inl (hcall he)
  · rw [accessEvents] at he
    split at he <;> simp_all
  · split at he
    · exact .inl (mem_nameNotes.mp he).2.2.2
    · cases he
  · exact .inl (mem_nameNotes.mp he).2.2.2
  · next hk => simp [hk, isFree, isClause] at hkind
  · next hk => simp [hk, isFree, isClause] at hkind
  · cases he

end Site

/-- What is noted in a forest, at each node before its children and its later siblings. -/
def Forest.notes (site : Site) : Surroundings → Forest → List Event
  | _, .nil => []
  | c, .cons id l kids rest =>
    site.notes c id l kids ++ (kids.notes site (c.below id l) ++ rest.notes site c)

/-- Nothing is noted at nodes of this kind. -/
def Token.isUnnoted : Token → Bool
  | .withBody | .function | .call | .new | .getProp | .name | .bindName | .switchCase
  | .switchDefault => false
  | _ => true

namespace Forest

variable {c : Surroundings} {g rest : Forest}

@[simp] theorem notes_nil : Forest.nil.notes site c = [] := rfl

theorem notes_cons : (Forest.cons id l kids rest).notes site c =
    site.notes c id l kids ++ (kids.notes site (c.below id l) ++ rest.notes site c) := rfl

/-- Siblings are read one after the other. -/
@[simp] theorem notes_append : (f ++ g).notes site c = f.notes site c ++ g.notes site c := by
  induction f with
  | nil => rfl
  | cons id l kids rest _ ih => simp [notes_cons, ih]

private theorem notes_unnoted (h : l.kind.isUnnoted) : (Forest.cons id l kids rest).notes site c =
    kids.notes site (c.below id l) ++ rest.notes site c := by
  have hnone : site.notes c id l kids = [] := by
    unfold Site.notes
    split <;> simp_all [isUnnoted]
  rw [notes_cons, hnone, List.nil_append]

/-- Leaves that lowering does not look at. -/
theorem notes_leaf (h : l.kind.isUnnoted) :
    (Forest.cons id l .nil rest).notes site c = rest.notes site c := by
  rw [notes_unnoted h, notes_nil, List.nil_append]

/-- The name of a label, below the label or a jump to it. -/
theorem notes_labelName (hkind : l.kind = .name) (hparent : c.parent.usesName .nil = false) :
    (Forest.leaf id l).notes site c = [] := by
  simp [notes_cons, Site.notes, hkind, hparent]

end Forest

/-- A jump is not noted, nor is the label that it names. -/
theorem Forest.notes_jump {name : Forest} {label : Option String} {c : Surroundings}
    (hkind : l.kind = .breakStmt ∨ l.kind = .continueStmt) (hname : JumpLabel name label) :
    (Forest.tree id l name).notes site c = [] := by
  have hunnoted : l.kind.isUnnoted := by rcases hkind with hk | hk <;> rw [hk] <;> rfl
  have huses : (c.below id l).parent.usesName .nil = false := by
    rcases hkind with hk | hk <;> simp [Surroundings.below, hk, usesName]
  rw [notes_unnoted hunnoted]
  cases hname with
  | none => rfl
  | name hname => rw [notes_labelName hname huses, notes_nil, List.append_nil]

/-! ## Lowering -/

/-- Kinds of nodes that put nothing around their children; a name among these is used. -/
def Token.passesOn : Token → Bool
  | .withBody | .switch | .var | .label | .breakStmt | .continueStmt => false
  | _ => true

private theorem Token.passesOn_of_isKept {kind : Token} (h : kind.isKept) : kind.passesOn := by
  unfold passesOn
  split <;> first | rfl | simp [isKept, isPlain] at h

/-- What is around a forest fits the scopes that lowering has opened there. -/
structure Surroundings.Matches (c : Surroundings) (E : List Scope) (form : Form) : Prop where
  inWith_eq : c.inWith = E.any (·.kind = .withBody)
  switch_eq : c.switch = (E.find? (·.kind = .switch)).map Scope.node
  uses : form ≠ .decls → ∀ kids, c.parent.usesName kids
  declares : form = .decls → c.parent = .var

namespace Surroundings.Matches

variable {c : Surroundings} {form' : Form} {scope : Scope}

/-- Most scopes leave no trace. -/
theorem cons (h : c.Matches E form) (hwith : scope.kind ≠ .withBody)
    (hswitch : scope.kind ≠ .switch) : c.Matches (scope :: E) form :=
  { h with
    inWith_eq := by simp [h.inWith_eq, hwith]
    switch_eq := by simp [h.switch_eq, hswitch] }

private theorem one (h : c.Matches E .list) : c.Matches E .one :=
  ⟨h.inWith_eq, h.switch_eq, fun _ => h.uses (by simp), nofun⟩

private theorem below (h : c.Matches E form) (hkind : l.kind.passesOn) (hform : form' ≠ .decls) :
    (c.below id l).Matches E form' := by
  have hne (other : Token) (ho : other.passesOn = false) : l.kind ≠ other := fun he => by
    rw [he, ho] at hkind
    cases hkind
  refine ⟨?_, ?_, fun _ kids => ?_, fun he => absurd he hform⟩
  · simp [Surroundings.below, h.inWith_eq, hne .withBody rfl]
  · simp [Surroundings.below, h.switch_eq, hne .switch rfl]
  · unfold Token.usesName
    split <;> simp_all [Surroundings.below, passesOn]

/-- The declarations of a variable statement. -/
theorem var (h : c.Matches E form) (hkind : l.kind = .var) : (c.below id l).Matches E .decls := by
  refine ⟨?_, ?_, nofun, fun _ => hkind⟩
  · simp [Surroundings.below, h.inWith_eq, hkind]
  · simp [Surroundings.below, h.switch_eq, hkind]

/-- The body of a with scope. -/
theorem withBody (h : c.Matches E form) (hkind : l.kind = .withBody) (inner leave : NodeId) :
    (c.below id l).Matches (.withBody inner leave :: E) .list := by
  refine ⟨?_, ?_, fun _ _ => ?_, nofun⟩
  · simp [Surroundings.below, hkind, kind]
  · simp [Surroundings.below, h.switch_eq, hkind, kind]
  · simp [Surroundings.below, hkind, usesName]

/-- The selector and the clauses of a switch. -/
theorem switch (h : c.Matches E form) (hkind : l.kind = .switch) (stop : NodeId)
    (hform : form' ≠ .decls) : (c.below id l).Matches (.switch id stop :: E) form' := by
  refine ⟨?_, ?_, fun _ _ => ?_, fun he => absurd he hform⟩
  · simp [Surroundings.below, h.inWith_eq, hkind, kind]
  · simp [Surroundings.below, hkind, kind, node]
  · simp [Surroundings.below, hkind, usesName]

end Surroundings.Matches

namespace Site

variable {c : Surroundings}

private theorem nameEvents_eq (h : c.Matches E form) (name : String) :
    site.nameEvents E name = site.nameNotes c name := by
  have hwith : (∀ scope ∈ E, scope.kind ≠ .withBody) ↔ c.inWith = false := by
    simp [h.inWith_eq]
  simp only [nameEvents, nameNotes, hwith]

private theorem clauseEvents_eq (h : c.Matches E form) (isCase : Bool) (id : NodeId) :
    clauseEvents E isCase id = c.switch.toList.map (.clause · isCase id) := by
  rw [clauseEvents, h.switch_eq]
  split
  · next hfind => simp [hfind]
  · next hfind => simp [hfind]

@[simp] theorem filter_activations : site.activations.filter Event.isNote = site.activations := by
  unfold activations
  split <;> rfl

@[simp] theorem filter_nameNotes (name : String) :
    (site.nameNotes c name).filter Event.isNote = site.nameNotes c name := by
  unfold nameNotes
  split <;> rfl

@[simp] theorem filter_callEvents (kids : Forest) :
    (site.callEvents kids).filter Event.isNote = site.callEvents kids := by
  unfold callEvents
  split <;> simp

@[simp] theorem filter_accessEvents (l : Node) (kids : Forest) :
    (site.accessEvents l kids).filter Event.isNote = site.accessEvents l kids := by
  unfold accessEvents
  split <;> simp

private theorem filter_functionEvents (body : BodyId) :
    (site.functionEvents body).filter Event.isNote = site.functionNotes body := by
  unfold functionEvents functionNotes
  by_cases hbody : body = site.body
  · simp [hbody]
  · cases site.inFunction <;> simp [hbody] <;> rfl

/-- A node that keeps its place and its children is noted as it is read. -/
theorem filter_plainEvents (h : c.Matches E .one) (hkind : l.kind.isKept) (id : NodeId)
    (kids : Forest) :
    (site.plainEvents E id l kids).filter Event.isNote = site.notes c id l kids := by
  have hclause (isCase : Bool) : (clauseEvents E isCase id).filter Event.isNote =
      c.switch.toList.map (.clause · isCase id) := by
    rw [clauseEvents_eq h, filter_eq_self.mpr]
    simp [Event.isNote]
  unfold plainEvents
  split
  · next hk => simp [notes, hk]
  · next hk => simp [notes, hk]
  · next hk => simp [notes, hk, hclause]
  · next hk => simp [notes, hk, hclause]
  · next hk => simp [notes, hk]
  · next hk => simp [notes, hk, h.uses, nameEvents_eq h]
  · next hk => simp [notes, hk, nameEvents_eq h]
  · unfold notes
    split <;> simp_all [isKept, isPlain]

end Site

/-- Labels leave no trace. -/
theorem LabelsOpen.notes {stop : NodeId} {continueTo : Option NodeId} {inner : List Scope}
    {labels : List LabelNode} {front : Forest} {c : Surroundings}
    (h : LabelsOpen stop continueTo E labels inner front events) (hc : c.Matches E form) :
    c.Matches inner form ∧ events.filter Event.isNote = [] := by
  induction h with
  | nil => exact ⟨hc, rfl⟩
  | repeated _ _ ih => exact ⟨(ih hc).1, by simp [(ih hc).2, Event.isNote]⟩
  | fresh _ _ _ ih => exact ih (hc.cons (by simp [kind]) (by simp [kind]))

private theorem Forest.notes_labelForest (labels : List LabelNode) (site : Site)
    (c : Surroundings) : (labelForest labels).notes site c = [] := by
  induction labels with
  | nil => rfl
  | cons a rest ih =>
    rw [labelForest, notes_unnoted (by rw [a.kind_eq]; rfl), ih,
      notes_labelName a.name_eq (by simp [Surroundings.below, usesName])]
    rfl

namespace Lowered

variable {w : Nat} {past : Bool} {c : Surroundings}

/-- Lowering notes what is read. -/
theorem notes_eq (hlow : Lowered site E form w past f h events) (hc : c.Matches E form) :
    events.filter Event.isNote = f.notes site c := by
  induction hlow generalizing c with
  | plain hkind _ _ _ ih =>
    rw [filter_append, Site.filter_plainEvents hc hkind,
      ih (hc.below (passesOn_of_isKept hkind) (by simp)), notes_cons,
      notes_nil, List.append_nil]
  | @deleteName E w past id l bind lb key lk hkind hbind hkey =>
    have hbelow : (c.below id l).Matches E .one := hc.below (by rw [hkind]; rfl) (by simp)
    rw [Site.nameEvents_eq hbelow, Site.filter_nameNotes, notes_unnoted (by rw [hkind]; rfl),
      notes_cons, notes_leaf (by rw [hkey]; rfl)]
    simp [Site.notes, hbind]
  | function hkind hdata =>
    rw [Site.filter_functionEvents, notes_cons]
    simp [Site.notes, hkind, Node.function?, hdata]
  | var hkind _ _ _ ih =>
    rw [ih (hc.var hkind), notes_unnoted (by rw [hkind]; rfl), notes_nil,
      List.append_nil]
  | ret hkind =>
    rw [notes_leaf (by rw [hkind]; rfl)]
    rfl
  | retValue hkind _ _ _ ih | retLater hkind _ _ _ _ _ _ _ _ ih =>
    rw [ih (hc.below (by rw [hkind]; rfl) (by simp)), notes_unnoted (by rw [hkind]; rfl),
      notes_nil, List.append_nil]
  | jump hkind _ hname => rw [notes_jump hkind hname, filter_nil]
  | lost hkind _ hname =>
    rw [notes_jump hkind hname, filter_cons_of_neg (by simp [Event.isNote]),
      filter_nil]
  | switch hkind _ _ _ _ ihs ihc =>
    rw [filter_append, ihs (hc.switch hkind _ (by simp)), ihc (hc.switch hkind _ (by simp)),
      notes_unnoted (by rw [hkind]; rfl), notes_append, notes_nil,
      List.append_nil]
  | @loop E w past id l _ _ _ stop _ continueTo _ hkind _ _ _ _ _ hstop _ ih =>
    have hbelow : (c.below id l).Matches E .list := hc.below (by rw [hkind]; rfl) (by simp)
    rw [ih (hbelow.cons (by simp [kind]) (by simp [kind])),
      notes_unnoted (by rw [hkind]; rfl), notes_append,
      notes_leaf (by rw [hstop]; rfl)]
    simp
  | tryCatch hkind _ _ _ ih =>
    rw [filter_cons_of_neg (by simp [Event.isNote]), ih (hc.below (by rw [hkind]; rfl) (by simp)),
      notes_unnoted (by rw [hkind]; rfl), notes_nil, List.append_nil]
  | @tryFinally E w past id l _ _ _ entry _ _ _ _ _ _ _ _ _ hkind _ _ _ hentry _ _ hback hstop _
      ihg ihf =>
    have hbelow : (c.below id l).Matches E .list := hc.below (by rw [hkind]; rfl) (by simp)
    have hguarded : (c.below id l).Matches (.guarded id entry :: E) .list :=
      hbelow.cons (by simp [kind]) (by simp [kind])
    rw [filter_cons_of_neg (by simp [Event.isNote]),
      filter_cons_of_neg (by simp [Event.isNote]), filter_append, ihg hguarded,
      ihf hbelow.one, notes_unnoted (by rw [hkind]; rfl), notes_append,
      notes_leaf (by rw [hentry]; rfl), notes_append,
      notes_leaf (by rw [hback]; rfl), notes_leaf (by rw [hstop]; rfl)]
    simp
  | nil | declNil => rfl
  | target hkind _ _ ih => rw [ih hc, notes_leaf (by rw [hkind]; rfl)]
  | labelled hopen _ _ _ iho ihr =>
    obtain ⟨hinner, hcomplaints⟩ := hopen.notes hc
    rw [filter_append, filter_append, hcomplaints, iho hinner.one, ihr hc,
      notes_append, notes_labelForest, List.nil_append, List.nil_append,
      ← notes_append]
    rfl
  | @withScope E w past enter le _ _ inner li _ _ leave _ _ _ _ _ _ henter _ hinner _ hleave _ iho
      ihb ihr =>
    have hobject : (c.below enter le).Matches E .list := hc.below (by rw [henter]; rfl) (by simp)
    have hbody : (c.below inner li).Matches (.withBody inner leave :: E) .list :=
      hc.withBody hinner inner leave
    rw [filter_append, filter_append, filter_append, Site.filter_activations,
      iho hobject, ihb hbody, ihr hc,
      notes_unnoted (by rw [henter]; rfl), notes_cons,
      notes_leaf (by rw [hleave]; rfl)]
    simp [Site.notes, hinner]
  | exit hleave hskip _ _ _ ih =>
    rw [ih hc, notes_leaf (by rw [hleave]; rfl), notes_leaf (by rw [hskip]; rfl)]
  | decl hkind _ ih =>
    rw [ih hc, notes_cons]
    simp [Site.notes, hkind, hc.declares, usesName]
  | @declInit E w past id l init _ rest _ _ _ _ _ _ hkind _ _ hinit _ ihi ihr =>
    -- There is a value, so the name is assigned to.
    have huses : c.parent.usesName init := by
      obtain ⟨_, _, _, rfl, -⟩ := hinit.single
      simp [hc.declares, usesName]
    have hbelow : (c.below id l).Matches E .one := hc.below (by rw [hkind]; rfl) (by simp)
    rw [filter_append, filter_append, Site.nameEvents_eq hc, Site.filter_nameNotes,
      ihi hbelow, ihr hc, notes_cons]
    simp [Site.notes, hkind, huses]

end Lowered

/-! ## Bodies -/

/-- What is around the statements of a body. -/
def Program.surroundings (p : Program) (j : BodyId) : Surroundings where
  parent := p.tree.kind (p.body j).root

/-- What lowering notes in a body is read off its statements. -/
theorem Layout.notes_body {L : Layout} {config : Config} {j : BodyId}
    (hframed : L.program.Framed []) (hj : j.index < L.size)
    (hlow : Lowered (L.site config j) [] .list 0 false (L.kids j) h events) :
    events.filter Event.isNote =
      (L.program.statements j).notes (L.site config j) (L.program.surroundings j) := by
  have hroot : (L.program.surroundings j).parent.isRoot := by
    rw [Program.surroundings, Tree.kind_eq_label]
    exact (hframed.isRoot hj).1
  rw [L.statements_eq hj]
  refine hlow.notes_eq ⟨rfl, rfl, fun _ kids => ?_, nofun⟩
  unfold usesName
  split <;> simp_all [isRoot]

end ScriptEngine
