import ScriptEngine.Proofs.BodyNotes
import ScriptEngine.Proofs.JumpResolution

/-!
# Places in a body

`Forest.places` lists all nodes of a body as it was built, each with the scopes around it that have
to be left on the way out of the body. Returns and switches are the statements of which lowering
makes something else in their place: `Forest.InPlace` says that a run of siblings stands in a
lowered forest where a tree stood in the forest as it was built.
-/

namespace ScriptEngine

open Forest Token Node

variable {limits : Limits} {id : NodeId} {l : Node} {first : Nat} {E : List Scope}
  {labels : List LabelNode} {events : List Event} {head tail : Token → Bool}
  {outer : List Unwinding}

/-! ## Scopes to leave -/

/-- A scope that has to be left on the way out of a body. -/
inductive Unwinding where
  | withBody (node : NodeId)
  /-- The part of a try that its finally block guards. -/
  | guarded (entry : NodeId)
deriving DecidableEq, Repr

namespace Unwinding

/-- The step out of the scope: the with scope is left, or the finally block runs. -/
def step : Unwinding → Node
  | .withBody _ => .ofKind .leaveWith
  | .guarded entry => (Node.ofKind .jsr).withJump { target := some entry }

/-- A finally block has to run. -/
def isGuarded : Unwinding → Bool
  | .withBody _ => false
  | .guarded _ => true

end Unwinding

/-- A node, with all that is below it and the scopes around it, innermost first. -/
structure Place where
  node : NodeId
  label : Node
  kids : Forest
  around : List Unwinding

/-- The node with all that is below it. -/
def Place.tree (place : Place) : Forest := .tree place.node place.label place.kids

/-- What a node puts around its children, but for a try. -/
def Node.unwindings (id : NodeId) (l : Node) : List Unwinding :=
  if l.kind = .withBody then [.withBody id] else []

namespace Forest

/-- The nodes of a forest, each before those below it and after it. The first siblings may be
guarded by a finally block, up to that block. -/
def places : Forest → (outer : List Unwinding) → (entry : Option NodeId) → List Place
  | .nil, _, _ => []
  | .cons id l kids rest, outer, entry =>
    let entry := if entry = some id then none else entry
    let around := entry.toList.map .guarded ++ outer
    ⟨id, l, kids, around⟩ :: (kids.places (l.unwindings id ++ around) l.finallyTarget? ++
      rest.places outer entry)

variable {f g kids rest : Forest} {outer : List Unwinding} {entry : Option NodeId} {id : NodeId}
  {l : Node} {place : Place}

@[simp] theorem places_nil : Forest.nil.places outer entry = [] := rfl

/-- Every node has its place. -/
theorem map_places (f : Forest) (outer : List Unwinding) (entry : Option NodeId) :
    (f.places outer entry).map Place.node = f.ids := by
  induction f generalizing outer entry with
  | nil => rfl
  | cons id l kids rest ihk ihr => simp [Forest.places, ihk, ihr]

private theorem places_tree : (Forest.tree id l kids).places outer none =
    ⟨id, l, kids, outer⟩ :: kids.places (l.unwindings id ++ outer) l.finallyTarget? := by
  simp [places]

/-- Most nodes leave what is around their children as it is. -/
theorem places_simple (hwith : l.kind ≠ .withBody) (htry : l.kind ≠ .tryStmt) :
    (Forest.tree id l kids).places outer none = ⟨id, l, kids, outer⟩ :: kids.places outer none := by
  rw [places_tree, finallyTarget?_eq_none htry, unwindings, if_neg hwith, List.nil_append]

@[simp] theorem places_append :
    (f ++ g).places outer none = f.places outer none ++ g.places outer none := by
  induction f with
  | nil => rfl
  | cons id l kids rest _ ih => simp [Forest.places, ih]

private theorem mem_places_cons : place ∈ (Forest.cons id l kids rest).places outer none ↔
    place ∈ (Forest.tree id l kids).places outer none ∨ place ∈ rest.places outer none := by
  rw [← List.mem_append, ← Forest.places_append]
  rfl

/-- What a try guards ends where its finally block begins. -/
theorem places_guarded (hnot : id ∉ f.roots) : (f ++ .cons id l kids rest).places outer (some id) =
    f.places (.guarded id :: outer) none ++ (Forest.cons id l kids rest).places outer none := by
  induction f with
  | nil => simp [places]
  | cons id' l' kids' rest' _ ih =>
    simp only [roots_cons, List.mem_cons, not_or] at hnot
    have hne : some id ≠ some id' := by simpa using hnot.1
    simp [Forest.places, ih hnot.2, hne]

/-- There are only operands below operands. -/
theorem Placed.isOperand_places (h : f.Placed limits Token.isOperand Token.isOperand)
    (hin : place ∈ f.places outer entry) : place.label.kind.isOperand := by
  induction f generalizing outer entry with
  | nil => cases hin
  | cons id l kids rest ihk ihr =>
    obtain ⟨hkind, -, hkids, hrest⟩ := h
    rw [headBelow_of_isOperand hkind, tailBelow_of_isOperand hkind] at hkids
    rw [Forest.places, List.mem_cons, List.mem_append] at hin
    rcases hin with rfl | hin | hin
    exacts [hkind, ihk hkids hin, ihr hrest hin]

end Forest

/-! ## Standing in a place -/

/-- Kinds of nodes that lowering puts steps in front of. -/
def Token.isLeaving : Token → Bool
  | .breakStmt | .continueStmt | .ret => true
  | _ => false

/-- Siblings and what has become of them, whatever is below them. Every one is still there, or a
block stands in its place, or a constant for a deletion. Apart from these, new nodes are steps right
in front of a jump or return, targets behind a switch and its clauses, and targets that a label
among the siblings refers to. Nodes from `first` on are new. -/
inductive Forest.Becomes (first : Nat) : Forest → Forest → Prop
  | nil : Becomes first .nil .nil
  | append {f g h k} (hf : Becomes first f h) (hg : Becomes first g k) :
      Becomes first (f ++ g) (h ++ k)
  | kept {id l l' kids kids'} (hkind : l'.kind = .delProp → l.kind = .delProp) :
      Becomes first (.tree id l kids) (.tree id l' kids')
  | left {id l l' kids kids' steps} (hkind : l.kind.isLeaving) (hfirm : l'.kind.isFirm)
      (hsteps : ∀ step ∈ steps, step.2.isStep first step.1) :
      Becomes first (.tree id l kids) (.leaves steps ++ .tree id l' kids')
  | block {id l kids block kids'} (hkind : l.kind = .var ∨ l.kind = .ret)
      (hnew : first ≤ block.index) :
      Becomes first (.tree id l kids) (.tree block (.ofKindAt .block l.line) kids')
  | constant {id l kids constant line} (hkind : l.kind = .delProp)
      (hnew : first ≤ constant.index) :
      Becomes first (.tree id l kids) (.leaf constant (.ofKindAt .falseValue line))
  | switch {id l l' sid sl sk selector clauses behind stop} (hkind : l.kind = .switch)
      (hkind' : l'.kind = .switch) (hstop : l'.data = .switch { target := some stop })
      (hnew : first ≤ stop.index) (hclauses : Becomes first clauses behind) :
      Becomes first (.tree id l (.cons sid sl sk clauses))
        (.cons id l' selector (behind ++ .leaf stop (.ofKind .target)))
  | stop {f h stop} (hf : Becomes first f h) (hnew : first ≤ stop.index)
      (hlabel : ∃ l ∈ h.rootsOf .label, l.target? = some stop) :
      Becomes first f (h ++ .leaf stop (.ofKind .target))

/-- In the second forest `made` stands where `tree` stands in the first. What is around it has been
made of what is around `tree`: below the same node, or behind it for the clauses of a switch, behind
what the earlier siblings have become, and in front of what stems from later ones. Nodes from
`first` on are new. -/
inductive Forest.InPlace (first : Nat) (tree made : Forest) : Forest → Forest → Prop
  | here : InPlace first tree made tree made
  | left {f h g k} (hin : InPlace first tree made f h) (hk : k.Stems first g) :
      InPlace first tree made (f ++ g) (h ++ k)
  | right {f h g k} (hh : f.Becomes first h) (hin : InPlace first tree made g k) :
      InPlace first tree made (f ++ g) (h ++ k)
  | inside {id l l' kids kids'} (hkind : l'.kind = l.kind) (hholds : l.kind.holdsStatements)
      (hin : InPlace first tree made kids kids') :
      InPlace first tree made (.tree id l kids) (.tree id l' kids')
  | behind {id l l' sid sl sk selector clauses rest} (hkind : l'.kind = l.kind)
      (hswitch : l.kind = .switch) (hselector : selector.Stems first (.tree sid sl sk))
      (hin : InPlace first tree made clauses rest) :
      InPlace first tree made (.tree id l (.cons sid sl sk clauses)) (.cons id l' selector rest)

/-- An operand and what stands for it in the end: it keeps its node, unless it deletes a variable
that has a slot. Then it is a constant. -/
inductive Forest.OperandKept (first : Nat) : Forest → Forest → Prop
  | same {id l l' kids kids'} : OperandKept first (.tree id l kids) (.tree id l' kids')
  | deleted {id l kids constant line} (hkind : l.kind = .delProp) (hnew : first ≤ constant.index) :
      OperandKept first (.tree id l kids) (.leaf constant (.ofKindAt .falseValue line))

variable {kind : Token} {rules : SlotRules} {p stop : NodeId} {changes : List SlotChange}
  {cut g h k made f front kids : Forest} {continueTo entry : Option NodeId} {inner E : List Scope}
  {site : Site} {form : Form} {w : Nat} {past : Bool} {events : List Event} {limits : Limits}
  {head tail : Token → Bool} {t' : Tree}

private theorem Node.isFirm_of_isStep (h : l.isStep first id) : l.kind.isFirm := by
  simp only [isStep, Bool.and_eq_true, Bool.or_eq_true, decide_eq_true_eq] at h
  rcases h.2 with hk | hk <;> rw [hk] <;> rfl

theorem Token.isFirm_of_holdsStatements (h : kind.holdsStatements) : kind.isFirm := by
  unfold isFirm
  split <;> first | rfl | cases h

/-! ## Accesses by slot -/

namespace Slotted

private theorem stems (hs : Slotted rules p changes cut h k) (hh : h.Stems rules.first g) :
    k.Stems rules.first g := by
  intro x hx hlt
  rcases hs.mem_ids_or_new hx with hx | hnew
  · exact hh x hx hlt
  · omega

/-- A label is no access. -/
theorem rootsOf_label (hs : Slotted rules p changes cut h k) {l : Node}
    (hl : l ∈ h.rootsOf .label) : l ∈ k.rootsOf .label := by
  induction hs with
  | nil => exact hl
  | keep _ _ _ _ ih => exact mem_rootsOf_cons.mpr ((mem_rootsOf_cons.mp hl).imp_right ih)
  | getVar _ hkind _ _ _ ih | deleted _ hkind _ _ _ _ ih | setVar _ hkind _ _ _ _ _ _ ih =>
    exact mem_rootsOf_cons.mpr (.inr (ih (by simpa [mem_rootsOf_cons, hkind] using hl)))

/-- Accesses by slot are made at nodes that are kept. -/
theorem becomes (hs : Slotted rules p changes cut h k) (hh : g.Becomes rules.first h) :
    g.Becomes rules.first k := by
  induction hh generalizing p changes cut k with
  | nil =>
    rw [hs.nil_inv.2.2]
    exact .nil
  | append _ _ ihf ihg =>
    obtain ⟨_, _, _, _, _, _, rfl, hf, hg⟩ := hs.append_inv
    exact .append (ihf hf) (ihg hg)
  | kept hkind =>
    cases hs with
    | keep _ _ hrest =>
      rw [hrest.nil_inv.2.2]
      exact .kept hkind
    | getVar _ _ _ _ hrest | setVar _ _ _ _ _ _ hrest =>
      rw [hrest.nil_inv.2.2]
      exact .kept nofun
    | deleted _ hdelete _ _ hnew hrest =>
      rw [hrest.nil_inv.2.2]
      exact .constant (hkind hdelete) hnew
  | left hkind hfirm hsteps =>
    obtain ⟨_, _, _, _, _, _, rfl, hfront, hlast⟩ := hs.append_inv
    obtain ⟨_, _, _, _, _, _, rfl, -, hnil⟩ := hlast.firm_inv hfirm
    rw [hnil.nil_inv.2.2, hfront.leaves_inv fun step hstep => isFirm_of_isStep (hsteps step hstep)]
    exact .left hkind hfirm hsteps
  | block hkind hnew =>
    obtain ⟨_, _, _, _, _, _, rfl, -, hnil⟩ := hs.firm_inv rfl
    rw [hnil.nil_inv.2.2]
    exact .block hkind hnew
  | constant hkind hnew =>
    rw [hs.leaf_inv rfl]
    exact .constant hkind hnew
  | switch hkind hkind' hstop hnew _ ih =>
    obtain ⟨_, _, _, _, _, _, rfl, -, hrest⟩ := hs.firm_inv (by rw [hkind']; rfl)
    obtain ⟨_, _, _, _, _, _, rfl, hclauses, hlast⟩ := hrest.append_inv
    rw [hlast.leaf_inv rfl]
    exact .switch hkind hkind' hstop hnew (ih hclauses)
  | stop _ hnew hlabel ih =>
    obtain ⟨_, _, _, _, _, _, rfl, hf, hlast⟩ := hs.append_inv
    rw [hlast.leaf_inv rfl]
    obtain ⟨l, hl, htarget⟩ := hlabel
    exact .stop (ih hf) hnew ⟨l, hf.rootsOf_label hl, htarget⟩

end Slotted

/-- Accesses by slot leave things in their places. -/
theorem Forest.InPlace.slotted {tree : Forest} (hin : InPlace rules.first tree made f h)
    (hs : Slotted rules p changes cut h k) :
    ∃ q changes' cut' made', Slotted rules q changes' cut' made made' ∧
      InPlace rules.first tree made' f k := by
  induction hin generalizing p changes cut k with
  | here => exact ⟨p, changes, cut, k, hs, .here⟩
  | left _ hk ih =>
    obtain ⟨h', k', _, _, _, _, rfl, hh, hk'⟩ := hs.append_inv
    obtain ⟨q, _, _, made', hmade, hin⟩ := ih hh
    exact ⟨q, _, _, made', hmade, .left hin (hk'.stems hk)⟩
  | right hh _ ih =>
    obtain ⟨h', k', _, _, _, _, rfl, hh', hk⟩ := hs.append_inv
    obtain ⟨q, _, _, made', hmade, hin⟩ := ih hk
    exact ⟨q, _, _, made', hmade, .right (hh'.becomes hh) hin⟩
  | inside hkind hholds _ ih =>
    have hfirm := isFirm_of_holdsStatements hholds
    obtain ⟨_, _, _, _, kids', rest', rfl, hkids, hrest⟩ := hs.firm_inv (hkind ▸ hfirm)
    obtain ⟨q, _, _, made', hmade, hin⟩ := ih hkids
    rw [hrest.nil_inv.2.2]
    exact ⟨q, _, _, made', hmade, .inside hkind hholds hin⟩
  | behind hkind hswitch hselector _ ih =>
    obtain ⟨_, _, _, _, selector', rest', rfl, hs', hrest⟩ :=
      hs.firm_inv (by rw [hkind, hswitch]; rfl)
    obtain ⟨q, _, _, made', hmade, hin⟩ := ih hrest
    exact ⟨q, _, _, made', hmade, .behind hkind hswitch (hs'.stems hselector) hin⟩

/-! ## Lowering -/

/-- The scopes that have to be left. -/
def Scope.unwinding? : Scope → Option Unwinding
  | .withBody node _ => some (.withBody node)
  | .guarded _ entry => some (.guarded entry)
  | .loop .. | .switch .. | .label .. => none

/-- The scopes among others that have to be left. -/
def Scope.unwindings (E : List Scope) : List Unwinding := E.filterMap Scope.unwinding?

/-- Steps leave the scopes that have to be left. -/
theorem Scope.filterMap_step? (E : List Scope) :
    E.filterMap Scope.step? = (Scope.unwindings E).map Unwinding.step := by
  rw [unwindings, List.map_filterMap]
  refine congrArg (E.filterMap ·) (funext fun scope => ?_)
  cases scope <;> rfl

/-- Labels add nothing that a return leaves. -/
theorem LabelsOpen.unwindings_eq (h : LabelsOpen stop continueTo E labels inner front events) :
    Scope.unwindings inner = Scope.unwindings E := by
  induction h with
  | nil => rfl
  | repeated _ _ ih => exact ih
  | fresh _ _ _ ih => exact ih

/-- Kinds of statements that something else may take the place of. -/
def Token.isReplaced : Token → Bool
  | .switch | .ret => true
  | _ => false

private theorem Token.not_isReplaced_of_isOperand (h : kind.isOperand) :
    kind.isReplaced = false := by
  unfold isReplaced
  split <;> first | rfl | cases h

private theorem Token.holdsStatements_of_isKept (h : kind.isKept)
    (hnot : kind.isOperand = false) : kind.holdsStatements := by
  unfold isOperand at hnot
  split at hnot <;> first | rfl | exact absurd h (by decide) | cases hnot

/-- Over operands there is nothing to replace but the node itself. -/
theorem Forest.Placed.eq_of_mem_places {place : Place}
    (h : (Forest.tree id l kids).Placed limits head tail)
    (hin : place ∈ (Forest.tree id l kids).places outer none) (hkind : place.label.kind.isReplaced)
    (hholds : l.kind.holdsStatements = false) (hswitch : l.kind ≠ .switch) :
    place = ⟨id, l, kids, outer⟩ := by
  have hkids : kids.Placed limits Token.isOperand Token.isOperand := by
    simpa [headBelow, tailBelow, hholds, hswitch] using h.2.2.1
  rw [places_tree, List.mem_cons] at hin
  refine hin.resolve_right fun hin => ?_
  rw [not_isReplaced_of_isOperand (hkids.isOperand_places hin)] at hkind
  cases hkind

/-- What comes later is placed too, but it need not have a head. -/
theorem Forest.Placed.of_append (h : (f ++ g).Placed limits head tail) :
    f.Placed limits head tail ∧ ∃ head', g.Placed limits head' tail := by
  induction f generalizing head with
  | nil => exact ⟨trivial, head, h⟩
  | cons id l kids rest _ ih =>
    obtain ⟨hkind, hnests, hkids, hrest⟩ := h
    exact ⟨⟨hkind, hnests, hkids, (ih hrest).1⟩, (ih hrest).2⟩

/-- Labels stay where they are. -/
theorem LabelsOpen.becomes (h : LabelsOpen stop continueTo E labels inner front events) :
    (labelForest labels).Becomes first front := by
  induction h with
  | nil => exact .nil
  | @repeated _ a _ _ _ _ _ _ ih | @fresh _ a _ _ _ _ _ _ _ _ ih =>
    exact .append (f := .tree a.id a.node _) (h := .tree a.id _ .nil) (.kept fun h => h) ih

/-- If a scope has been opened, a label refers to its target. -/
theorem LabelsOpen.exists_label (h : LabelsOpen stop continueTo E labels inner front events)
    (hne : inner ≠ E) : ∃ l ∈ front.rootsOf .label, l.target? = some stop := by
  induction h with
  | nil => exact absurd rfl hne
  | @repeated _ a _ _ _ _ _ _ ih =>
    obtain ⟨l, hl, htarget⟩ := ih hne
    exact ⟨l, mem_rootsOf_cons.mpr (.inr hl), htarget⟩
  | @fresh _ a => exact ⟨_, mem_rootsOf_cons.mpr (.inl ⟨a.kind_eq, rfl⟩), rfl⟩

private theorem Forest.mem_rootsOf_append (h : l ∈ f.rootsOf kind) : l ∈ (f ++ g).rootsOf kind := by
  induction f with
  | nil => cases h
  | cons id l' kids rest _ ih =>
    exact mem_rootsOf_cons.mpr ((mem_rootsOf_cons.mp h).imp_right ih)

/-- Labels are not replaced, nor are their names. -/
theorem isReplaced_labelForest {place : Place}
    (hin : place ∈ (labelForest labels).places outer none) :
    place.label.kind.isReplaced = false := by
  induction labels with
  | nil => cases hin
  | cons a labels ih =>
    rw [labelForest, mem_places_cons,
      places_simple (by simp) (by simp),
      places_simple (by simp) (by simp)] at hin
    simp only [List.mem_cons, places_nil, List.not_mem_nil, or_false] at hin
    rcases hin with (rfl | rfl) | hin
    · exact congrArg Token.isReplaced a.kind_eq
    · exact congrArg Token.isReplaced a.name_eq
    · exact ih hin

/-- What the statement at a place is lowered to stands there in the lowered forest. The scopes in
which it is lowered are those around it. -/
def Place.Lowers (site : Site) (f h : Forest) (place : Place) : Prop :=
  ∃ E w past made events, Lowered site E .one w past place.tree made events ∧
    place.around = Scope.unwindings E ∧ Forest.InPlace site.first place.tree made f h

namespace Lowered

variable {place : Place}

/-- What the whole forest is lowered to stands in its place. -/
theorem lowers (hlow : Lowered site E .one w past place.tree h events)
    (haround : place.around = Scope.unwindings E) : place.Lowers site place.tree h :=
  ⟨E, w, past, h, events, hlow, haround, .here⟩

end Lowered

namespace Place.Lowers

variable {place : Place}

private theorem map (hp : place.Lowers site f h)
    (hin : ∀ {made}, Forest.InPlace site.first place.tree made f h →
      Forest.InPlace site.first place.tree made g k) : place.Lowers site g k := by
  obtain ⟨E, w, past, made, events, hlow, haround, hmade⟩ := hp
  exact ⟨E, w, past, made, events, hlow, haround, hin hmade⟩

private theorem left (hp : place.Lowers site f h) (hk : k.Stems site.first g) :
    place.Lowers site (f ++ g) (h ++ k) := hp.map (.left · hk)

private theorem right (hp : place.Lowers site g k) (hh : f.Becomes site.first h) :
    place.Lowers site (f ++ g) (h ++ k) := hp.map (.right hh)

private theorem inside {l' : Node} (hp : place.Lowers site f h) (hkind : l'.kind = l.kind)
    (hholds : l.kind.holdsStatements) : place.Lowers site (.tree id l f) (.tree id l' h) :=
  hp.map (.inside hkind hholds)

/-- An old node by itself in front. -/
theorem behind {a b : Forest} (hp : place.Lowers site g k) :
    place.Lowers site (.cons id l a g) (.cons id l b k) :=
  right (f := .tree id l a) (h := .tree id l b) hp (.kept fun h => h)

end Place.Lowers

namespace Lowered

variable {place : Place}

/-- What siblings are lowered to. -/
theorem becomes (hlow : Lowered site E form w past f h events) (hform : form ≠ .decls) :
    f.Becomes site.first h := by
  have hsteps {E : List Scope} {steps : List (NodeId × Node)}
      (hnodes : steps.map Prod.snd = E.filterMap Scope.step?)
      (hnew : ∀ step ∈ steps, site.IsNew step.1) (step) (hin : step ∈ steps) :
      step.2.isStep site.first step.1 := by
    have hstep := List.mem_map_of_mem (f := Prod.snd) hin
    rw [hnodes] at hstep
    obtain ⟨scope, -, hscope⟩ := List.mem_filterMap.mp hstep
    have hfirst : site.first ≤ step.1.index := hnew step hin
    cases scope <;> first | cases hscope |
      (rw [← Option.some.inj hscope]; simp [isStep, hfirst, withJump])
  induction hlow with
  | plain => exact .kept fun hk => kind_of_lowered hk (by simp) (by simp)
  | deleteName | function | retValue | loop | tryCatch | tryFinally => exact .kept fun h => h
  | lost => exact .kept (by simp [withKind])
  | var hkind hnew => exact .block (.inl hkind) hnew
  | retLater hkind _ _ _ _ _ hnew => exact .block (.inr hkind) hnew
  | @ret E w past id l steps hkind _ hnodes hnew =>
    refine .left (by rw [hkind]; rfl) (by rw [hkind]; rfl)
      (hsteps (E := if past then E else []) ?_ hnew)
    rw [hnodes]
    split <;> rfl
  | jump hkind _ _ _ _ _ _ hnodes hnew =>
    exact .left (by rcases hkind with hk | hk <;> rw [hk] <;> rfl) rfl (hsteps hnodes hnew)
  | switch hkind _ hnew hselector _ _ ih =>
    obtain ⟨sid, sl, sk, rfl, -⟩ := hselector.single
    exact .switch hkind hkind rfl hnew (ih (by simp))
  | nil => exact .nil
  | target _ _ _ ih => exact .append (.kept fun h => h) (ih (by simp))
  | @labelled E inner w past labels id l kids rest front h stop hr complaints events events'
      hopen hnew _ _ iho ihr =>
    have hboth : (labelForest labels ++ .tree id l kids).Becomes site.first (front ++ h) :=
      .append hopen.becomes (iho (by simp))
    have hone : (labelForest labels ++ .tree id l kids).Becomes site.first
        (front ++ h ++ if inner = E then .nil else .leaf stop (.ofKind .target)) := by
      split
      · rwa [append_nil]
      · next hne =>
        obtain ⟨la, hla, htarget⟩ := hopen.exists_label hne
        exact .stop hboth (hnew hne) ⟨la, mem_rootsOf_append hla, htarget⟩
    simpa [append_assoc] using hone.append (ihr (by simp))
  | withScope _ _ _ _ _ _ _ _ ih =>
    exact .append (.kept fun h => h) (.append (.kept fun h => h) (.append (.kept fun h => h)
      (ih (by simp))))
  | exit _ _ _ _ _ ih =>
    exact .append (.kept fun h => h) (.append (.kept fun h => h) (ih (by simp)))
  | declNil | decl | declInit => exact absurd rfl hform

/-- What a statement that is replaced is lowered to stands in its place. -/
theorem exists_inPlace (hlow : Lowered site E form w past f h events) (hform : form ≠ .decls)
    (hold : f.Old site.first) (hplaced : f.Placed limits head tail)
    (hin : place ∈ f.places (Scope.unwindings E) none) (hkind : place.label.kind.isReplaced) :
    place.Lowers site f h := by
  -- A node of another kind is not the place.
  have hnot {l : Node} (hl : l.kind.isReplaced = false) (heq : place.label = l) : False := by
    rw [heq, hl] at hkind
    cases hkind
  have hleaf {id : NodeId} {l : Node} {outer : List Unwinding} (hl : l.kind.isReplaced = false) :
      place ∉ (Forest.leaf id l).places outer none := by
    intro hin
    rw [places_tree, places_nil, List.mem_singleton] at hin
    exact hnot hl (congrArg Place.label hin)
  have hroot {id : NodeId} {l : Node} {kids : Forest} {outer : List Unwinding}
      {head tail : Token → Bool} (hp : (Forest.tree id l kids).Placed limits head tail)
      (hin : place ∈ (Forest.tree id l kids).places outer none)
      (hl : l.kind.holdsStatements = false ∧ l.kind ≠ .switch ∧
        l.kind.isReplaced = false) : False :=
    hnot hl.2.2 (congrArg Place.label (hp.eq_of_mem_places hin hkind hl.1 hl.2.1))
  have hoperand {id : NodeId} {l : Node} {kids : Forest} {outer : List Unwinding}
      {head tail : Token → Bool} (hp : (Forest.tree id l kids).Placed limits head tail)
      (hop : l.kind.isOperand) : place ∉ (Forest.tree id l kids).places outer none := by
    refine fun hin => hroot hp hin ⟨holdsStatements_of_isOperand hop, fun he => ?_,
      not_isReplaced_of_isOperand hop⟩
    rw [he] at hop
    cases hop
  induction hlow generalizing head tail with
  | @plain E w past id l kids h events hplain _ _ hkids ih =>
    have hwith : l.kind ≠ .withBody := ne_of_test hplain rfl
    have htry : l.kind ≠ .tryStmt := ne_of_test hplain rfl
    have hreplaced : l.kind.isReplaced = false := by
      unfold isReplaced
      split <;> simp_all [isKept, isPlain]
    by_cases hop : l.kind.isOperand
    · exact absurd hin (hoperand hplaced hop)
    · have hholds := holdsStatements_of_isKept hplain (by simpa using hop)
      rw [places_simple hwith htry, List.mem_cons] at hin
      rcases hin with rfl | hin
      · exact (hnot hreplaced rfl).elim
      · refine (ih (by simp) hold.cons.2.1 hplaced.2.2.1 hin).inside ?_ hholds
        rw [kind_lowered, if_neg]
        intro he
        rw [he] at hop
        exact hop rfl
  | deleteName hl | function hl =>
    exact absurd hin (hoperand hplaced (by rw [hl]; rfl))
  | var hl => exact (hroot hplaced hin (by rw [hl]; exact ⟨rfl, (by simp), rfl⟩)).elim
  | jump hl | lost hl =>
    exact (hroot hplaced hin
      (by rcases hl with hl | hl <;> rw [hl] <;> exact ⟨rfl, (by simp), rfl⟩)).elim
  | @ret E w past id l steps hl hpast hsteps hnew =>
    obtain rfl := hplaced.eq_of_mem_places hin hkind (by rw [hl]; rfl) (by simp [hl])
    exact Lowered.lowers (w := w) (.ret hl hpast hsteps hnew) rfl
  | retValue hl hpast hsteps hvalue =>
    obtain rfl := hplaced.eq_of_mem_places hin hkind (by rw [hl]; rfl) (by simp [hl])
    exact Lowered.lowers (.retValue hl hpast hsteps hvalue) rfl
  | retLater hl hpast hsome hvalue hsteps hnew hblock hstore hback =>
    obtain rfl := hplaced.eq_of_mem_places hin hkind (by rw [hl]; rfl) (by simp [hl])
    exact Lowered.lowers (.retLater hl hpast hsome hvalue hsteps hnew hblock hstore hback) rfl
  | @switch E w past id l data selector clauses hs hc stop events events' hl hdata hnew
      hselector hclauses _ ih =>
    rw [places_simple (by simp [hl]) (by simp [hl]), List.mem_cons, Forest.places_append,
      List.mem_append] at hin
    obtain ⟨sid, sl, sk, rfl, -⟩ := hselector.single
    have hkids := hplaced.2.2.1
    rw [hl] at hkids
    rcases hin with rfl | hin | hin
    · exact Lowered.lowers (.switch hl hdata hnew hselector hclauses) rfl
    · -- The selector is an expression.
      have hselected : (Forest.tree sid sl sk).Placed limits Token.isOperand Token.isOperand :=
        ⟨hkids.1, hkids.2.1, hkids.2.2.1, trivial⟩
      exact absurd hin (hoperand hselected hkids.1)
    · have hsold := hold.cons.2.1
      have hp := ih (by simp) hsold.append.2 hkids.2.2.2 hin
      exact (hp.left (stems_new (g := .nil) hnew)).map fun hin =>
        .behind rfl hl (hselector.stems hsold.append.1) (by rwa [append_nil] at hin)
  | @loop E w past id l j body hb stop ls continueTo events hl _ _ _ _ hbody hstop _ ih =>
    rw [places_simple (by simp [hl]) (by simp [hl]), List.mem_cons, Forest.places_append,
      List.mem_append] at hin
    have hkids := hplaced.2.2.1
    rw [hl] at hkids
    rcases hin with rfl | hin | hin
    · exact (hnot (by rw [hl]; rfl) rfl).elim
    · refine Place.Lowers.inside (.left (ih (by simp) hold.cons.2.1.append.1
        (placed_append.mp hkids).1 hin) (stems_self _)) rfl (by rw [hl]; rfl)
    · exact absurd hin (hleaf (by rw [hstop]; rfl))
  | @tryCatch E w past id l j kids h events hl hdata hfinally hkids ih =>
    have hnone : l.finallyTarget? = none := (finallyTarget?_eq hl hdata).trans hfinally
    rw [places_tree, hnone, unwindings, if_neg (by simp [hl]), List.nil_append,
      List.mem_cons] at hin
    rcases hin with rfl | hin
    · exact (hnot (by rw [hl]; rfl) rfl).elim
    · exact (ih (by simp) hold.cons.2.1 hplaced.2.2.1 hin).inside rfl (by rw [hl]; rfl)
  | @tryFinally E w past id l j guarded hg entry le final hf back lb stop ls events events' hl hdata
      hfinally hguarded hentry _ hfinal hback hstop _ ihg ihf =>
    have hsome : l.finallyTarget? = some entry := (finallyTarget?_eq hl hdata).trans hfinally
    obtain ⟨-, hkids, -⟩ := hold.cons
    have hends := hkids.append.2.cons.2.2
    have hplaced' := hplaced.2.2.1
    rw [hl] at hplaced'
    obtain ⟨hpg, -, -, -, hpf⟩ := placed_append.mp hplaced'
    rw [places_tree, hsome, unwindings, if_neg (by simp [hl]), List.nil_append,
      List.mem_cons, places_guarded hkids.not_mem_roots, List.mem_append,
      mem_places_cons, Forest.places_append, List.mem_append] at hin
    have hinside {f h : Forest} (hp : place.Lowers site f h) :
        place.Lowers site (.tree id l f) (.tree id l h) := hp.inside rfl (by rw [hl]; rfl)
    rcases hin with rfl | hin | hin | hin | hin
    · exact (hnot (by rw [hl]; rfl) rfl).elim
    · exact hinside (.left (ihg (by simp) hkids.append.1 hpg hin)
        (.cons (stems_self _) (.append (hfinal.stems hends.append.1) (stems_self _))))
    · exact absurd hin (hleaf (by rw [hentry]; rfl))
    · -- The finally block itself is not guarded.
      exact hinside (.right (.behind (.left (ihf (by simp) hends.append.1
        (placed_append.mp hpf).1 hin) (stems_self _))) (hguarded.becomes (by simp)))
    · rcases mem_places_cons.mp hin with hin | hin
      · exact absurd hin (hleaf (by rw [hback]; rfl))
      · exact absurd hin (hleaf (by rw [hstop]; rfl))
  | nil => cases hin
  | @target E w past id l rest hr events hl _ hrest ih =>
    rw [mem_places_cons] at hin
    rcases hin with hin | hin
    · exact absurd hin (hleaf (by rw [hl]; rfl))
    · exact (ih (by simp) hold.cons.2.2 hplaced.2.2.2 hin).behind
  | @labelled E inner w past labels id l kids rest front h stop hr complaints events events'
      hopen hnew hone hrest iho ihr =>
    obtain ⟨-, head', hplaced'⟩ := hplaced.of_append
    have hstatement : (Forest.tree id l kids ++ rest).Old site.first := hold.append.2
    have hself : (Forest.tree id l kids).Placed limits head' tail :=
      ⟨hplaced'.1, hplaced'.2.1, hplaced'.2.2.1, trivial⟩
    have hstop := stems_target (l := .ofKind .target) hnew
    rw [Forest.places_append, List.mem_append, mem_places_cons] at hin
    rcases hin with hin | hin | hin
    · exact (hnot (isReplaced_labelForest hin) rfl).elim
    · rw [← hopen.unwindings_eq] at hin
      refine .right ?_ hopen.becomes
      exact .left (f := .tree id l kids) (iho (by simp) hstatement.append.1 hself hin)
        (hstop.append (hrest.stems hstatement.append.2))
    · have hp := ihr (by simp) hstatement.append.2 hplaced'.2.2.2 hin
      have hnil : Lowered site E .list w (met past events) .nil .nil [] := .nil
      have hfront := (Lowered.labelled hopen hnew hone hnil).becomes (by simp)
      simpa [append_assoc] using hp.right hfront
  | @withScope E w past enter le object ho inner li body hb leave lv rest hr events events' events''
      henter hobject hinner hbody hleave hrest _ ihb ihr =>
    obtain ⟨hid, hobjectOld, hnext⟩ := hold.cons
    obtain ⟨hid', hbodyOld, hlast⟩ := hnext.cons
    obtain ⟨hpe, hpen, hpo, -, -, hpb, -, -, -, hpr⟩ := hplaced
    have hentered : (Forest.tree enter le object).Placed limits head tail :=
      ⟨hpe, hpen, hpo, trivial⟩
    rcases mem_places_cons.mp hin with hin | hin
    · exact absurd hin (hoperand hentered (by rw [henter]; rfl))
    rcases mem_places_cons.mp hin with hin | hin
    · rw [places_tree, finallyTarget?_eq_none (by simp [hinner]), Node.unwindings,
        if_pos hinner, List.mem_cons] at hin
      rcases hin with rfl | hin
      · exact (hnot (by rw [hinner]; rfl) rfl).elim
      · refine .behind ?_
        exact .left (f := .tree inner li body) (.inside (ihb (by simp) hbodyOld hpb hin) rfl
          (by rw [hinner]; rfl)) (.cons (stems_self _) (hrest.stems hlast.cons.2.2))
    rcases mem_places_cons.mp hin with hin | hin
    · exact absurd hin (hleaf (by rw [hleave]; rfl))
    · exact .behind (.behind (.behind (ihr (by simp) hlast.cons.2.2 hpr hin)))
  | @exit E w past leave lv skip lg target rest hr events hleave hskip _ _ hrest ih =>
    obtain ⟨hid, -, hnext⟩ := hold.cons
    rcases mem_places_cons.mp hin with hin | hin
    · exact absurd hin (hleaf (by rw [hleave]; rfl))
    rcases mem_places_cons.mp hin with hin | hin
    · exact absurd hin (hleaf (by rw [hskip]; rfl))
    · exact .behind (.behind (ih (by simp) hnext.cons.2.2 hplaced.2.2.2.2.2.2 hin))
  | declNil | decl | declInit => exact absurd rfl hform

end Lowered

/-! ## Operands -/

/-- Expressions as lowering leaves them: in their places, with a mark at calls that can see the
scope of their caller. -/
def Forest.marked (inFunction : Bool) : Forest → Forest
  | .nil => .nil
  | .cons id l kids rest =>
    .cons id (l.lowered inFunction kids) (kids.marked inFunction) (rest.marked inFunction)

private theorem Node.lowered_eq {inFunction : Bool} (hkind : l.kind ≠ .exprStmt)
    (hcall : l.kind ≠ .call) (hnew : l.kind ≠ .new) : l.lowered inFunction kids = l := by
  unfold lowered
  split <;> simp_all

private theorem Forest.marked_append (inFunction : Bool) (f g : Forest) :
    (f ++ g).marked inFunction = f.marked inFunction ++ g.marked inFunction := by
  induction f with
  | nil => rfl
  | cons id l kids rest _ ih => simp [marked, ih]

/-- What operands are lowered to. -/
theorem Lowered.operands_eq (hlow : Lowered site E form w past f h events) (hform : form ≠ .decls)
    (hplaced : f.Placed limits Token.isOperand Token.isOperand) : h = f.marked site.inFunction := by
  induction hlow with
  | plain _ _ _ _ ih =>
    obtain ⟨hkind, -, hkids, -⟩ := hplaced
    rw [headBelow_of_isOperand hkind, tailBelow_of_isOperand hkind] at hkids
    rw [ih (by simp) hkids, marked, marked]
  | deleteName hl hb hk =>
    simp [marked, lowered_eq, hl, hb, hk]
  | function hl => simp [marked, lowered_eq, hl]
  | nil => rfl
  | @labelled E inner w past labels id l kids rest front h stop hr complaints events events'
      hopen _ _ _ iho ihr =>
    cases labels with
    | nil =>
      cases hopen
      obtain ⟨hkind, hnests, hkids, hrest⟩ := hplaced
      rw [iho (by simp) ⟨hkind, hnests, hkids, trivial⟩, ihr (by simp) hrest, if_pos rfl]
      exact (marked_append _ (.tree id l kids) rest).symm
    | cons a labels =>
      have hkind := hplaced.1
      simp [isOperand] at hkind
  | exit hl hs _ _ _ ih =>
    obtain ⟨-, -, -, -, -, -, hrest⟩ := hplaced
    rw [ih (by simp) hrest]
    simp [marked, lowered_eq, hl, hs]
  | withScope _ _ hl =>
    have hkind := hplaced.2.2.2.1
    simp [hl, isOperand] at hkind
  | jump hl | lost hl =>
    have hkind := hplaced.1
    rcases hl with hl | hl <;> simp [hl, isOperand] at hkind
  | var hl | ret hl | retValue hl | retLater hl | switch hl | loop hl | tryCatch hl | tryFinally hl
  | target hl =>
    have hkind := hplaced.1
    simp [hl, isOperand] at hkind
  | declNil | decl | declInit => exact absurd rfl hform

/-- The operands of a node stay its operands. -/
theorem Lowered.operandKept (hlow : Lowered site E .one w past f h events)
    (hplaced : f.Placed limits Token.isOperand Token.isOperand)
    (hs : Slotted rules p changes cut h k) : f.OperandKept rules.first k := by
  obtain ⟨id, l, kids, rfl, -⟩ := hlow.single
  obtain ⟨l', kids', rfl, hdelete⟩ : ∃ l' kids', h = .tree id l' kids' ∧
      (l'.kind = .delProp → l.kind = .delProp) :=
    ⟨_, _, hlow.operands_eq (by simp) hplaced, fun hk => kind_of_lowered hk (by simp) (by simp)⟩
  cases hs with
  | keep _ _ hrest | getVar _ _ _ _ hrest | setVar _ _ _ _ _ _ hrest =>
    rw [hrest.nil_inv.2.2]
    exact .same
  | deleted _ hkind _ _ hnew hrest =>
    rw [hrest.nil_inv.2.2]
    exact .deleted (hdelete hkind) hnew

/-! ## Bodies -/

section

variable {t : Tree}

/-- What is below a place stands where its node may hold it. -/
theorem Forest.Placed.place {place : Place} (h : f.Placed limits head tail)
    (hin : place ∈ f.places outer entry) :
    place.kids.Placed limits place.label.kind.headBelow place.label.kind.tailBelow := by
  induction f generalizing outer entry head tail with
  | nil => cases hin
  | cons id l kids rest ihk ihr =>
    obtain ⟨-, -, hkids, hrest⟩ := h
    rw [Forest.places, List.mem_cons, List.mem_append] at hin
    rcases hin with rfl | hin | hin
    exacts [hkids, ihk hkids hin, ihr hrest hin]

theorem Forest.nodup_place {place : Place} (h : f.ids.Nodup)
    (hin : place ∈ f.places outer entry) : place.kids.ids.Nodup := by
  induction f generalizing outer entry with
  | nil => cases hin
  | cons id l kids rest ihk ihr =>
    rw [ids_cons, List.nodup_cons, List.nodup_append] at h
    rw [Forest.places, List.mem_cons, List.mem_append] at hin
    rcases hin with rfl | hin | hin
    exacts [h.2.1, ihk h.2.1 hin, ihr h.2.2.1 hin]

/-- The tree of a place is spelled as the forest is. -/
theorem Tree.Spells.place {place : Place} (h : t.Spells f)
    (hin : place ∈ f.places outer entry) : t.Spells place.tree := by
  induction f generalizing outer entry with
  | nil => cases hin
  | cons id l kids rest ihk ihr =>
    obtain ⟨hnode, hkids, hrest⟩ := h
    rw [Forest.places, List.mem_cons, List.mem_append] at hin
    rcases hin with rfl | hin | hin
    exacts [⟨hnode, hkids, trivial⟩, ihk hkids hin, ihr hrest hin]

/-- Siblings in one tree, and what has become of them in another one. -/
def Tree.Become (t t' : Tree) (first : Nat) (siblings siblings' : List NodeId) : Prop :=
  ∃ f h : Forest, t.Spells f ∧ t'.Spells h ∧ f.roots = siblings ∧ h.roots = siblings' ∧
    f.Becomes first h

/-- Below one of some nodes of the second tree, `made` is a run of siblings. There `tree` stood in
the first one, behind what the siblings in front have become, unless it is a clause: these are moved
out of their switch. -/
def Forest.StandsFor (t t' : Tree) (limits : Limits) (first : Nat) (tree made : Forest)
    (nodes : List NodeId) : Prop :=
  t'.Spells made ∧ ∃ parent ∈ nodes, ∃ before' after',
    t'.children parent = before' ++ (made.roots ++ after') ∧
    (tree.Placed limits Token.isClause Token.isClause ∨
      ∃ before after, t.children parent = before ++ (tree.roots ++ after) ∧
        t.Become t' first before before')

private theorem Forest.StandsFor.mono {tree : Forest} {nodes nodes' : List NodeId}
    (h : StandsFor t t' limits first tree made nodes) (hsub : ∀ x ∈ nodes, x ∈ nodes') :
    StandsFor t t' limits first tree made nodes' := by
  obtain ⟨hmade, parent, hmem, hrest⟩ := h
  exact ⟨hmade, parent, hsub parent hmem, hrest⟩

/-- What is in the place of a tree stands for it in the child lists. -/
theorem Forest.InPlace.standsFor {tree front' : Forest} {top : NodeId}
    {back' : List NodeId} (hin : InPlace first tree made f h) (hf : t.Spells f)
    (hh : t'.Spells h) (hplaced : f.Placed limits head tail)
    (htop' : t'.children top = front'.roots ++ (h.roots ++ back')) (hfront' : t'.Spells front')
    (hsame : f.Placed limits Token.isClause Token.isClause ∨ ∃ front back, t.Spells front ∧
      t.children top = front.roots ++ (f.roots ++ back) ∧ front.Becomes first front') :
    StandsFor t t' limits first tree made (top :: h.ids) := by
  induction hin generalizing head tail top front' back' with
  | here =>
    refine ⟨hh, top, by simp, front'.roots, back', htop', hsame.imp_right ?_⟩
    rintro ⟨front, back, hfront, htop, hbecomes⟩
    exact ⟨front.roots, back, htop, front, front', hfront, hfront', rfl, rfl, hbecomes⟩
  | left _ _ ih =>
    rw [roots_append, List.append_assoc] at htop'
    refine (ih (Tree.spells_append.mp hf).1 (Tree.spells_append.mp hh).1 hplaced.of_append.1
      htop' hfront' (hsame.imp (fun h => (placed_append.mp h).1) ?_)).mono ?_
    · rintro ⟨front, back, hfront, htop, hbecomes⟩
      exact ⟨front, _, hfront, by simpa using htop, hbecomes⟩
    · intro x
      simp only [ids_append, List.mem_cons, List.mem_append]
      tauto
  | @right f h g k hbecome _ ih =>
    obtain ⟨-, _, hplaced⟩ := hplaced.of_append
    obtain ⟨hf, hg⟩ := Tree.spells_append.mp hf
    obtain ⟨hh, hk⟩ := Tree.spells_append.mp hh
    have hafter : t'.children top = (front' ++ h).roots ++ (k.roots ++ back') := by
      simpa using htop'
    refine (ih hg hk hplaced hafter (Tree.spells_append.mpr ⟨hfront', hh⟩)
      (hsame.imp (fun h => (placed_append.mp h).2) ?_)).mono ?_
    · rintro ⟨front, back, hfront, htop, hbecomes⟩
      exact ⟨front ++ f, back, Tree.spells_append.mpr ⟨hfront, hf⟩, by simpa using htop,
        hbecomes.append hbecome⟩
    · intro x
      simp only [ids_append, List.mem_cons, List.mem_append]
      tauto
  | @inside id l l' kids kids' _ _ _ ih =>
    obtain ⟨⟨-, -, hchildren⟩, hkids, -⟩ := hf
    obtain ⟨⟨-, -, hchildren'⟩, hkids', -⟩ := hh
    have hbelow : t'.children id = Forest.nil.roots ++ (kids'.roots ++ []) := by
      simpa using hchildren'
    refine (ih hkids hkids' hplaced.2.2.1 hbelow trivial
      (.inr ⟨.nil, [], trivial, by simpa using hchildren, .nil⟩)).mono ?_
    intro x
    simp only [ids_cons, ids_nil, List.append_nil, List.mem_cons]
    tauto
  | @behind id l l' sid sl sk selector clauses rest hkind hswitch _ _ ih =>
    obtain ⟨-, ⟨-, -, hclauses⟩, -⟩ := hf
    obtain ⟨hself, hselector, hrest⟩ := hh
    have hmoved : t'.Spells (.tree id l' selector) := ⟨hself, hselector, trivial⟩
    have hkids := hplaced.2.2.1
    rw [hswitch] at hkids
    have hafter : t'.children top =
        (front' ++ .tree id l' selector).roots ++ (rest.roots ++ back') := by simpa using htop'
    refine (ih hclauses hrest hkids.2.2.2 hafter (Tree.spells_append.mpr ⟨hfront', hmoved⟩)
      (.inl hkids.2.2.2)).mono ?_
    intro x
    simp only [ids_cons, List.mem_cons, List.mem_append]
    tauto

end

namespace Layout

variable {L : Layout} {config : Config} {s : LoweringState} {j : BodyId} {first : Nat}

/-- What a return or a switch of a body has been made of stands in its place. -/
theorem Done.exists_inPlace (hframed : L.program.Framed []) (hs : L.Sound s)
    (hd : L.Done config s j first) (hj : j.index < L.size) {place : ScriptEngine.Place}
    (hin : place ∈ (L.program.statements j).places [] none) (hkind : place.label.kind.isReplaced) :
    ∃ E w past made events p changes cut made',
      Lowered (L.site config j) E .one w past place.tree made events ∧
      place.around = Scope.unwindings E ∧
      Slotted ((s.program.body j).slotRules L.nodeCount) p changes cut made made' ∧
      Forest.InPlace L.nodeCount place.tree made' (L.program.statements j)
        (s.program.statements j) := by
  obtain ⟨h, events, changes, cut, hlow, hslotted⟩ := hd.exists_slotted hs
  rw [← L.statements_eq hj] at hlow
  have hold : (L.program.statements j).Old (L.site config j).first := by
    rw [L.statements_eq hj]
    exact ⟨kids_nodup hj, fun q hq => kids_lt hj hq⟩
  obtain ⟨E, w, past, made, inside, hmade, haround, hplace⟩ :=
    hlow.exists_inPlace (by simp) hold (hframed.placed hj) hin hkind
  obtain ⟨p, changes', cut', made', hslots, hplace'⟩ := hplace.slotted hslotted
  exact ⟨E, w, past, made, inside, p, changes', cut', made', hmade, haround, hslots, hplace'⟩

/-- What is in place in a lowered body stands for the tree it comes from. -/
theorem Done.standsFor (hframed : L.program.Framed []) (hs : L.Sound s)
    (hd : L.Done config s j first) (hj : j.index < L.size) {tree : Forest}
    (hin : Forest.InPlace L.nodeCount tree made (L.program.statements j) (s.program.statements j)) :
    Forest.StandsFor L.program.tree s.tree (L.program.limits j) L.nodeCount tree made
      (L.root j :: (s.program.statements j).ids) := by
  obtain ⟨l, ⟨⟨-, -, hroots⟩, -⟩, -⟩ := L.stands j hj
  obtain ⟨⟨⟨-, -, hroots'⟩, hspells, -⟩, -⟩ := hd.stands hs
  rw [← L.statements_eq hj] at hroots
  have hbelow : s.tree.children (L.root j) =
      Forest.nil.roots ++ ((s.program.statements j).roots ++ []) := by simpa using hroots'
  exact hin.standsFor (L.spells_statements hj) hspells (hframed.placed hj) hbelow trivial
    (.inr ⟨.nil, [], trivial, by simpa using! hroots, .nil⟩)

end Layout

end ScriptEngine
