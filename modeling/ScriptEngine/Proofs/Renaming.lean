import ScriptEngine.Proofs.Enclosures
import ScriptEngine.Proofs.References

/-!
# Other names for new nodes

The nodes that lowering makes have no names of their own: what matters is where they stand and what
refers to them. `Forest.rename` gives the nodes of a forest other names, in the references of its
labels too.

Forests are compared by their lists of nodes. `Forest.Alike` says that one is the other renamed by
every renaming that takes the first list to the second and has some properties besides, such as
taking the scopes around the first to those around the second.
-/

namespace ScriptEngine

open NodeData

variable {ρ : NodeId → NodeId} {first : Nat} {l l' : Node} {d : NodeData} {f : Forest} {t : Tree}
  {scope scope' : Scope}

/-! ## Renaming -/

def JumpData.rename (ρ : NodeId → NodeId) (j : JumpData) : JumpData where
  target := j.target.map ρ
  continueTarget := j.continueTarget.map ρ
  finallyTarget := j.finallyTarget.map ρ
  label := j.label

def SwitchData.rename (ρ : NodeId → NodeId) (s : SwitchData) : SwitchData where
  target := s.target.map ρ
  cases := s.cases.map ρ
  fallback := s.fallback.map ρ

def NodeData.rename (ρ : NodeId → NodeId) : NodeData → NodeData
  | .none => .none
  | .jump j => .jump (j.rename ρ)
  | .switch s => .switch (s.rename ρ)
  | .function body => .function body

def AttrValue.rename (ρ : NodeId → NodeId) : AttrValue → AttrValue
  | .int n => .int n
  | .node id => .node (ρ id)

def Attrs.rename (ρ : NodeId → NodeId) (a : Attrs) : Attrs :=
  ⟨a.entries.map fun e => (e.1, e.2.rename ρ)⟩

/-- Renames the nodes that a node refers to. -/
def Node.rename (ρ : NodeId → NodeId) (n : Node) : Node :=
  { n with data := n.data.rename ρ, attrs := n.attrs.rename ρ }

def Scope.rename (ρ : NodeId → NodeId) : Scope → Scope
  | .loop node stop continueTo => .loop (ρ node) (ρ stop) (ρ continueTo)
  | .switch node stop => .switch (ρ node) (ρ stop)
  | .withBody node leave => .withBody (ρ node) (ρ leave)
  | .label node name stop continueTo => .label (ρ node) name (ρ stop) (continueTo.map ρ)
  | .guarded node entry => .guarded (ρ node) (ρ entry)

/-- Gives other names to the nodes of a forest. -/
def Forest.rename (ρ : NodeId → NodeId) : Forest → Forest
  | .nil => .nil
  | .cons id l kids rest => .cons (ρ id) (l.rename ρ) (kids.rename ρ) (rest.rename ρ)

/-- The renaming keeps the nodes before a bound. -/
def Fixes (first : Nat) (ρ : NodeId → NodeId) : Prop := ∀ q : NodeId, q.index < first → ρ q = q

/-- The label is kept by every renaming that keeps the nodes before a bound. -/
def Node.Fixed (first : Nat) (l : Node) : Prop := ∀ ρ, Fixes first ρ → l.rename ρ = l

/-- Data are kept by a renaming that keeps the nodes that they refer to. -/
theorem NodeData.rename_eq_self (h : ∀ r ∈ d.refs, ρ r = r) : d.rename ρ = d := by
  have hkept {x : Option NodeId} (hx : ∀ r ∈ x.toList, ρ r = r) : x.map ρ = x :=
    (Option.map_congr fun r hr => hx r (by simp [hr])).trans Option.map_id'
  cases d with
  | none | function => rfl
  | jump j =>
    simp only [refs, List.mem_append] at h
    simp only [rename, JumpData.rename, hkept fun r hr => h r (.inl hr),
      hkept fun r hr => h r (.inr (.inl hr)), hkept fun r hr => h r (.inr (.inr hr))]
  | switch s =>
    simp only [refs, List.mem_append] at h
    simp only [rename, SwitchData.rename, hkept fun r hr => h r (.inl hr),
      List.map_congr_left fun r hr => h r (.inr (.inl hr)), List.map_id',
      hkept fun r hr => h r (.inr (.inr hr))]

/-- A label whose references lead to nodes before the bound. -/
theorem Node.RefersBelow.fixed (h : l.RefersBelow first) : l.Fixed first := by
  intro ρ hρ
  have hkeep (r : NodeId) (hr : r ∈ l.refs) : ρ r = r := hρ r (h r hr)
  have hdata : l.data.rename ρ = l.data :=
    rename_eq_self fun r hr => hkeep r (List.mem_append_left _ hr)
  have hattrs : l.attrs.rename ρ = l.attrs := by
    refine congrArg Attrs.mk ((List.map_congr_left fun e he => ?_).trans (List.map_id' _))
    have hvalue : e.2.rename ρ = e.2 := by
      cases hv : e.2 with
      | int => rfl
      | node id =>
        rw [AttrValue.rename, hkeep id]
        exact List.mem_append_right _ (List.mem_flatMap.mpr ⟨e, he, by simp [hv, AttrValue.refs]⟩)
    rw [hvalue]
  rw [Node.rename, hdata, hattrs]

/-- A label refers to no more than its node. -/
theorem Node.RefersBelow.label (h : l.RefersBelow first) : l.label.RefersBelow first := by
  intro r hr
  refine h r ?_
  simp only [refs, Node.label, detached, List.mem_append] at hr ⊢
  refine hr.imp_left fun hr => ?_
  cases hd : l.data with
  | switch s =>
    rw [hd] at hr
    exact List.mem_append_left _ (by simpa [NodeData.withoutClauses, NodeData.refs] using hr)
  | none | jump | function => rwa [hd] at hr

private theorem NodeData.rename_ofKind (kind : Token) :
    (NodeData.ofKind kind).rename ρ = .ofKind kind := by
  unfold ofKind
  split
  · rfl
  · split <;> rfl

private theorem NodeData.rename_eq_none : d.rename ρ = .none ↔ d = .none := by
  cases d <;> simp [rename]

/-- Renaming leaves kinds alone. -/
theorem Node.rename_withKind (kind : Token) :
    (l.withKind kind).rename ρ = (l.rename ρ).withKind kind := by
  simp only [rename, withKind, rename_eq_none]
  split
  · rw [rename_ofKind]
  · rfl

private theorem Attrs.get?_rename (a : Attrs) (key : AttrKey) :
    (a.rename ρ).get? key = (a.get? key).map (AttrValue.rename ρ) := by
  obtain ⟨entries⟩ := a
  show (entries.map fun e => (e.1, e.2.rename ρ)).lookup key =
    (entries.lookup key).map (AttrValue.rename ρ)
  induction entries with
  | nil => rfl
  | cons e rest ih =>
    rw [List.map_cons, List.lookup_cons, List.lookup_cons]
    cases key == e.1 with
    | true => rfl
    | false => exact ih

private theorem Attrs.rename_insert (a : Attrs) (key : AttrKey) (value : AttrValue) :
    (a.insert key value).rename ρ = (a.rename ρ).insert key (value.rename ρ) := by
  unfold insert
  rw [get?_rename, Option.isSome_map]
  split
  · simp only [rename, List.map_map]
    congr 1
    refine List.map_congr_left fun e _ => ?_
    by_cases hkey : e.1 = key <;> simp [hkey]
  · simp [rename]

theorem Node.rename_withAttr (key : AttrKey) (value : AttrValue) :
    (l.withAttr key value).rename ρ = (l.rename ρ).withAttr key (value.rename ρ) := by
  simp only [rename, withAttr, Attrs.rename_insert]

theorem Node.rename_withJump (j : JumpData) :
    (l.withJump j).rename ρ = (l.rename ρ).withJump (j.rename ρ) := rfl

theorem Node.rename_withStop (stop : Option NodeId) :
    (l.withStop stop).rename ρ = (l.rename ρ).withStop (stop.map ρ) := rfl

/-- A new node refers to nothing. -/
theorem Node.fixed_ofKind (kind : Token) : (Node.ofKind kind).Fixed first := by
  intro ρ _
  rw [rename, ofKind, rename_ofKind]
  rfl

theorem Node.Fixed.withLine (h : l.Fixed first) (line : Option Nat) :
    (l.withLine line).Fixed first := by
  intro ρ hρ
  have hdata : l.data.rename ρ = l.data := congrArg Node.data (h ρ hρ)
  have hattrs : l.attrs.rename ρ = l.attrs := congrArg Node.attrs (h ρ hρ)
  simp only [rename, Node.withLine, hdata, hattrs]

theorem Node.fixed_ofKindAt (kind : Token) (line : Option Nat) :
    (Node.ofKindAt kind line).Fixed first := (Node.fixed_ofKind kind).withLine line

theorem Node.Fixed.withKind (h : l.Fixed first) (kind : Token) : (l.withKind kind).Fixed first := by
  intro ρ hρ
  rw [rename_withKind, h ρ hρ]

/-- Lowering a node in its place adds no references. -/
theorem Node.Fixed.lowered (h : l.Fixed first) (inFunction : Bool) (kids : Forest) :
    (l.lowered inFunction kids).Fixed first := by
  intro ρ hρ
  unfold Node.lowered
  split
  · rw [rename_withKind, h ρ hρ]
  · split
    · rw [rename_withAttr, h ρ hρ]
      rfl
    · exact h ρ hρ
  · split
    · rw [rename_withAttr, h ρ hρ]
      rfl
    · exact h ρ hρ
  · exact h ρ hρ

/-- The targets of a label that is kept are kept. -/
theorem Node.Fixed.jump (h : l.Fixed first) {j : JumpData} (hdata : l.data = .jump j)
    (hρ : Fixes first ρ) : j.rename ρ = j := by
  have hd : l.data.rename ρ = l.data := congrArg Node.data (h ρ hρ)
  rw [hdata] at hd
  injection hd

namespace Forest

variable {g : Forest}

@[simp] theorem rename_nil : Forest.nil.rename ρ = .nil := rfl

@[simp] theorem rename_append : (f ++ g).rename ρ = f.rename ρ ++ g.rename ρ := by
  induction f with
  | nil => rfl
  | cons id l kids rest _ ih => simp [rename, ih]

private theorem roots_rename : (f.rename ρ).roots = f.roots.map ρ := by
  induction f with
  | nil => rfl
  | cons id l kids rest _ ih => simp [rename, ih]

/-- The nodes are before a bound, and the labels are kept by every renaming that keeps these. -/
def Settled (first : Nat) : Forest → Prop
  | .nil => True
  | .cons id l kids rest =>
    (id.index < first ∧ l.Fixed first) ∧ kids.Settled first ∧ rest.Settled first

@[simp] theorem settled_append : (f ++ g).Settled first ↔ f.Settled first ∧ g.Settled first := by
  induction f with
  | nil => simp [Settled]
  | cons id l kids rest _ ih => simp [Settled, ih, and_assoc]

end Forest

/-- In a raw arena no label refers to what is not there. -/
theorem Tree.Spells.settled (h : t.Spells f) (hraw : t.Raw) : f.Settled t.size := by
  induction f with
  | nil => trivial
  | cons id l kids rest ihk ihr =>
    obtain ⟨⟨hb, hl, -⟩, hk, hr⟩ := h
    refine ⟨⟨hb, ?_⟩, ihk hk, ihr hr⟩
    rw [← hl]
    exact (hraw id).refers.label.fixed

/-! ## Arenas that differ in names -/

/-- The data of a node are what its label tells, and the clauses. -/
theorem NodeData.eq_rename {d' : NodeData} (hlabel : d'.withoutClauses = d.withoutClauses.rename ρ)
    (hclauses : d'.clauses = d.clauses.rename ρ) : d' = d.rename ρ := by
  cases d' with
  | switch s' =>
    cases d with
    | switch s =>
      have htarget : s'.target = s.target.map ρ :=
        congrArg SwitchData.target (NodeData.switch.inj hlabel)
      have hcases : s'.cases = s.cases.map ρ := congrArg SwitchData.cases hclauses
      have hfallback : s'.fallback = s.fallback.map ρ := congrArg SwitchData.fallback hclauses
      rw [rename, SwitchData.rename, ← htarget, ← hcases, ← hfallback]
    | none | jump | function => cases hlabel
  | none | jump | function =>
    cases d with
    | switch => cases hlabel
    | none | jump | function => exact hlabel

/-- A node is what its label tells, and the clauses, apart from links. -/
theorem Node.detached_eq_rename {n n' : Node} (hlabel : n'.label = n.label.rename ρ)
    (hclauses : n'.data.clauses = n.data.clauses.rename ρ) : n'.detached = n.detached.rename ρ := by
  have hdata : n'.data = n.data.rename ρ :=
    eq_rename (congrArg Node.data hlabel) hclauses
  have hlabel' : n'.detached = { n.label.rename ρ with data := n'.data } := by
    rw [← hlabel]
    rfl
  rw [hlabel', hdata]
  rfl

/-- An arena with a forest and one with the forest renamed, node by node. -/
theorem Tree.Spells.rename {t' : Tree} (h : t.Spells f)
    (h' : t'.Spells (f.rename ρ)) {q : NodeId} (hq : q ∈ f.ids) :
    t'.label (ρ q) = (t.label q).rename ρ ∧ t'.children (ρ q) = (t.children q).map ρ := by
  induction f with
  | nil => simp at hq
  | cons id l kids rest ihk ihr =>
    obtain ⟨⟨-, hl, hc⟩, hk, hr⟩ := h
    obtain ⟨⟨-, hl', hc'⟩, hk', hr'⟩ := h'
    simp only [Forest.ids_cons, List.mem_cons, List.mem_append] at hq
    rcases hq with rfl | hq | hq
    · exact ⟨by rw [hl', hl], by rw [hc', hc, Forest.roots_rename]⟩
    · exact ihk hk hk' hq
    · exact ihr hr hr' hq

/-! ## Forests that differ in names -/

/-- What a node says apart from its references. -/
def Node.bare (n : Node) : Node := { n with data := .none, attrs := {} }

section

variable (h : l'.bare = l.bare)

include h

theorem Node.kind_of_bare : l'.kind = l.kind := (congrArg Node.kind h :)

theorem Node.line_of_bare : l'.line = l.line := (congrArg Node.line h :)

theorem Node.string?_of_bare : l'.string? = l.string? := (congrArg Node.string? h :)

end

/-- One node for another: it is the same, or both are new. -/
def Matches (first : Nat) (q q' : NodeId) : Prop := q' = q ∨ first ≤ q.index ∧ first ≤ q'.index

theorem Matches.refl (q : NodeId) : Matches first q q := .inl rfl

namespace Forest

/-- The forests have the same shape and their nodes say the same, apart from references. -/
def Twin (first : Nat) : Forest → Forest → Prop
  | .nil, .nil => True
  | .cons id l kids rest, .cons id' l' kids' rest' =>
    (Matches first id id' ∧ l'.bare = l.bare) ∧ kids.Twin first kids' ∧ rest.Twin first rest'
  | _, _ => False

/-- The forests are twins, and the second is the first renamed by every renaming with some
properties that takes the nodes of the first to those of the second. -/
structure Alike (first : Nat) (P : (NodeId → NodeId) → Prop) (h h' : Forest) : Prop where
  twin : h.Twin first h'
  eq_rename : ∀ ρ, P ρ → h'.ids = h.ids.map ρ → h' = h.rename ρ

variable {P Q : (NodeId → NodeId) → Prop}
  {a a' b b' h h' : Forest} {id id' : NodeId}

namespace Twin

private theorem append (ha : a.Twin first a') (hb : b.Twin first b') :
    (a ++ b).Twin first (a' ++ b') := by
  induction a generalizing a' with
  | nil =>
    cases a' with
    | nil => exact hb
    | cons => exact ha.elim
  | cons id l kids rest _ ih =>
    cases a' with
    | nil => exact ha.elim
    | cons id' l' kids' rest' => exact ⟨ha.1, ha.2.1, ih ha.2.2⟩

/-- Twins have matching nodes in the same places. -/
theorem forall_ids (h : a.Twin first a') : List.Forall₂ (Matches first) a.ids a'.ids := by
  induction a generalizing a' with
  | nil =>
    cases a' with
    | nil => exact .nil
    | cons => exact h.elim
  | cons id l kids rest ihk ihr =>
    cases a' with
    | nil => exact h.elim
    | cons id' l' kids' rest' => exact .cons h.1.1 (List.rel_append (ihk h.2.1) (ihr h.2.2))

theorem length_eq (h : a.Twin first a') : a'.ids.length = a.ids.length :=
  h.forall_ids.length_eq.symm

end Twin

/-- Forests that correspond node by node do so part by part. -/
theorem ids_split (ha : a'.ids.length = a.ids.length) (hids : (a' ++ b').ids = (a ++ b).ids.map ρ) :
    a'.ids = a.ids.map ρ ∧ b'.ids = b.ids.map ρ := by
  rw [ids_append, ids_append, List.map_append] at hids
  exact List.append_inj hids (by simpa using ha)

namespace Alike

theorem length_eq (h : a.Alike first P a') : a'.ids.length = a.ids.length := h.twin.length_eq

theorem nil : Alike first P .nil .nil := ⟨trivial, fun _ _ _ => rfl⟩

/-- One forest after another. -/
theorem append (ha : a.Alike first P a') (hb : b.Alike first P b') :
    (a ++ b).Alike first P (a' ++ b') where
  twin := ha.twin.append hb.twin
  eq_rename ρ hP hids := by
    obtain ⟨ha', hb'⟩ := ids_split ha.length_eq hids
    rw [ha.eq_rename ρ hP ha', hb.eq_rename ρ hP hb', rename_append]

/-- A node over alike forests. -/
theorem cons (hid : Matches first id id') (hbare : l'.bare = l.bare)
    (hl : ∀ ρ, P ρ → l' = l.rename ρ) (ha : a.Alike first P a') (hb : b.Alike first P b') :
    (Forest.cons id l a b).Alike first P (.cons id' l' a' b') where
  twin := ⟨⟨hid, hbare⟩, ha.twin, hb.twin⟩
  eq_rename ρ hP hids := by
    simp only [ids_cons, List.map_cons, List.cons.injEq] at hids
    have hparts : (a' ++ b').ids = (a ++ b).ids.map ρ := by simpa using hids.2
    obtain ⟨ha', hb'⟩ := ids_split ha.length_eq hparts
    rw [rename, hids.1, hl ρ hP, ha.eq_rename ρ hP ha', hb.eq_rename ρ hP hb']

/-- A node that is kept. -/
theorem kept (hl : ∀ ρ, P ρ → l = l.rename ρ) (ha : a.Alike first P a') (hb : b.Alike first P b') :
    (Forest.cons id l a b).Alike first P (.cons id l a' b') := cons (.refl id) rfl hl ha hb

/-- A node that is made. -/
theorem made (hid : first ≤ id.index) (hid' : first ≤ id'.index) (hl : ∀ ρ, P ρ → l = l.rename ρ)
    (ha : a.Alike first P a') (hb : b.Alike first P b') :
    (Forest.cons id l a b).Alike first P (.cons id' l a' b') := cons (.inr ⟨hid, hid'⟩) rfl hl ha hb

/-- Properties may be used that follow from the correspondence. -/
theorem given (hQ : ∀ ρ, P ρ → h'.ids = h.ids.map ρ → Q ρ) (ha : h.Alike first Q h') :
    h.Alike first P h' :=
  ⟨ha.twin, fun ρ hP hids => ha.eq_rename ρ (hQ ρ hP hids) hids⟩

/-- Rows of new leaves with labels that differ by the renaming. -/
theorem leaves {steps steps' : List (NodeId × Node)} (hnew : ∀ step ∈ steps, first ≤ step.1.index)
    (hnew' : ∀ step ∈ steps', first ≤ step.1.index)
    (hbare : steps'.map (Node.bare ∘ Prod.snd) = steps.map (Node.bare ∘ Prod.snd))
    (hl : ∀ ρ, P ρ → steps'.map Prod.snd = (steps.map Prod.snd).map (Node.rename ρ)) :
    (Forest.leaves steps).Alike first P (.leaves steps') := by
  induction steps generalizing steps' with
  | nil =>
    obtain rfl : steps' = [] := by simpa using hbare
    exact nil
  | cons step rest ih =>
    cases steps' with
    | nil => simp at hbare
    | cons step' rest' =>
      simp only [List.map_cons, List.cons.injEq] at hl hbare
      exact cons (.inr ⟨hnew step (by simp), hnew' step' (by simp)⟩) hbare.1
        (fun ρ hP => (hl ρ hP).1) nil
        (ih (fun s hs => hnew s (by simp [hs])) (fun s hs => hnew' s (by simp [hs])) hbare.2
          fun ρ hP => (hl ρ hP).2)

end Alike

end Forest

/-! ## Scopes -/

/-- The renaming keeps old nodes, and takes some scopes to others. -/
structure Around (first : Nat) (E E' : List Scope) (ρ : NodeId → NodeId) : Prop where
  fixes : Fixes first ρ
  scopes_eq : E' = E.map (Scope.rename ρ)

namespace Scope

private theorem step?_rename (scope : Scope) :
    (scope.rename ρ).step? = scope.step?.map (Node.rename ρ) := by
  cases scope with
  | loop | switch | label => rfl
  | withBody =>
    have hall : Fixes 0 ρ := fun q hq => absurd hq (Nat.not_lt_zero _)
    exact congrArg some (Node.fixed_ofKind _ ρ hall).symm
  | guarded node entry => rfl

/-- Renaming a scope renames its targets. -/
theorem target?_rename (isBreak : Bool) (scope : Scope) :
    (scope.rename ρ).target? isBreak = (scope.target? isBreak).map ρ := by
  cases scope with
  | loop => cases isBreak <;> rfl
  | label => cases isBreak <;> rfl
  | switch | withBody | guarded => rfl

/-- Scopes with the same enclosure have the same labels. -/
theorem isLabelled_of_enclosure {name : String}
    (h : scope'.enclosure = scope.enclosure) : scope'.isLabelled name = scope.isLabelled name := by
  rw [← isLabelled_enclosure, ← isLabelled_enclosure, h]

/-- Scopes with the same enclosure are left by the same step, up to its references. -/
theorem bare_step?_of_enclosure (h : scope'.enclosure = scope.enclosure) :
    scope'.step?.map Node.bare = scope.step?.map Node.bare := by
  cases scope <;> cases scope' <;> simp_all [enclosure, step?]

theorem kind_of_enclosure (h : scope'.enclosure = scope.enclosure) : scope'.kind = scope.kind := by
  cases scope <;> cases scope' <;> simp_all [enclosure, kind]

theorem node_of_enclosure (h : scope'.enclosure = scope.enclosure) : scope'.node = scope.node := by
  cases scope <;> cases scope' <;> simp_all [enclosure, node]

end Scope

/-- Renaming scopes renames the steps that leave them. -/
theorem filterMap_step?_rename (E : List Scope) (ρ : NodeId → NodeId) :
    (E.map (Scope.rename ρ)).filterMap Scope.step? =
      (E.filterMap Scope.step?).map (Node.rename ρ) := by
  rw [List.filterMap_map, List.map_filterMap]
  exact List.filterMap_congr fun scope _ => scope.step?_rename

end ScriptEngine
