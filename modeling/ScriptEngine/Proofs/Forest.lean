import ScriptEngine.Proofs.TreeEdits

/-!
# Forests

A forest is the part of a tree below a list of siblings, with the label of each node. The first
child and the next sibling of a node are its two parts, so that recursion over a forest follows the
links of the arena.

`Tree.Spells` says that an arena holds a forest below its roots. Where the roots stand is said
apart, by the child list of their parent, or by `Tree.Stands` if they are in no child list.

## Key results

- `Spells.congr`: a forest is still there if its nodes have kept their labels and children
- `Stands.not_orphan`: below the roots of a standing forest every node has a parent
- `Linked.disjoint_of_stands`: standing forests with different roots share no node
- `Linked.nodup_of_stands`: the nodes of a standing forest are all different
-/

namespace ScriptEngine

variable {id q : NodeId} {label : Node} {t : Tree} {f : Forest}

/-- Sibling nodes with everything below them. -/
inductive Forest where
  | nil
  | cons (id : NodeId) (label : Node) (kids rest : Forest)
deriving DecidableEq, Repr, Inhabited

namespace Forest

/-- One node with the forest below it. -/
@[reducible] def tree (id : NodeId) (label : Node) (kids : Forest) : Forest :=
  .cons id label kids .nil

/-- One node without children. -/
@[reducible] def leaf (id : NodeId) (label : Node) : Forest := .cons id label .nil .nil

/-- The siblings of one forest before those of another. -/
def append : Forest → Forest → Forest
  | .nil, g => g
  | .cons id label kids rest, g => .cons id label kids (rest.append g)

instance : Append Forest := ⟨append⟩

/-- The siblings themselves. -/
def roots : Forest → List NodeId
  | .nil => []
  | .cons id _ _ rest => id :: rest.roots

/-- All nodes, each before its children and its later siblings. -/
def ids : Forest → List NodeId
  | .nil => []
  | .cons id _ kids rest => id :: (kids.ids ++ rest.ids)

/-- How many nodes there are. -/
def count : Forest → Nat
  | .nil => 0
  | .cons _ _ kids rest => kids.count + rest.count + 1

@[simp] theorem append_eq (f g : Forest) : f.append g = f ++ g := rfl

@[simp] theorem nil_append (g : Forest) : Forest.nil ++ g = g := rfl

@[simp] theorem cons_append (id : NodeId) (label : Node) (kids rest g : Forest) :
    Forest.cons id label kids rest ++ g = .cons id label kids (rest ++ g) := rfl

@[simp] theorem append_nil (f : Forest) : f ++ Forest.nil = f := by
  induction f with
  | nil => rfl
  | cons id label kids rest _ ih => rw [cons_append, ih]

@[simp] theorem append_assoc (f g h : Forest) : f ++ g ++ h = f ++ (g ++ h) := by
  induction f with
  | nil => rfl
  | cons id label kids rest _ ih => simp only [cons_append, ih]

@[simp, grind =] theorem roots_nil : Forest.nil.roots = [] := rfl

@[simp, grind =] theorem roots_cons (id : NodeId) (label : Node) (kids rest : Forest) :
    (Forest.cons id label kids rest).roots = id :: rest.roots := rfl

@[simp, grind =] theorem roots_append (f g : Forest) : (f ++ g).roots = f.roots ++ g.roots := by
  induction f with
  | nil => rfl
  | cons id label kids rest _ ih => simp [ih]

@[simp, grind =] theorem ids_nil : Forest.nil.ids = [] := rfl

@[simp, grind =] theorem ids_cons (id : NodeId) (label : Node) (kids rest : Forest) :
    (Forest.cons id label kids rest).ids = id :: (kids.ids ++ rest.ids) := rfl

@[simp, grind =] theorem ids_append (f g : Forest) : (f ++ g).ids = f.ids ++ g.ids := by
  induction f with
  | nil => rfl
  | cons id label kids rest _ ih => simp [ih]

@[simp] theorem count_nil : Forest.nil.count = 0 := rfl

@[simp] theorem count_cons (id : NodeId) (label : Node) (kids rest : Forest) :
    (Forest.cons id label kids rest).count = kids.count + rest.count + 1 := rfl

@[simp] theorem count_append (f g : Forest) : (f ++ g).count = f.count + g.count := by
  induction f with
  | nil => simp
  | cons id label kids rest _ ih => simp only [cons_append, count_cons, ih]; omega

/-- As many ids as nodes. -/
theorem length_ids (f : Forest) : f.ids.length = f.count := by
  induction f with
  | nil => rfl
  | cons id label kids rest ihk ihr => simp [ihk, ihr]

theorem roots_subset_ids (f : Forest) : f.roots ⊆ f.ids := by
  induction f with
  | nil => simp
  | cons id label kids rest _ ih =>
    intro q hq
    rcases List.mem_cons.mp hq with rfl | hq
    · simp
    · simp [ih hq]

/-- Every node of the forest has a property, together with what is below it. -/
def All (P : Node → Forest → Prop) : Forest → Prop
  | .nil => True
  | .cons _ l kids rest => P l kids ∧ kids.All P ∧ rest.All P

@[simp] theorem all_append {P : Node → Forest → Prop} {f g : Forest} :
    (f ++ g).All P ↔ f.All P ∧ g.All P := by
  induction f with
  | nil => simp [All]
  | cons id l kids rest _ ih => simp [All, ih, and_assoc]

/-- What holds of all nodes may be weakened. -/
theorem All.imp {P Q : Node → Forest → Prop} {f : Forest} (h : f.All P)
    (hpq : ∀ l kids, P l kids → Q l kids) : f.All Q := by
  induction f with
  | nil => trivial
  | cons id l kids rest ihk ihr => exact ⟨hpq l kids h.1, ihk h.2.1, ihr h.2.2⟩

end Forest

namespace Tree

/-! ## What labels say -/

section

variable (t : Tree) (id : NodeId)

theorem kind_eq_label : t.kind id = (t.label id).kind := rfl

theorem line_eq_label : t.line id = (t.label id).line := rfl

theorem string?_eq_label : t.string? id = (t.label id).string? := rfl

theorem attr?_eq_label (key : AttrKey) : t.attr? id key = (t.label id).attrs.get? key := rfl

theorem jump?_eq_label : t.jump? id = (t.label id).jump? := by
  simp only [jump?, label, Node.jump?, Node.label]
  cases (t.node id).data <;> rfl

theorem target?_eq_label : t.target? id = (t.label id).jump?.bind (·.target) := by
  rw [target?, jump?_eq_label]

theorem function?_eq_label : t.function? id = (t.label id).function? := by
  simp only [function?, label, Node.function?, Node.label]
  cases (t.node id).data <;> rfl

/-- A label tells the break target of a switch, but not its clauses. -/
theorem switch?_label : (t.label id).switch? =
    (t.switch? id).map fun data => { target := data.target } := by
  simp only [switch?, label, Node.switch?, Node.label]
  cases (t.node id).data <;> rfl

end

/-! ## Arenas that hold a forest -/

/-- The arena has the labels and child lists of a forest. -/
def Spells (t : Tree) : Forest → Prop
  | .nil => True
  | .cons id label kids rest =>
    (id.index < t.size ∧ t.label id = label ∧ t.children id = kids.roots) ∧
      Spells t kids ∧ Spells t rest

@[simp] theorem spells_nil (t : Tree) : t.Spells .nil := trivial

@[simp] theorem spells_cons {kids rest : Forest} :
    t.Spells (.cons id label kids rest) ↔
      (id.index < t.size ∧ t.label id = label ∧ t.children id = kids.roots) ∧
        t.Spells kids ∧ t.Spells rest := Iff.rfl

@[simp] theorem spells_append {g : Forest} : t.Spells (f ++ g) ↔ t.Spells f ∧ t.Spells g := by
  induction f with
  | nil => simp
  | cons id label kids rest _ ih => simp [ih, and_assoc]

/-- Spelled nodes are nodes of the tree. -/
theorem Spells.bound (h : t.Spells f) (hq : q ∈ f.ids) : q.index < t.size := by
  induction f with
  | nil => simp at hq
  | cons id label kids rest ihk ihr =>
    obtain ⟨⟨hb, -, -⟩, hk, hr⟩ := h
    simp only [Forest.ids_cons, List.mem_cons, List.mem_append] at hq
    rcases hq with rfl | hq | hq
    · exact hb
    · exact ihk hk hq
    · exact ihr hr hq

/-- A forest is still there if its nodes have kept their labels and children. -/
theorem Spells.congr {t' : Tree} (h : t.Spells f) (hsize : t.size ≤ t'.size)
    (hsame : ∀ q ∈ f.ids, t'.label q = t.label q ∧ t'.children q = t.children q) : t'.Spells f := by
  induction f with
  | nil => trivial
  | cons id label kids rest ihk ihr =>
    obtain ⟨⟨hb, hl, hc⟩, hk, hr⟩ := h
    obtain ⟨hl', hc'⟩ := hsame id (by simp)
    refine ⟨⟨by omega, by rw [hl', hl], by rw [hc', hc]⟩, ihk hk ?_, ihr hr ?_⟩
    · intro q hq
      exact hsame q (by simp [hq])
    · intro q hq
      exact hsame q (by simp [hq])

/-- A node below the roots of a forest is a child of a node of the forest. -/
theorem Spells.parent (h : t.Spells f) (hq : q ∈ f.ids) :
    q ∈ f.roots ∨ ∃ p ∈ f.ids, q ∈ t.children p := by
  induction f with
  | nil => simp at hq
  | cons id label kids rest ihk ihr =>
    obtain ⟨⟨hb, hl, hc⟩, hk, hr⟩ := h
    simp only [Forest.ids_cons, List.mem_cons, List.mem_append] at hq
    rcases hq with rfl | hq | hq
    · simp
    · rcases ihk hk hq with hroot | ⟨p, hp, hqp⟩
      · exact .inr ⟨id, by simp, by rwa [hc]⟩
      · exact .inr ⟨p, by simp [hp], hqp⟩
    · rcases ihr hr hq with hroot | ⟨p, hp, hqp⟩
      · exact .inl (by simp [hroot])
      · exact .inr ⟨p, by simp [hp], hqp⟩

/-- A child of a node of a forest is a node of the forest. -/
theorem Spells.child_mem (h : t.Spells f) {p : NodeId} (hp : p ∈ f.ids) (hq : q ∈ t.children p) :
    q ∈ f.ids := by
  induction f with
  | nil => simp at hp
  | cons id label kids rest ihk ihr =>
    obtain ⟨⟨hb, hl, hc⟩, hk, hr⟩ := h
    simp only [Forest.ids_cons, List.mem_cons, List.mem_append] at hp ⊢
    rcases hp with rfl | hp | hp
    · rw [hc] at hq
      exact .inr (.inl (kids.roots_subset_ids hq))
    · exact .inr (.inl (ihk hk hp))
    · exact .inr (.inr (ihr hr hp))

/-- The arena holds a forest whose roots are in no child list. -/
def Stands (t : Tree) (f : Forest) : Prop := t.Spells f ∧ ∀ r ∈ f.roots, t.Orphan r

@[simp] theorem stands_append {g : Forest} : t.Stands (f ++ g) ↔ t.Stands f ∧ t.Stands g := by
  simp only [Stands, spells_append, Forest.roots_append, List.mem_append]
  constructor
  · rintro ⟨⟨hf, hg⟩, ho⟩
    exact ⟨⟨hf, fun r hr => ho r (.inl hr)⟩, hg, fun r hr => ho r (.inr hr)⟩
  · rintro ⟨⟨hf, hof⟩, hg, hog⟩
    exact ⟨⟨hf, hg⟩, fun r hr => hr.elim (hof r) (hog r)⟩

/-- A forest stands if its trees do. -/
theorem stands_cons {kids rest : Forest} :
    t.Stands (.cons id label kids rest) ↔
      t.Stands (.tree id label kids) ∧ t.Stands rest := by
  have := stands_append (t := t) (f := .tree id label kids) (g := rest)
  simpa using this

@[simp] theorem stands_nil (t : Tree) : t.Stands .nil := ⟨trivial, by simp⟩

/-- In a forest of distinct nodes none is below itself. -/
theorem Spells.not_below (h : t.Spells f) (hnodup : f.ids.Nodup) (hq : q ∈ f.ids) :
    ¬ t.Below q q := by
  induction f with
  | nil => simp at hq
  | cons id label kids rest ihk ihr =>
    obtain ⟨⟨-, -, hc⟩, hk, hr⟩ := h
    simp only [Forest.ids_cons, List.nodup_cons, List.nodup_append, List.mem_append] at hnodup
    simp only [Forest.ids_cons, List.mem_cons, List.mem_append] at hq
    rcases hq with rfl | hq | hq
    · have hkids : ∀ {c}, t.Below q c → c ∈ kids.ids := fun hqc => by
        induction hqc with
        | single hin => exact kids.roots_subset_ids (hc ▸ hin)
        | tail _ hin ih => exact hk.child_mem ih hin
      exact fun hqq => hnodup.1 (.inl (hkids hqq))
    · exact ihk hk hnodup.2.1 hq
    · exact ihr hr hnodup.2.2.1 hq

/-- Below the roots of a standing forest every node has a parent. -/
theorem Stands.not_orphan (h : t.Stands f) (hq : q ∈ f.ids) (hr : q ∉ f.roots) : ¬ t.Orphan q := by
  rcases h.1.parent hq with hroot | ⟨p, -, hp⟩
  · exact absurd hroot hr
  · exact fun ho => ho p hp

/-- Two forests share no node if no root of one is in the other, nor a root of the other below a
node of the first. -/
theorem Linked.disjoint_of_roots (h : t.Linked) {g : Forest} (hf : t.Spells f) (hg : t.Spells g)
    (hfg : ∀ r ∈ f.roots, r ∉ g.ids) (hgf : ∀ r ∈ g.roots, ∀ p ∈ f.ids, r ∉ t.children p) :
    ∀ q ∈ f.ids, q ∉ g.ids := by
  induction f with
  | nil => simp
  | cons id label kids rest ihk ihr =>
    obtain ⟨⟨hb, hl, hc⟩, hk, hr⟩ := hf
    have hid : id ∉ g.ids := hfg id (by simp)
    intro q hq
    simp only [Forest.ids_cons, List.mem_cons, List.mem_append] at hq
    rcases hq with rfl | hq | hq
    · exact hid
    · refine ihk hk (fun r hrk hrg => ?_) (fun r hr' p hp => hgf r hr' p (by simp [hp])) q hq
      -- The only parent of `r` is `id`, which is not in the second forest.
      have hrc : r ∈ t.children id := by rwa [hc]
      rcases hg.parent hrg with hroot | ⟨p, hp, hrp⟩
      · exact hgf r hroot id (by simp) hrc
      · exact hid (h.unique id p r hrc hrp ▸ hp)
    · exact ihr hr (fun r hr' => hfg r (by simp [hr']))
        (fun r hr' p hp => hgf r hr' p (by simp [hp])) q hq

/-- Standing forests with different roots share no node. -/
theorem Linked.disjoint_of_stands (h : t.Linked) {g : Forest} (hf : t.Stands f) (hg : t.Stands g)
    (hne : ∀ r ∈ f.roots, r ∉ g.roots) : ∀ q ∈ f.ids, q ∉ g.ids :=
  h.disjoint_of_roots hf.1 hg.1
    (fun r hr hrg => hg.not_orphan hrg (hne r hr) (hf.2 r hr))
    (fun r hr p _ hrp => hg.2 r hr p hrp)

/-- A node stands in a forest once, if the roots are different nodes and below no node of it. -/
theorem Linked.nodup_ids (h : t.Linked) (hs : t.Spells f) (hroots : f.roots.Nodup)
    (hout : ∀ r ∈ f.roots, ∀ p ∈ f.ids, r ∉ t.children p) : f.ids.Nodup := by
  induction f with
  | nil => simp
  | cons id label kids rest ihk ihr =>
    obtain ⟨⟨hb, hl, hc⟩, hk, hr⟩ := hs
    obtain ⟨hidr, hndr⟩ := List.nodup_cons.mp hroots
    have hidk : id ∉ kids.ids := by
      intro hin
      rcases hk.parent hin with hroot | ⟨p, hp, hidp⟩
      · exact hout id (by simp) id (by simp) (by rwa [hc])
      · exact hout id (by simp) p (by simp [hp]) hidp
    have hidrest : id ∉ rest.ids := by
      intro hin
      rcases hr.parent hin with hroot | ⟨p, hp, hidp⟩
      · exact hidr hroot
      · exact hout id (by simp) p (by simp [hp]) hidp
    have hndk : kids.ids.Nodup := by
      refine ihk hk (hc ▸ h.nodup id) fun r hrk p hp hrp => ?_
      have hpid : p = id := h.unique p id r hrp (by rwa [hc])
      exact hidk (hpid ▸ hp)
    have hndrest : rest.ids.Nodup :=
      ihr hr hndr fun r hr' p hp => hout r (by simp [hr']) p (by simp [hp])
    have hdis : ∀ q ∈ kids.ids, q ∉ rest.ids := by
      refine h.disjoint_of_roots hk hr (fun r hrk hrr => ?_) fun r hr' p hp =>
        hout r (by simp [hr']) p (by simp [hp])
      have hrc : r ∈ t.children id := by rwa [hc]
      rcases hr.parent hrr with hroot | ⟨p, hp, hrp⟩
      · exact hout r (by simp [hroot]) id (by simp) hrc
      · exact hidrest (h.unique id p r hrc hrp ▸ hp)
    simp only [Forest.ids_cons, List.nodup_cons, List.mem_append, not_or]
    refine ⟨⟨hidk, hidrest⟩, List.nodup_append.mpr ⟨hndk, hndrest, ?_⟩⟩
    rintro a ha b hb' rfl
    exact hdis a ha hb'

/-- The nodes of a standing forest are all different. -/
theorem Linked.nodup_of_stands (h : t.Linked) (hs : t.Stands f) (hroots : f.roots.Nodup) :
    f.ids.Nodup :=
  h.nodup_ids hs.1 hroots fun r hr p _ hrp => hs.2 r hr p hrp

end Tree

end ScriptEngine
