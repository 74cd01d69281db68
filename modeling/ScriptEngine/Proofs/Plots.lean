import ScriptEngine.Proofs.ShapesBuilt

/-!
# Work on siblings

`Tree.Edits` is what a sequence of operations leaves alone: nodes that are not among its own keep
their labels and their children, but for the parent at which it works, and get no other parent.

A plot is a stretch of siblings that such a sequence works on. `Plot.Has` says what it has come to:
a forest stands in the place of the siblings, and pieces stand by themselves until they are put
there. Each operation moves a node from one to the other, adds a node or changes a label, so that a
sequence of operations can be followed by the two forests.

## Key results

- `Edits.trans`, `Edits.stands`: edits in sequence, and what they leave alone
- `Plot.Has.relink`: another child list for one node
- `Plot.Has.addChildAfter`, `Plot.Has.removeChild` and others: one operation, one move
-/

namespace ScriptEngine

open Forest ScriptEngine.Tree List

variable {f : Forest} {t t' : Tree} {r q x : NodeId} {list : List NodeId} {l' l : Node}
  {kind : Token} {line : Option Nat} {key : AttrKey} {j : JumpData} {d : SwitchData}
  {m : TreeM Unit}

/-- A node without one of its attributes. -/
def Node.withoutAttr (n : Node) (key : AttrKey) : Node := { n with attrs := n.attrs.erase key }

/-- A switch with a break target. -/
def Node.withStop (n : Node) (target : Option NodeId) :
    Node := { n with data := .switch { target } }

namespace Tree

/-! ## What edits leave alone -/

/-- Only nodes among `own` change, and the child list of `p`. -/
structure Edits (own : List NodeId) (p : NodeId) (t t' : Tree) : Prop where
  linked : t'.Linked
  size_le : t.size ≤ t'.size
  label_eq : ∀ q, q.index < t.size → q ∉ own → t'.label q = t.label q
  children_eq : ∀ q, q.index < t.size → q ∉ own → q ≠ p → t'.children q = t.children q
  parents : ∀ q c, c.index < t.size → c ∉ own → c ∈ t'.children q → c ∈ t.children q
  acyclic : t.Acyclic → t'.Acyclic

namespace Edits

variable {own own1 own2 : List NodeId} {p p1 p2 : NodeId} {t1 t2 : Tree}

theorem refl (h : t.Linked) : t.Edits own p t :=
  ⟨h, Nat.le_refl _, fun _ _ _ => rfl, fun _ _ _ _ => rfl, fun _ _ _ _ hc => hc, id⟩

/-- Edits in sequence, the second perhaps at fresh nodes or at nodes of the first. -/
theorem trans (h : t.Edits own1 p1 t1) (h' : t1.Edits own2 p2 t2) (h1 : ∀ q ∈ own1, q ∈ own)
    (hp1 : p1 = p ∨ p1 ∈ own) (h2 : ∀ q ∈ own2, q.index < t.size → q ∈ own)
    (hp2 : p2.index < t.size → p2 = p ∨ p2 ∈ own) : t.Edits own p t2 := by
  have hle := h.size_le
  refine ⟨h'.linked, Nat.le_trans hle h'.size_le, fun q hq hnot => ?_, fun q hq hnot hne => ?_,
    fun q c hc hnot hmem => ?_, fun ha => h'.acyclic (h.acyclic ha)⟩
  · rw [h'.label_eq q (by omega) fun hin => hnot (h2 q hin hq),
      h.label_eq q hq fun hin => hnot (h1 q hin)]
  · rw [h'.children_eq q (by omega) (fun hin => hnot (h2 q hin hq)) ?_,
      h.children_eq q hq (fun hin => hnot (h1 q hin)) ?_]
    · rintro rfl
      exact hp1.elim hne hnot
    · rintro rfl
      exact (hp2 hq).elim hne hnot
  · exact h.parents q c hc (fun hin => hnot (h1 c hin))
      (h'.parents q c (by omega) (fun hin => hnot (h2 c hin hc)) hmem)

private theorem spells (h : t.Edits own p t1) (hf : t.Spells f) (hown : ∀ q ∈ f.ids, q ∉ own)
    (hp : p ∉ f.ids) : t1.Spells f :=
  hf.congr h.size_le fun q hq => ⟨h.label_eq q (hf.bound hq) (hown q hq),
    h.children_eq q (hf.bound hq) (hown q hq) (by rintro rfl; exact hp hq)⟩

/-- A standing forest that shares no node with the edits still stands. -/
theorem stands (h : t.Edits own p t1) (hf : t.Stands f) (hown : ∀ q ∈ f.ids, q ∉ own)
    (hp : p ∉ f.ids) : t1.Stands f := by
  refine ⟨h.spells hf.1 hown hp, fun r hr q hq => ?_⟩
  have hrf := f.roots_subset_ids hr
  exact hf.2 r hr q (h.parents q r (hf.1.bound hrf) (hown r hrf) hq)

end Edits

/-- No root of a forest is below a node of it. -/
theorem Spells.root_not_child (h : t.Spells f) (hnodup : f.ids.Nodup)
    (hr : r ∈ f.roots) (hq : q ∈ f.ids) : r ∉ t.children q := by
  induction f with
  | nil => simp at hr
  | cons id l kids rest _ ih =>
    have hrest := rest.roots_subset_ids
    have hkids := kids.roots_subset_ids
    obtain ⟨⟨-, -, hc⟩, hk, hs⟩ := h
    simp only [ids_cons, nodup_cons, nodup_append, mem_append] at hnodup
    intro hmem
    simp only [ids_cons, mem_cons, mem_append, roots_cons] at hr hq
    rcases hq with rfl | hq | hq
    · grind
    · have := hk.child_mem hq hmem
      grind
    · have := hs.child_mem hq hmem
      grind

/-- A forest without the node at which a list is replaced is still there. -/
theorem Relinks.spells (hre : t.Relinks t' fun q => if q = x then list else t.children q)
    (hf : t.Spells f) (hx : x ∉ f.ids) : t'.Spells f :=
  hf.congr (Nat.le_of_eq hre.size_eq.symm) fun q hq =>
    ⟨hre.label_eq q, by rw [hre.children_eq q, if_neg (by rintro rfl; exact hx hq)]⟩

end Tree

namespace Forest

/-- Another label at one node. -/
def setLabel (x : NodeId) (l' : Node) : Forest → Forest
  | .nil => .nil
  | .cons id l kids rest =>
    .cons id (if id = x then l' else l) (kids.setLabel x l') (rest.setLabel x l')

variable (x : NodeId) (l' : Node)

@[simp] theorem roots_setLabel (f : Forest) : (f.setLabel x l').roots = f.roots := by
  induction f with
  | nil => rfl
  | cons id l kids rest _ ih => simp [setLabel, ih]

@[simp] theorem ids_setLabel (f : Forest) : (f.setLabel x l').ids = f.ids := by
  induction f with
  | nil => rfl
  | cons id l kids rest ihk ihr => simp [setLabel, ihk, ihr]

private theorem setLabel_append (f g : Forest) :
    (f ++ g).setLabel x l' = f.setLabel x l' ++ g.setLabel x l' := by
  induction f with
  | nil => rfl
  | cons id l kids rest _ ih => simp [setLabel, ih]

variable {x l'}

private theorem setLabel_of_not_mem (hx : x ∉ f.ids) : f.setLabel x l' = f := by
  induction f with
  | nil => rfl
  | cons id l kids rest ihk ihr =>
    simp only [ids_cons, mem_cons, mem_append, not_or] at hx
    rw [setLabel, if_neg (Ne.symm hx.1), ihk hx.2.1, ihr hx.2.2]

end Forest

private theorem Tree.Relabels.spells
    (hre : t.Relabels t' x l') (hf : t.Spells f) : t'.Spells (f.setLabel x l') := by
  induction f with
  | nil => trivial
  | cons id l kids rest ihk ihr =>
    obtain ⟨⟨hb, hl, hc⟩, hk, hr⟩ := hf
    refine ⟨⟨hre.size_eq ▸ hb, ?_, ?_⟩, ihk hk, ihr hr⟩
    · rw [hre.label_eq, hl]
    · rw [hre.children_eq, hc, roots_setLabel]

/-! ## Changes of a label -/

namespace TreeM

/-- The computation gives another label to a node and changes nothing else. -/
def Relabels (m : TreeM Unit) (x : NodeId) (l l' : Node) : Prop :=
  ∀ t : Tree, t.Linked → x.index < t.size → t.label x = l →
    Runs m t fun _ t' => t.Relabels t' x l' ∧ t'.clauses = t.clauses

private theorem relabels_modify {f g : Node → Node} (hfirst : ∀ n, (f n).first = n.first)
    (hlast : ∀ n, (f n).last = n.last) (hnext : ∀ n, (f n).next = n.next)
    (hlabel : ∀ n, (f n).label = g n.label) (hclauses : ∀ n, (f n).data.clauses = n.data.clauses) :
    Relabels (modifyThe Tree fun t => t.modify x f) x l (g l) := by
  intro t h hx hl
  have hre := modify_relabels h hx hfirst hlast hnext
  rw [hlabel, show (t.node x).label = l from hl] at hre
  exact ⟨(), _, rfl, hre, t.clauses_modify x (hclauses _)⟩

/-- Another kind. -/
theorem relabels_setKind : Relabels (setKind x kind) x l (l.withKind kind) := by
  refine relabels_modify (g := (·.withKind kind)) (fun _ => rfl) (fun _ => rfl) (fun _ => rfl)
    (fun n => n.label_withKind kind) fun n => ?_
  by_cases hdata : n.data = .none
  · simp only [hdata, if_true, NodeData.clauses_ofKind]
    rfl
  · simp only [hdata, if_false]

theorem relabels_setLine : Relabels (setLine x line) x l (l.withLine line) :=
  relabels_modify (g := (·.withLine line)) (fun _ => rfl) (fun _ => rfl) (fun _ => rfl)
    (fun _ => rfl) fun _ => rfl

theorem relabels_setAttr {value : AttrValue} :
    Relabels (setAttr x key value) x l (l.withAttr key value) :=
  relabels_modify (g := (·.withAttr key value)) (fun _ => rfl) (fun _ => rfl) (fun _ => rfl)
    (fun _ => rfl) fun _ => rfl

theorem relabels_eraseAttr : Relabels (eraseAttr x key) x l (l.withoutAttr key) :=
  relabels_modify (g := (·.withoutAttr key)) (fun _ => rfl) (fun _ => rfl) (fun _ => rfl)
    (fun _ => rfl) fun _ => rfl

/-- Other data of a jump. -/
theorem relabels_modifyJump {f : JumpData → JumpData} (hdata : l.data = .jump j) :
    Relabels (modifyJump x f) x l (l.withJump (f j)) := by
  intro t h hx hl
  have hjump : t.jump? x = some j := by rw [jump?_eq_label, hl, Node.jump?, hdata]
  have hold : (t.node x).data = .jump j := by
    cases hd : (t.node x).data <;> simp_all [jump?, Node.jump?]
  have hre := modify_relabels h hx (f := fun n => { n with data := .jump (f j) })
    (fun _ => rfl) (fun _ => rfl) fun _ => rfl
  have hlabel : ({ t.node x with data := .jump (f j) } : Node).label = l.withJump (f j) := by
    rw [← hl]
    rfl
  rw [hlabel] at hre
  refine runs_edit ?_ ⟨hre, t.clauses_modify x (by rw [hold]; rfl)⟩
  simp only [Tree.modifyJump, Tree.check_eq_ok hx, hjump, bind, Except.bind, pure, Except.pure]

theorem relabels_setTarget {target : NodeId} (hdata : l.data = .jump j) :
    Relabels (setTarget x target) x l (l.withJump { j with target := some target }) :=
  relabels_modifyJump hdata

/-- A change to the data of a switch, in its break target and its clauses. -/
theorem runs_modifySwitch {f k : SwitchData → SwitchData}
    {g : Option NodeId → Option NodeId} (h : t.Linked) (hx : x.index < t.size)
    (hl : t.label x = l) (hdata : l.data = .switch d) (hf : ∀ s, (f s).target = g s.target)
    (hk : ∀ s, (NodeData.switch (f s)).clauses = k (NodeData.switch s).clauses) :
    Runs (modifySwitch x f) t fun _ t' => t.Relabels t' x (l.withStop (g d.target)) ∧
      t'.clauses = Function.update t.clauses x (k (t.clauses x)) := by
  obtain ⟨s, hs, hsd⟩ : ∃ s, t.switch? x = some s ∧ s.target = d.target := by
    have hlabel := t.switch?_label x
    rw [hl, Node.switch?, hdata] at hlabel
    cases hs : t.switch? x with
    | none => simp [hs] at hlabel
    | some s =>
      rw [hs] at hlabel
      exact ⟨s, rfl, by cases hlabel; rfl⟩
  have hold : (t.node x).data = .switch s := by
    cases hd : (t.node x).data <;> simp_all [switch?, Node.switch?]
  have hre := modify_relabels h hx (f := fun n => { n with data := .switch (f s) })
    (fun _ => rfl) (fun _ => rfl) fun _ => rfl
  have hlabel : ({ t.node x with data := .switch (f s) } : Node).label =
      l.withStop (g d.target) := by
    rw [← hl, ← hsd, ← hf s]
    rfl
  rw [hlabel] at hre
  have hrun : t.modifySwitch x f = .ok (t.modify x ({ · with data := .switch (f s) })) := by
    simp only [Tree.modifySwitch, Tree.check_eq_ok hx, hs, bind, Except.bind, pure, Except.pure]
  refine runs_edit hrun ⟨hre, ?_⟩
  funext q
  rw [clauses, node_modify t x q _ hx, Function.update_apply]
  split
  · rw [clauses, hold]
    exact hk s
  · rfl

/-- Another end of a switch. -/
theorem relabels_setStop {stop : NodeId} (hdata : l.data = .switch d) :
    Relabels (modifySwitch x ({ · with target := some stop })) x l (l.withStop (some stop)) := by
  intro t h hx hl
  refine (runs_modifySwitch (f := ({ · with target := some stop })) (g := fun _ => some stop)
    (k := fun d => d) h hx hl hdata (fun _ => rfl) fun _ => rfl).mono fun _ t' h' => ⟨h'.1, ?_⟩
  rw [h'.2, Function.update_eq_self]

end TreeM

/-! ## Plots -/

/-- Siblings at work: between `before` and `after` in the child list of a node, in a tree in which
the nodes among `own` may be changed. -/
structure Plot where
  tree : Tree
  parent : NodeId
  before : List NodeId
  own : List NodeId
  after : List NodeId

/-- In the arena `f` stands in the place of the siblings and `g` by itself; the clauses recorded
with switches are known. -/
structure Plot.Has (P : Plot) (clauses : NodeId → SwitchData) (t : Tree) (f g : Forest) : Prop where
  edits : P.tree.Edits P.own P.parent t
  clauses_eq : t.clauses = clauses
  list_eq : t.children P.parent = P.before ++ f.roots ++ P.after
  spells : t.Spells f
  stands : t.Stands g
  ids : ∀ q ∈ (f ++ g).ids, q ∈ P.own ∨ P.tree.size ≤ q.index
  nodup : (f ++ g).ids.Nodup
  parent_lt : P.parent.index < P.tree.size
  parent_not : P.parent ∉ P.own

namespace Plot.Has

variable {P : Plot} {clauses : NodeId → SwitchData} {f' g g' h kids kc ka : Forest}
  {c a : NodeId} {lc la : Node}

private theorem ne_parent (H : P.Has clauses t f g) (hq : q ∈ (f ++ g).ids) : q ≠ P.parent := by
  rintro rfl
  rcases H.ids _ hq with hown | hnew
  · exact H.parent_not hown
  · have := H.parent_lt
    omega

/-- The parent of a node at work is at work too, or it is that of the siblings. -/
theorem parent_mem (H : P.Has clauses t f g) (hr : r ∈ (f ++ g).ids) (hq : r ∈ t.children q) :
    (q = P.parent ∧ r ∈ f.roots) ∨ q ∈ (f ++ g).ids := by
  rcases (spells_append.mpr ⟨H.spells, H.stands.1⟩).parent hr with hroot | ⟨p, hp, hrp⟩
  · rw [roots_append, mem_append] at hroot
    rcases hroot with hroot | hroot
    · exact .inl ⟨H.edits.linked.unique q _ r hq (by simp [H.list_eq, hroot]), hroot⟩
    · exact absurd hq (H.stands.2 r hroot q)
  · exact .inr (H.edits.linked.unique q p r hq hrp ▸ hp)

/-- The other siblings are not at work. -/
theorem sibling_not (H : P.Has clauses t f g) (hr : r ∈ P.before ∨ r ∈ P.after) :
    r ∉ (f ++ g).ids := by
  intro hin
  have hmem : r ∈ t.children P.parent := by
    rw [H.list_eq]
    simp [hr.elim Or.inl fun h => Or.inr (Or.inr h)]
  rcases H.parent_mem hin hmem with ⟨-, hroot⟩ | hq
  · have hnodup := H.edits.linked.nodup P.parent
    rw [H.list_eq] at hnodup
    simp only [nodup_append, mem_append] at hnodup
    grind
  · exact H.ne_parent hq rfl

/-- One node gets another child list, of nodes at work or beside them. -/
theorem relink (H : P.Has clauses t f g) (hx : x = P.parent ∨ x ∈ (f ++ g).ids)
    (hre : t.Relinks t' fun q => if q = x then list else t.children q) (hlinks : t.Relinked t')
    (hspells : t'.Spells (f' ++ g')) (hids : (f' ++ g').ids.Perm (f ++ g).ids)
    (hlist : t'.children P.parent = P.before ++ f'.roots ++ P.after) : P.Has clauses t' f' g' := by
  have hmem : ∀ q, q ∈ (f' ++ g').ids ↔ q ∈ (f ++ g).ids := fun q => hids.mem_iff
  have hnodup : (f' ++ g').ids.Nodup := hids.nodup_iff.mpr H.nodup
  have hother : ∀ q, q ≠ P.parent → q ∉ (f ++ g).ids → t'.children q = t.children q := by
    intro q hq hnot
    rw [hre.children_eq q, if_neg]
    rintro rfl
    exact hx.elim hq hnot
  have hnot : ∀ q : NodeId, q.index < P.tree.size → q ∉ P.own → q ∉ (f ++ g).ids :=
    fun q hq hown hin => (H.ids q hin).elim hown fun hnew => by omega
  refine ⟨⟨hre.linked, ?_, fun q hq hown => ?_, fun q hq hown hne => ?_, fun q c hc hown hcq => ?_,
    fun ha => (H.edits.acyclic ha).of_links fun q c hcq => ?_⟩,
    hlinks.clauses_eq.trans H.clauses_eq, hlist, (spells_append.mp hspells).1,
    ⟨(spells_append.mp hspells).2, fun r hr q hrq => ?_⟩, fun q hq => H.ids q ((hmem q).mp hq),
    hnodup, H.parent_lt, H.parent_not⟩
  · rw [hre.size_eq]
    exact H.edits.size_le
  · rw [hre.label_eq q, H.edits.label_eq q hq hown]
  · rw [hother q hne (hnot q hq hown), H.edits.children_eq q hq hown hne]
  · -- An old child is in the same list, in which the nodes at work are not old.
    refine H.edits.parents q c hc hown ?_
    by_cases hqp : q = P.parent
    · subst hqp
      rw [hlist] at hcq
      rw [H.list_eq]
      have := hnot c hc hown
      have := hmem c
      have := f'.roots_subset_ids (a := c)
      simp only [ids_append, mem_append] at *
      grind
    · by_cases hqin : q ∈ (f ++ g).ids
      · exact absurd ((hmem c).mp (hspells.child_mem ((hmem q).mpr hqin) hcq)) (hnot c hc hown)
      · rwa [hother q hqp hqin] at hcq
  · -- A link that is new starts or ends at a node at work, and those are in a forest.
    by_cases hqin : q ∈ (f ++ g).ids
    · exact .inr (.inl (hspells.not_below hnodup ((hmem q).mpr hqin)))
    · by_cases hqp : q = P.parent
      · subst hqp
        rw [hlist, List.append_assoc, List.mem_append, List.mem_append] at hcq
        rcases hcq with hin | hin | hin
        · exact .inl (by simp [H.list_eq, hin])
        · exact .inr (.inr (hspells.not_below hnodup (by simp [f'.roots_subset_ids hin])))
        · exact .inl (by simp [H.list_eq, hin])
      · exact .inl (hother q hqp hqin ▸ hcq)
  · -- A node that stands by itself is in no list, at work or not.
    have hrin : r ∈ (f' ++ g').ids := by simp [g'.roots_subset_ids hr]
    by_cases hqp : q = P.parent
    · subst hqp
      rw [hlist, List.append_assoc, List.mem_append, List.mem_append] at hrq
      have hf : r ∉ f'.roots := fun hrf => by
        rw [ids_append, nodup_append] at hnodup
        exact hnodup.2.2 r (f'.roots_subset_ids hrf) r (g'.roots_subset_ids hr) rfl
      exact H.sibling_not (by grind) ((hmem r).mp hrin)
    · by_cases hqin : q ∈ (f ++ g).ids
      · exact hspells.root_not_child hnodup (by simp [hr]) ((hmem q).mpr hqin) hrq
      · rw [hother q hqp hqin] at hrq
        rcases H.parent_mem ((hmem r).mp hrin) hrq with h | h
        · exact hqp h.1
        · exact hqin h

/-- At first a plot has what stands there. -/
theorem start (h : t.Linked) (hf : t.Spells f) (hnodup : f.ids.Nodup) (hx : x.index < t.size)
    (hnot : x ∉ f.ids) {before after : List NodeId}
    (hlist : t.children x = before ++ f.roots ++ after) :
    (⟨t, x, before, f.ids, after⟩ : Plot).Has t.clauses t f .nil :=
  ⟨.refl h, rfl, hlist, hf, stands_nil t, fun q hq => .inl (by simpa using hq),
    by simpa using hnodup, hx, hnot⟩

/-- An arena that looks the same, but perhaps for the clauses recorded with switches. -/
theorem congr (H : P.Has clauses t f g) (hlinked : t'.Linked) (hsize : t'.size = t.size)
    (hlabel : ∀ q, t'.label q = t.label q) (hchildren : ∀ q, t'.children q = t.children q) :
    P.Has t'.clauses t' f g := by
  have hspells : ∀ {h : Forest}, t.Spells h → t'.Spells h := fun hh =>
    hh.congr (Nat.le_of_eq hsize.symm) fun q _ => ⟨hlabel q, hchildren q⟩
  refine ⟨⟨hlinked, hsize ▸ H.edits.size_le, fun q hq hown => ?_, fun q hq hown hne => ?_,
    fun q c hc hown hcq => ?_, fun ha => (H.edits.acyclic ha).of_links fun q c hc =>
      .inl (hchildren q ▸ hc)⟩, rfl, ?_, hspells H.spells, ⟨hspells H.stands.1, fun r hr q => ?_⟩,
    H.ids, H.nodup, H.parent_lt, H.parent_not⟩
  · rw [hlabel, H.edits.label_eq q hq hown]
  · rw [hchildren, H.edits.children_eq q hq hown hne]
  · exact H.edits.parents q c hc hown (hchildren q ▸ hcq)
  · rw [hchildren, H.list_eq]
  · rw [hchildren]
    exact H.stands.2 r hr q

/-- A node without children that has been put in the place. -/
theorem firstChild?_leaf (H : P.Has clauses t (.leaf x l) g) : t.firstChild? x = none := by
  rw [H.edits.linked.firstChild?_eq, H.spells.1.2.2]
  rfl

/-! ## Pieces in another order -/

/-- Loose trees may be taken in another order. -/
theorem swap (h h' : Forest) (H : P.Has clauses t f (h ++ (h' ++ g))) :
    P.Has clauses t f (h' ++ (h ++ g)) := by
  obtain ⟨h1, h2, h3⟩ := (stands_append.mp H.stands).imp_right stands_append.mp
  have hids : (f ++ (h' ++ (h ++ g))).ids.Perm (f ++ (h ++ (h' ++ g))).ids := by
    refine List.perm_iff_count.mpr fun q => ?_
    simp only [ids_append, List.count_append]
    omega
  exact { H with
    stands := stands_append.mpr ⟨h2, stands_append.mpr ⟨h1, h3⟩⟩
    ids := fun q hq => H.ids q (hids.mem_iff.mp hq)
    nodup := hids.nodup_iff.mpr H.nodup }

/-- A piece may be left lying. -/
theorem drop (h : Forest) (H : P.Has clauses t f (h ++ g)) : P.Has clauses t f g := by
  have hnodup := H.nodup
  simp only [ids_append, nodup_append, mem_append] at hnodup
  refine { H with
    stands := (stands_append.mp H.stands).2
    ids := fun q hq => H.ids q ?_
    nodup := ?_ }
  · simp only [ids_append, mem_append] at hq ⊢
    exact hq.imp_right .inr
  · simp only [ids_append, nodup_append]
    grind

/-! ## Work below one of the siblings -/

section

variable (f1 f2 k1 k2 : Forest)
  (H : P.Has clauses t (f1 ++ .cons x l (k1 ++ (kids ++ k2)) f2) (h ++ g))

include H

/-- What is below a node of a plot is a plot. -/
theorem within : (⟨t, x, k1.roots, kids.ids ++ h.ids, k2.roots⟩ : Plot).Has clauses t kids h := by
  have hnodup := H.nodup
  obtain ⟨-, ⟨hb, -, hc⟩, hk, -⟩ := spells_append.mp H.spells
  simp only [spells_append] at hk
  simp only [ids_append, ids_cons, nodup_append, nodup_cons,
    mem_append] at hnodup
  refine ⟨.refl H.edits.linked, H.clauses_eq, by simpa using hc, hk.2.1,
    (stands_append.mp H.stands).1, fun q hq => .inl (by simpa using hq), ?_, hb, ?_⟩
  · simp only [ids_append, nodup_append]
    grind
  · simp only [mem_append]
    grind

/-- Work below a node of a plot is work on the plot. -/
theorem without {kids' h' : Forest} {clauses' : NodeId → SwitchData}
    (H' : (⟨t, x, k1.roots, kids.ids ++ h.ids, k2.roots⟩ : Plot).Has clauses' t' kids' h') :
    P.Has clauses' t' (f1 ++ .cons x l (k1 ++ (kids' ++ k2)) f2) (h' ++ g) := by
  have hnodup := H.nodup
  have hall := H.ids
  have hlt : P.parent.index < t.size := Nat.lt_of_lt_of_le H.parent_lt H.edits.size_le
  have hxp : P.parent ≠ x := (H.ne_parent (by simp)).symm
  have hown : ∀ q ∈ (kids ++ h).ids, q ≠ P.parent := fun q hq => H.ne_parent (by
    simp only [ids_append, ids_cons, mem_append, mem_cons] at hq ⊢
    grind)
  obtain ⟨hf1, ⟨hb, hl, hc⟩, hk, hf2⟩ := spells_append.mp H.spells
  simp only [spells_append] at hk
  obtain ⟨hk1, -, hk2⟩ := hk
  obtain ⟨-, hg⟩ := stands_append.mp H.stands
  have hbounds : ∀ q ∈ (f1 ++ (f2 ++ (k1 ++ (k2 ++ g)))).ids, q.index < t.size := fun q hq =>
    Tree.Spells.bound (f := f1 ++ (f2 ++ (k1 ++ (k2 ++ g))))
      (by simp only [spells_append]; exact ⟨hf1, hf2, hk1, hk2, hg.1⟩) hq
  have hids := H'.ids
  have hnodup' := H'.nodup
  have hle := H.edits.size_le
  simp only [ids_append, ids_cons, nodup_append, nodup_cons,
    mem_append, mem_cons] at hnodup hnodup' hids hbounds hown hall
  have hedits := H'.edits
  refine ⟨H.edits.trans hedits (fun _ h => h) (.inl rfl) (fun q hq hqlt => ?_) (fun hxlt => ?_),
    H'.clauses_eq, ?_, ?_, stands_append.mpr ⟨H'.stands, hedits.stands hg ?_ ?_⟩, ?_, ?_,
    H.parent_lt, H.parent_not⟩
  · have := hall q
    simp only [mem_append] at hq
    grind
  · have := hall x
    grind
  · rw [hedits.children_eq _ hlt (by simp only [mem_append]; grind) hxp, H.list_eq]
    simp
  · simp only [spells_append, spells_cons, roots_append]
    refine ⟨hedits.spells hf1 ?_ ?_, ⟨Nat.lt_of_lt_of_le hb hedits.size_le, ?_, ?_⟩,
      ⟨hedits.spells hk1 ?_ ?_, H'.spells, hedits.spells hk2 ?_ ?_⟩, hedits.spells hf2 ?_ ?_⟩
    case refine_3 => rw [hedits.label_eq x hb (by simp only [mem_append]; grind), hl]
    case refine_4 => simpa using H'.list_eq
    all_goals simp only [mem_append]; grind
  · simp only [mem_append]
    grind
  · grind
  · simp only [ids_append, ids_cons, mem_append, mem_cons]
    grind
  · simp only [ids_append, ids_cons, nodup_append, nodup_cons,
      mem_append, mem_cons]
    grind

end

/-! ## Labels -/

private theorem relabel (H : P.Has clauses t f g) (hx : x ∈ (f ++ g).ids) (hre : t.Relabels t' x l')
    (hclauses : t'.clauses = t.clauses) : P.Has clauses t' (f.setLabel x l') (g.setLabel x l') := by
  refine ⟨⟨hre.linked, ?_, fun q hq hown => ?_, fun q hq hown hne => ?_, fun q c hc hown hcq => ?_,
    fun ha => (H.edits.acyclic ha).of_links fun q c hc => .inl (hre.children_eq q ▸ hc)⟩,
    hclauses.trans H.clauses_eq, ?_, hre.spells H.spells, ⟨hre.spells H.stands.1, fun r hr q => ?_⟩,
    ?_, ?_, H.parent_lt, H.parent_not⟩
  · rw [hre.size_eq]
    exact H.edits.size_le
  · rw [hre.label_eq q, if_neg, H.edits.label_eq q hq hown]
    rintro rfl
    exact (H.ids q hx).elim hown fun hnew => by omega
  · rw [hre.children_eq q, H.edits.children_eq q hq hown hne]
  · exact H.edits.parents q c hc hown (hre.children_eq q ▸ hcq)
  · rw [hre.children_eq, H.list_eq, roots_setLabel]
  · rw [hre.children_eq]
    exact H.stands.2 r (by simpa using hr) q
  · simpa using H.ids
  · simpa using H.nodup

/-- One of the siblings gets another label. -/
theorem relabelAt (f1 f2 : Forest) (H : P.Has clauses t (f1 ++ .cons x l kids f2) g)
    (hm : TreeM.Relabels m x l l') :
    Runs m t fun _ t' => P.Has clauses t' (f1 ++ .cons x l' kids f2) g := by
  have hnodup := H.nodup
  simp only [ids_append, ids_cons, nodup_append, nodup_cons,
    mem_append, mem_cons] at hnodup
  obtain ⟨hb, hl, -⟩ := (spells_append.mp H.spells).2.1
  refine (hm t H.edits.linked hb hl).mono fun _ t' h' => ?_
  have H' := H.relabel (by simp) h'.1 h'.2
  rwa [setLabel_append, Forest.setLabel, if_pos rfl, setLabel_of_not_mem (by grind),
    setLabel_of_not_mem (by grind), setLabel_of_not_mem (by grind),
    setLabel_of_not_mem (by grind)] at H'

/-- A piece gets another label. -/
theorem relabelPiece (H : P.Has clauses t f (.cons x l kids g)) (hm : TreeM.Relabels m x l l') :
    Runs m t fun _ t' => P.Has clauses t' f (.cons x l' kids g) := by
  have hnodup := H.nodup
  simp only [ids_append, ids_cons, nodup_append, nodup_cons,
    mem_append, mem_cons] at hnodup
  obtain ⟨hb, hl, -⟩ := H.stands.1.1
  refine (hm t H.edits.linked hb hl).mono fun _ t' h' => ?_
  have H' := H.relabel (by simp) h'.1 h'.2
  rwa [Forest.setLabel, if_pos rfl, setLabel_of_not_mem (by grind),
    setLabel_of_not_mem (by grind), setLabel_of_not_mem (by grind)] at H'

/-- The first child of one of the siblings gets another label. -/
theorem relabelChild (f1 f2 : Forest)
    (H : P.Has clauses t (f1 ++ .cons x l (.cons c lc kc kids) f2) g)
    (hm : TreeM.Relabels m c lc l') :
    Runs m t fun _ t' => P.Has clauses t' (f1 ++ .cons x l (.cons c l' kc kids) f2) g := by
  have hnodup := H.nodup
  simp only [ids_append, ids_cons, nodup_append, nodup_cons,
    mem_append, mem_cons] at hnodup
  obtain ⟨hb, hl, -⟩ := (spells_append.mp H.spells).2.2.1.1
  refine (hm t H.edits.linked hb hl).mono fun _ t' h' => ?_
  have H' := H.relabel (by simp) h'.1 h'.2
  rwa [setLabel_append, Forest.setLabel, if_neg (by grind), Forest.setLabel, if_pos rfl,
    setLabel_of_not_mem (by grind), setLabel_of_not_mem (by grind),
    setLabel_of_not_mem (by grind), setLabel_of_not_mem (by grind),
    setLabel_of_not_mem (by grind)] at H'

/-! ## Fresh nodes -/

private theorem push {n : Node} (H : P.Has clauses t f g) (hn : n.detached = n)
    (hempty : n.data.clauses = {}) :
    Runs (TreeM.push n) t fun id t' =>
      P.tree.size ≤ id.index ∧ P.Has clauses t' f (.cons id n.label .nil g) := by
  have hgrow := push_grows H.edits.linked (n := n) (congrArg Node.first hn).symm
    (congrArg Node.last hn).symm (congrArg Node.next hn).symm
  have hle := H.edits.size_le
  have hsize := hgrow.size_eq
  have hfg : t.Spells (f ++ g) := spells_append.mpr ⟨H.spells, H.stands.1⟩
  have hold : ∀ q : NodeId, q.index < t.size → (t.push n).2.label q = t.label q := fun q hq => by
    rw [hgrow.label_eq q, if_neg]
    rintro rfl
    exact Nat.lt_irrefl _ hq
  have hkeep : ∀ {h : Forest}, t.Spells h → (t.push n).2.Spells h := fun hh =>
    hh.congr (by omega) fun q hq => ⟨hold q (hh.bound hq), hgrow.children_eq q⟩
  refine ⟨(t.push n).1, (t.push n).2, rfl, hle,
    ⟨hgrow.linked, by omega, fun q hq hown => ?_, fun q hq hown hne => ?_,
    fun q c hc hown hcq => ?_, fun ha => (H.edits.acyclic ha).of_links fun q c hc =>
      .inl (hgrow.children_eq q ▸ hc)⟩, (t.clauses_push hempty).trans H.clauses_eq,
      ?_, hkeep H.spells,
    ⟨⟨⟨?_, ?_, ?_⟩, trivial, hkeep H.stands.1⟩, ?_⟩, fun q hq => ?_, ?_, H.parent_lt, H.parent_not⟩
  · rw [hold q (by omega), H.edits.label_eq q hq hown]
  · rw [hgrow.children_eq q, H.edits.children_eq q hq hown hne]
  · exact H.edits.parents q c hc hown (hgrow.children_eq q ▸ hcq)
  · rw [hgrow.children_eq, H.list_eq]
  · rw [hsize]
    exact Nat.lt_succ_self _
  · exact (hgrow.label_eq _).trans (if_pos rfl)
  · rw [hgrow.children_eq]
    exact children_of_size_le t _ (Nat.le_refl _)
  · rintro r (_ | ⟨_, hr⟩) q hq <;> rw [hgrow.children_eq q] at hq
    · exact Nat.lt_irrefl _ (H.edits.linked.bound q _ hq)
    · exact H.stands.2 r hr q hq
  · have := H.ids q
    simp only [ids_append, ids_cons, ids_nil, List.nil_append, List.mem_append,
      List.mem_cons] at hq this
    rcases hq with hq | rfl | hq
    · exact this (.inl hq)
    · exact .inr hle
    · exact this (.inr hq)
  · have hnew : (⟨t.size⟩ : NodeId) ∉ (f ++ g).ids := fun hin => Nat.lt_irrefl _ (hfg.bound hin)
    have hnodup := H.nodup
    rw [ids_append] at hnodup hnew ⊢
    rw [ids_cons, ids_nil, List.nil_append]
    exact List.nodup_middle.mpr (List.nodup_cons.mpr ⟨hnew, hnodup⟩)

/-- A new node is loose. -/
theorem newNode (H : P.Has clauses t f g) :
    Runs (TreeM.newNode kind) t fun id t' =>
      P.tree.size ≤ id.index ∧ P.Has clauses t' f (.cons id (.ofKind kind) .nil g) := by
  have := H.push (n := .ofKind kind) rfl (NodeData.clauses_ofKind kind)
  rwa [Node.label_ofKind] at this

theorem newNodeAt (H : P.Has clauses t f g) :
    Runs (TreeM.newNodeAt kind line) t fun id t' =>
      P.tree.size ≤ id.index ∧ P.Has clauses t' f (.cons id (.ofKindAt kind line) .nil g) := by
  have := H.push (n := .ofKindAt kind line) rfl (NodeData.clauses_ofKind kind)
  rwa [Node.label_ofKindAt] at this

/-! ## Moves -/

/-- A piece goes below another one. -/
theorem addChildToBack (H : P.Has clauses t f (.cons x l kids (.cons c lc kc g))) :
    Runs (TreeM.addChildToBack x c) t fun _ t' =>
      P.Has clauses t' f (.cons x l (kids ++ .tree c lc kc) g) := by
  have hnodup := H.nodup
  obtain ⟨⟨hb, hl, hc⟩, hk, ⟨hbc, hlc, hcc⟩, hkc, hg⟩ := H.stands.1
  simp only [ids_append, ids_cons, nodup_append, nodup_cons,
    mem_append, mem_cons] at hnodup
  obtain ⟨t', hrun, hre⟩ := H.edits.linked.addChildToBack_relinks hb hbc
    (H.stands.2 c (by simp))
  refine TreeM.runs_edit hrun (H.relink (.inr (by simp)) hre (.of_addChildToBack hrun) ?_ ?_ ?_)
  · simp only [spells_append, spells_cons, roots_append, spells_nil]
    refine ⟨hre.spells H.spells (by grind), ⟨hre.size_eq ▸ hb, (hre.label_eq x).trans hl, ?_⟩,
      ⟨hre.spells hk (by grind), ⟨hre.size_eq ▸ hbc, (hre.label_eq c).trans hlc, ?_⟩,
        hre.spells hkc (by grind), trivial⟩, hre.spells hg (by grind)⟩
    · rw [hre.children_eq, if_pos rfl, hc]
      simp
    · rw [hre.children_eq, if_neg (by grind), hcc]
  · refine perm_iff_count.mpr fun q => ?_
    simp
  · rw [hre.children_eq, if_neg (H.ne_parent (by simp)).symm, H.list_eq]

/-- Loose trees become the last children of a loose one. -/
theorem addChildren (H : P.Has clauses t f (.cons x l kids (h ++ g))) :
    Runs (TreeM.addChildren x h.roots) t fun _ t' =>
      P.Has clauses t' f (.cons x l (kids ++ h) g) := by
  induction h generalizing t kids with
  | nil => exact Runs.pure (by simpa using H)
  | cons c lc kc rest _ ih =>
    refine H.addChildToBack.bind fun _ t1 H1 => (ih H1).mono fun _ t2 H2 => ?_
    simpa using H2

/-- A fresh node over pieces. -/
theorem newWithChildren (h : Forest) (H : P.Has clauses t f (h ++ g)) (hlen : h.roots.length ≤ 3) :
    Runs (TreeM.newWithChildren kind h.roots) t fun id t' =>
      P.tree.size ≤ id.index ∧ P.Has clauses t' f (.cons id (.ofKind kind) h g) := by
  rw [TreeM.newWithChildren, if_neg (by omega)]
  exact H.newNode.bind fun id t1 h1 => h1.2.addChildren.bind fun _ t2 H2 => Runs.pure ⟨h1.1, H2⟩

/-- A child of one of the siblings is taken out. -/
theorem removeChild (f1 f2 k1 k2 : Forest)
    (H : P.Has clauses t (f1 ++ .cons x l (k1 ++ .cons c lc kc k2) f2) g) :
    Runs (TreeM.removeChild x c) t fun _ t' =>
      P.Has clauses t' (f1 ++ .cons x l (k1 ++ k2) f2) (.cons c lc kc g) := by
  have hnodup := H.nodup
  obtain ⟨hf1, ⟨hb, hl, hc⟩, hk, hf2⟩ := spells_append.mp H.spells
  obtain ⟨hk1, ⟨hbc, hlc, hcc⟩, hkc, hk2⟩ := spells_append.mp hk
  simp only [ids_append, ids_cons, List.nodup_append, List.nodup_cons,
    List.mem_append, List.mem_cons] at hnodup
  have hlist : t.children x = k1.roots ++ c :: k2.roots := by simpa using hc
  obtain ⟨t', hrun, hre⟩ := H.edits.linked.removeChild_relinks hlist
  refine TreeM.runs_edit hrun (H.relink (.inr (by simp)) hre (.of_removeChild hrun) ?_ ?_ ?_)
  · simp only [spells_append, spells_cons, roots_append]
    refine ⟨⟨hre.spells hf1 (by grind), ⟨hre.size_eq ▸ hb, (hre.label_eq x).trans hl, ?_⟩,
      ⟨hre.spells hk1 (by grind), hre.spells hk2 (by grind)⟩, hre.spells hf2 (by grind)⟩,
      ⟨hre.size_eq ▸ hbc, (hre.label_eq c).trans hlc, ?_⟩, hre.spells hkc (by grind),
      hre.spells H.stands.1 (by grind)⟩
    · rw [hre.children_eq, if_pos rfl]
    · rw [hre.children_eq, if_neg (by grind), hcc]
  · refine List.perm_iff_count.mpr fun q => ?_
    simp [List.count_append, List.count_cons]
    omega
  · rw [hre.children_eq, if_neg (H.ne_parent (by simp)).symm, H.list_eq]
    simp

/-- The child of a piece is taken out. -/
theorem removeOnly (H : P.Has clauses t f (.cons x l (.tree c lc kc) g)) :
    Runs (TreeM.removeChild x c) t fun _ t' =>
      P.Has clauses t' f (.cons x l .nil (.cons c lc kc g)) := by
  have hnodup := H.nodup
  obtain ⟨⟨hb, hl, hc⟩, ⟨⟨hbc, hlc, hcc⟩, hkc, -⟩, hg⟩ := H.stands.1
  simp only [ids_append, ids_cons, ids_nil, List.append_nil,
    nodup_append, nodup_cons, mem_append, mem_cons] at hnodup
  have hlist : t.children x = [] ++ c :: [] := hc
  obtain ⟨t', hrun, hre⟩ := H.edits.linked.removeChild_relinks hlist
  refine TreeM.runs_edit hrun (H.relink (.inr (by simp)) hre (.of_removeChild hrun) ?_ ?_ ?_)
  · refine spells_append.mpr ⟨hre.spells H.spells (by grind), ⟨hre.size_eq ▸ hb,
      (hre.label_eq x).trans hl, ?_⟩, trivial, ⟨hre.size_eq ▸ hbc, (hre.label_eq c).trans hlc, ?_⟩,
      hre.spells hkc (by grind), hre.spells hg (by grind)⟩
    · rw [hre.children_eq, if_pos rfl]
      rfl
    · rw [hre.children_eq, if_neg (by grind), hcc]
  · refine perm_iff_count.mpr fun q => ?_
    simp [List.count_append, List.count_cons]
  · rw [hre.children_eq, if_neg (H.ne_parent (by simp)).symm, H.list_eq]

/-- The list of the siblings is made of nodes at work, in another order. -/
theorem relinkSiblings (H : P.Has clauses t f g)
    (hre : t.Relinks t' fun q => if q = P.parent then P.before ++ f'.roots ++ P.after
      else t.children q) (hlinks : t.Relinked t') (hspells : t.Spells (f' ++ g'))
    (hids : (f' ++ g').ids.Perm (f ++ g).ids) : P.Has clauses t' f' g' :=
  H.relink (.inl rfl) hre hlinks
    (hre.spells hspells fun hin => H.ne_parent (hids.mem_iff.mp hin) rfl) hids
    ((hre.children_eq _).trans (if_pos rfl))

private theorem list_eq_at {f1 f2 : Forest} (H : P.Has clauses t (f1 ++ .cons a la ka f2) g) :
    t.children P.parent = (P.before ++ f1.roots) ++ a :: (f2.roots ++ P.after) := by
  rw [H.list_eq]
  simp

/-- A piece is put behind one of the siblings. -/
theorem addChildAfter (f1 f2 : Forest) (H : P.Has clauses t (f1 ++ .cons a la ka f2)
    (.cons c lc kc g)) :
    Runs (TreeM.addChildAfter P.parent c a) t fun _ t' =>
      P.Has clauses t' (f1 ++ .cons a la ka (.cons c lc kc f2)) g := by
  obtain ⟨hf1, ha, hka, hf2⟩ := spells_append.mp H.spells
  obtain ⟨hc, hkc, hg⟩ := H.stands.1
  obtain ⟨t', hrun, hre⟩ := H.edits.linked.addChildAfter_relinks H.list_eq_at hc.1
    (H.stands.2 c (by simp))
  refine TreeM.runs_edit hrun (H.relinkSiblings (by simpa using hre) (.of_addChildAfter hrun) ?_ ?_)
  · simp only [spells_append, spells_cons]
    exact ⟨⟨hf1, ha, hka, hc, hkc, hf2⟩, hg⟩
  · refine List.perm_iff_count.mpr fun q => ?_
    simp [List.count_append, List.count_cons]
    omega

/-- A piece is put before one of the siblings. -/
theorem addChildBefore (f1 f2 : Forest) (H : P.Has clauses t (f1 ++ .cons a la ka f2)
    (.cons c lc kc g)) :
    Runs (TreeM.addChildBefore P.parent c a) t fun _ t' =>
      P.Has clauses t' (f1 ++ .cons c lc kc (.cons a la ka f2)) g := by
  obtain ⟨hf1, ha, hka, hf2⟩ := spells_append.mp H.spells
  obtain ⟨hc, hkc, hg⟩ := H.stands.1
  obtain ⟨t', hrun, hre⟩ := H.edits.linked.addChildBefore_relinks H.list_eq_at hc.1
    (H.stands.2 c (by simp))
  refine TreeM.runs_edit hrun (H.relinkSiblings (by simpa using hre)
    (.of_addChildBefore hrun) ?_ ?_)
  · simp only [spells_append, spells_cons]
    exact ⟨⟨hf1, hc, hkc, ha, hka, hf2⟩, hg⟩
  · refine List.perm_iff_count.mpr fun q => ?_
    simp [List.count_append, List.count_cons]
    omega

/-- A piece takes the place of one of the siblings. -/
theorem replaceChild (f1 f2 : Forest) (H : P.Has clauses t (f1 ++ .cons a la ka f2)
    (.cons c lc kc g)) :
    Runs (TreeM.replaceChild P.parent a c) t fun _ t' =>
      P.Has clauses t' (f1 ++ .cons c lc kc f2) (.cons a la ka g) := by
  obtain ⟨hf1, ha, hka, hf2⟩ := spells_append.mp H.spells
  obtain ⟨hc, hkc, hg⟩ := H.stands.1
  obtain ⟨t', hrun, hre⟩ := H.edits.linked.replaceChild_relinks H.list_eq_at hc.1
    (H.stands.2 c (by simp))
  refine TreeM.runs_edit hrun (H.relinkSiblings (by simpa using hre) (.of_replaceChild hrun) ?_ ?_)
  · simp only [spells_append, spells_cons]
    exact ⟨⟨hf1, hc, hkc, hf2⟩, ha, hka, hg⟩
  · refine List.perm_iff_count.mpr fun q => ?_
    simp [List.count_append, List.count_cons]
    omega

end Plot.Has

end ScriptEngine
