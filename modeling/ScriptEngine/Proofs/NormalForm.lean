import ScriptEngine.Proofs.CodedTrees

/-!
# The normal form of lowered bodies

Lowering takes the statements apart that code cannot be written for. Jumps by name become jumps to a
target, declarations become assignments, an expression statement drops its value or keeps it as the
result of the script, and labels give up their names. What is left is read off the arena here: every
node that can be reached from the root of a body is in normal form, and every branch among them
leads to a target of the same body.
-/

namespace ScriptEngine

/-! ## Nodes that can be reached -/

/-- A node is the given one or lies below it, any number of levels deep. -/
inductive Tree.Reaches (t : Tree) (root : NodeId) : NodeId → Prop
  | refl : t.Reaches root root
  | child {parent id : NodeId} (hparent : t.Reaches root parent) (hchild : id ∈ t.children parent) :
      t.Reaches root id

namespace Tree

variable {t : Tree} {root id : NodeId} {l : Node} {f kids : Forest}

private theorem Spells.reaches (h : t.Spells f) (hroots : ∀ r ∈ f.roots, t.Reaches root r)
    (hid : id ∈ f.ids) : t.Reaches root id := by
  induction f with
  | nil => cases hid
  | cons id' l kids rest ihk ihr =>
    obtain ⟨⟨-, -, hc⟩, hkids, hrest⟩ := h
    have hself : t.Reaches root id' := hroots id' (by simp)
    simp only [Forest.ids_cons, List.mem_cons, List.mem_append] at hid
    rcases hid with rfl | hid | hid
    · exact hself
    · exact ihk hkids (fun r hr => .child hself (by rwa [hc])) hid
    · exact ihr hrest (fun r hr => hroots r (by simp [hr])) hid

/-- What can be reached from the root of a tree is the tree. -/
theorem reaches_iff (h : t.Spells (.tree root l kids)) :
    t.Reaches root id ↔ id ∈ root :: kids.ids := by
  have hids : (Forest.tree root l kids).ids = root :: kids.ids := by simp
  rw [← hids]
  constructor
  · intro hreach
    induction hreach with
    | refl => simp
    | child _ hchild ih => exact h.child_mem ih hchild
  · exact h.reaches fun r hr => by
      obtain rfl : r = root := by simpa using hr
      exact .refl

/-- A node of a forest that the arena holds has what all nodes of the forest have. -/
theorem Spells.of_all {P : Node → Forest → Prop} (h : t.Spells f) (hall : f.All P)
    (hid : id ∈ f.ids) : ∃ kids, P (t.label id) kids ∧ t.children id = kids.roots := by
  induction f with
  | nil => cases hid
  | cons id' l kids rest ihk ihr =>
    obtain ⟨⟨-, hl, hc⟩, hkids, hrest⟩ := h
    simp only [Forest.ids_cons, List.mem_cons, List.mem_append] at hid
    rcases hid with rfl | hid | hid
    · exact ⟨kids, hl ▸ hall.1, hc⟩
    · exact ihk hkids hall.2.1 hid
    · exact ihr hrest hall.2.2 hid

/-- Whatever has a depth is a target. -/
theorem Spells.kind_of_marks {w depth : Nat} {target : NodeId} (h : t.Spells f)
    (hmark : f.Marks w target depth) : target ∈ f.ids ∧ t.kind target = .target := by
  induction f generalizing w with
  | nil => exact hmark.elim
  | cons id' l kids rest ihk ihr =>
    obtain ⟨⟨-, hl, -⟩, hkids, hrest⟩ := h
    rcases hmark with ⟨hkind, rfl, -⟩ | hmark | hmark
    · exact ⟨by simp, by rw [t.kind_eq_label, hl, hkind]⟩
    · exact ⟨by simp [(ihk hkids hmark).1], (ihk hkids hmark).2⟩
    · exact ⟨by simp [(ihr hrest hmark).1], (ihr hrest hmark).2⟩

end Tree

/-! ## Nodes in normal form -/

private theorem Token.isSettled_of_isRoot {kind : Token} (h : kind.isRoot) :
    kind.isSettled ∧ kind.isBranch = false := by
  unfold isRoot at h
  split at h
  · exact ⟨rfl, rfl⟩
  · exact ⟨rfl, rfl⟩
  · cases h

namespace Node

variable {l : Node} {kids : Forest}

private theorem normal_of_kind {kind : Token} (h : l.kind = kind) (hkind : kind.isSettled) :
    l.Normal kids := .inl (h ▸ hkind)

private theorem Normal.kind_not_mem (h : l.Normal kids) :
    l.kind ∉ [.breakStmt, .continueStmt, .var, .exprStmt] := by
  intro hin
  simp only [List.mem_cons, List.not_mem_nil, or_false] at hin
  rcases h with hkind | ⟨hkind, -⟩
  · rcases hin with hk | hk | hk | hk <;> simp [hk, Token.isSettled] at hkind
  · simp [hkind] at hin

private theorem Normal.kids_eq_nil (h : l.Normal kids) (hl : l.kind = .label) : kids = .nil :=
  h.elim (fun hkind => by simp [hl, Token.isSettled] at hkind) And.right

end Node

/-- Accesses by slot are in normal form. -/
theorem Slotted.normal {rules : SlotRules} {p : NodeId} {changes : List SlotChange}
    {cut h k : Forest} {limits : Limits} (hs : Slotted rules p changes cut h k)
    (hready : h.All (Node.Ready limits)) : k.All Node.Normal := by
  induction hs with
  | nil => trivial
  | keep _ hkids _ ihk ihr =>
    refine ⟨hready.1.normal.imp_right fun ⟨hlabel, hnil⟩ => ⟨hlabel, ?_⟩, ihk hready.2.1,
      ihr hready.2.2⟩
    rw [hnil] at hkids
    exact hkids.kids_nil
  | getVar _ _ _ _ _ ih => exact ⟨Node.normal_of_kind rfl rfl, trivial, ih hready.2.2⟩
  | setVar _ _ _ _ _ _ _ ihv ihr =>
    exact ⟨Node.normal_of_kind rfl rfl, ⟨Node.normal_of_kind rfl rfl, trivial,
      ihv hready.2.1.2.2⟩, ihr hready.2.2⟩
  | deleted _ _ _ _ _ _ ih => exact ⟨Node.normal_of_kind rfl rfl, trivial, ih hready.2.2⟩

/-! ## Branches -/

/-- Branches lead to targets with depths. -/
theorem Forest.Flows.branches {depths : Depths} {f : Forest} {w w' : Nat}
    (h : f.Flows depths w w') : f.All fun l _ => l.kind.isBranch →
      ∃ target depth, l.target? = some target ∧ depths.target target depth := by
  induction f generalizing w w' with
  | nil => trivial
  | cons id l kids rest ihk ihr =>
    obtain ⟨-, u, v, hkids, hstep, hrest⟩ := h
    refine ⟨fun hkind => ?_, ihk hkids, ihr hrest⟩
    obtain ⟨target, htarget, hdepth⟩ := hstep.exists_target hkind
    exact ⟨target, u, htarget, hdepth⟩

/-- A lowered body is in normal form. -/
theorem Layout.Done.normal {L : Layout} {config : Config} {s : LoweringState} {j : BodyId}
    {first : Nat} (hs : L.Sound s) (hd : L.Done config s j first) :
    (s.program.statements j).All Node.Normal := by
  obtain ⟨h, events, changes, cut, hlow, hslotted⟩ := hd.exists_slotted hs
  exact hslotted.normal (hlow.ready (L.fits j))

/-- After lowering, whatever can be reached from the root of a body is in normal form. There are no
jumps by name, declarations or expression statements left, no label has anything below it, and every
branch has a target, which is a node of that kind and stands once in the same body. -/
theorem lowered_normal_form {script : Document.Script} {fallback : Option String} {p : Program}
    (hops : script.usesOperators) (hbuild : Document.build script fallback = .ok (.ok p))
    (config : Config) :
    ∃ q diagnostics, p.lower config = .ok (q, diagnostics) ∧ q.bodies.size = p.bodies.size ∧
      ∀ j : BodyId, j.index < q.bodies.size → ∀ id, q.tree.Reaches (q.body j).root id →
        q.tree.kind id ∉ [.breakStmt, .continueStmt, .var, .exprStmt] ∧
        (q.tree.kind id = .label → q.tree.children id = []) ∧
        (q.tree.kind id ∈ [.goto, .ifEq, .ifNe, .jsr] → ∃ target,
          q.tree.target? id = some target ∧ q.tree.kind target = .target ∧
          ((q.body j).root :: (q.statements j).ids).count target = 1) := by
  have hframed := (Document.build_framed hops hbuild).1
  obtain ⟨L, rfl⟩ := hframed.exists_layout
  obtain ⟨s, hlower, hs, hdone, -⟩ := L.lower_eq config
  refine ⟨s.program, s.diagnostics, hlower, hs.bodies_size, fun j hj id hid => ?_⟩
  have hj' : j.index < L.size := hs.bodies_size ▸ hj
  have hd := hdone j hj'
  have hst := hd.stands hs
  have hnodup := hs.linked.nodup_of_stands hst (by simp)
  rw [hs.root_eq j] at hid ⊢
  rw [Tree.reaches_iff hst.1] at hid
  obtain ⟨⟨-, hroot, hbelow⟩, hspells, -⟩ := hst.1
  have hfacts : (∃ kids, (s.tree.label id).Normal kids ∧ s.tree.children id = kids.roots) ∧
      ((s.tree.label id).kind.isBranch → ∃ target, s.tree.target? id = some target ∧
        s.tree.kind target = .target ∧ target ∈ (s.program.statements j).ids) := by
    rcases List.mem_cons.mp hid with rfl | hid
    · -- The root of a body is neither taken away nor a branch.
      have hkind : (s.tree.label (L.root j)).kind.isRoot := hroot ▸ (hframed.isRoot hj').1
      obtain ⟨hsettled, hbranch⟩ := Token.isSettled_of_isRoot hkind
      exact ⟨⟨_, .inl hsettled, hbelow⟩, fun hb => by simp [hbranch] at hb⟩
    · obtain ⟨-, hbranch, -⟩ := hspells.of_all (hd.coded hs).2.branches hid
      refine ⟨hspells.of_all (hd.normal hs) hid, fun hkind => ?_⟩
      obtain ⟨target, depth, htarget, hmark⟩ := hbranch hkind
      obtain ⟨hmem, htkind⟩ := hspells.kind_of_marks hmark
      exact ⟨target, (s.tree.target?_eq_label id).trans htarget, htkind, hmem⟩
  obtain ⟨⟨kids, hnormal, hchildren⟩, hbranch⟩ := hfacts
  refine ⟨hnormal.kind_not_mem, fun hlabel => ?_, fun hin => ?_⟩
  · rw [hchildren, hnormal.kids_eq_nil hlabel, Forest.roots_nil]
  · have hkind : (s.tree.label id).kind.isBranch := by
      simp only [List.mem_cons, List.not_mem_nil, or_false] at hin
      rcases hin with hk | hk | hk | hk <;> exact congrArg Token.isBranch hk
    obtain ⟨target, htarget, htkind, hmem⟩ := hbranch hkind
    exact ⟨target, htarget, htkind, List.count_eq_one_of_mem (by simpa using hnodup)
      (by simp [hmem])⟩

/-- A labelled loop with a declaration and jumps out of a try with a finally block. There are labels
and branches of all kinds in the end. -/
theorem lowered_normal_form_of_loop :
    let script : Document.Script := ⟨none, [.function (.mk "f" ["a"] [
      .labelled "l" (.whileLoop (.name "a") (.tryCatch [
        .var [.mk "b" (some (.name "a"))] 3, .continueTo (some "l") 4] []
        (some [.breakTo none 5]) 3)
          2) 1,
      .ifElse (.name "a") (.expr (.name "b") 6) none 6] 1 7 none)], 7⟩
    ∃ p q diagnostics, script.usesOperators = true ∧ Document.build script none = .ok (.ok p) ∧
      p.lower {} = .ok (q, diagnostics) ∧
      (∀ kind ∈ [Token.label, .goto, .ifEq, .ifNe, .jsr], ∃ id ∈ (q.statements ⟨1⟩).ids,
        q.tree.kind id = kind) ∧
      ∀ id, q.tree.Reaches (q.body ⟨1⟩).root id →
        q.tree.kind id ∉ [.breakStmt, .continueStmt, .var, .exprStmt] ∧
        (q.tree.kind id = .label → q.tree.children id = []) ∧
        (q.tree.kind id ∈ [.goto, .ifEq, .ifNe, .jsr] → ∃ target,
          q.tree.target? id = some target ∧ q.tree.kind target = .target ∧
          ((q.body ⟨1⟩).root :: (q.statements ⟨1⟩).ids).count target = 1) := by
  intro script
  have hops : script.usesOperators = true := by decide
  have hmade : Document.buildsTo script none (fun p => (p.lower {}).toOption.any fun r =>
      decide (1 < r.1.bodies.size ∧ ∀ kind ∈ [Token.label, .goto, .ifEq, .ifNe, .jsr],
        ∃ id ∈ (r.1.statements ⟨1⟩).ids, r.1.tree.kind id = kind)) = true := by
    decide +kernel
  obtain ⟨p, hbuild, htest⟩ := Document.exists_buildsTo hmade
  obtain ⟨q, diagnostics, hlower, -, hall⟩ := lowered_normal_form hops hbuild {}
  rw [hlower] at htest
  obtain ⟨hsize, hkinds⟩ := of_decide_eq_true htest
  exact ⟨p, q, diagnostics, hops, hbuild, hlower, hkinds, hall ⟨1⟩ hsize⟩

end ScriptEngine
