import ScriptEngine.Proofs.EditEffects

/-!
# References between nodes

Besides its links a node refers to others: jumps to their targets, the parts of an enumeration to
its start. While a tree is built, the node that is referred to is made first, so all references lead
to nodes of the arena. Clauses of switches are recorded only later, when the tree is lowered.
-/

namespace ScriptEngine

/-- The nodes that the data of a node refer to. -/
def NodeData.refs : NodeData → List NodeId
  | .none | .function _ => []
  | .jump j => j.target.toList ++ (j.continueTarget.toList ++ j.finallyTarget.toList)
  | .switch s => s.target.toList ++ (s.cases ++ s.fallback.toList)

def AttrValue.refs : AttrValue → List NodeId
  | .int _ => []
  | .node id => [id]

def Attrs.refs (a : Attrs) : List NodeId := a.entries.flatMap fun e => e.2.refs

/-- The nodes that a node refers to, apart from its links. -/
def Node.refs (n : Node) : List NodeId := n.data.refs ++ n.attrs.refs

/-- The references of a node lead to nodes before a bound. -/
def Node.RefersBelow (bound : Nat) (n : Node) : Prop := ∀ r ∈ n.refs, r.index < bound

/-- A node before lowering: it has no recorded clauses, and its references lead to nodes before a
bound. -/
structure Node.Raw (bound : Nat) (n : Node) : Prop where
  clauses_eq : n.data.clauses = {}
  refers : n.RefersBelow bound

/-- No clauses have been recorded yet, and every reference leads to a node of the arena. -/
def Tree.Raw (t : Tree) : Prop := ∀ q, (t.node q).Raw t.size

theorem NodeData.refs_ofKind (kind : Token) : (NodeData.ofKind kind).refs = [] := by
  unfold NodeData.ofKind
  split
  · rfl
  · split <;> rfl

private theorem Attrs.refs_insert {a : Attrs} {key : AttrKey} {value : AttrValue} {r : NodeId}
    (h : r ∈ (a.insert key value).refs) : r ∈ a.refs ∨ r ∈ value.refs := by
  simp only [refs, List.mem_flatMap] at h ⊢
  obtain ⟨e, he, hr⟩ := h
  unfold insert at he
  split at he
  · obtain ⟨e', he', rfl⟩ := List.mem_map.mp he
    by_cases hkey : e'.1 = key
    · rw [if_pos hkey] at hr
      exact .inr hr
    · rw [if_neg hkey] at hr
      exact .inl ⟨e', he', hr⟩
  · rcases List.mem_append.mp he with he | he
    · exact .inl ⟨e, he, hr⟩
    · rw [List.mem_singleton.mp he] at hr
      exact .inr hr

namespace Node

variable {n : Node} {bound : Nat}

/-- A fresh node refers to nothing. -/
theorem Raw.fresh (hdata : n.data = .ofKind n.kind) (hattrs : n.attrs = {}) : n.Raw bound := by
  constructor
  · rw [hdata, NodeData.clauses_ofKind]
  · intro r hr
    simp [refs, hdata, hattrs, NodeData.refs_ofKind, Attrs.refs] at hr

/-- An attribute with references to nodes of the tree. -/
theorem Raw.setAttr (h : n.Raw bound) {key : AttrKey} {value : AttrValue}
    (hvalue : ∀ r ∈ value.refs, r.index < bound) :
    Raw bound { n with attrs := n.attrs.insert key value } := by
  refine ⟨h.clauses_eq, fun r hr => ?_⟩
  rcases List.mem_append.mp hr with hr | hr
  · exact h.refers r (List.mem_append_left _ hr)
  · exact (Attrs.refs_insert hr).elim (fun hr => h.refers r (List.mem_append_right _ hr)) (hvalue r)

theorem Raw.setFunction (h : n.Raw bound) (body : BodyId) :
    Raw bound { n with data := .function body } :=
  ⟨rfl, fun r hr => h.refers r (List.mem_append_right _ hr)⟩

end Node

namespace Tree

variable {t t' : Tree} {id : NodeId}

/-- A change to one node keeps references in the tree. -/
theorem Raw.modify (h : t.Raw) {f : Node → Node}
    (hf : (t.node id).Raw t.size → (f (t.node id)).Raw t.size) : (t.modify id f).Raw := by
  intro q
  rw [size_modify]
  by_cases hid : id.index < t.size
  · rw [node_modify t id q f hid]
    split
    · next hq => exact hq ▸ hf (h id)
    · exact h q
  · rw [node_modify_of_size_le t id q f (by omega)]
    exact h q

/-- A new node may refer to the nodes before it. -/
theorem Raw.push (h : t.Raw) {n : Node} (hn : n.Raw t.size) : (t.push n).2.Raw := by
  have hsize : (t.push n).2.size = t.size + 1 := by simp [Tree.push, size]
  intro q
  rw [node_push, hsize]
  split
  · exact ⟨hn.clauses_eq, fun r hr => Nat.lt_succ_of_lt (hn.refers r hr)⟩
  · exact ⟨(h q).clauses_eq, fun r hr => Nat.lt_succ_of_lt ((h q).refers r hr)⟩

/-- Links are no references. -/
theorem Relinked.raw (h : t.Relinked t') (ht : t.Raw) : t'.Raw := by
  intro q
  have hnode : (t.node q).detached.Raw t.size := ⟨(ht q).clauses_eq, (ht q).refers⟩
  rw [← h.node_eq q, ← h.size_eq] at hnode
  exact ⟨hnode.clauses_eq, hnode.refers⟩

end Tree

end ScriptEngine
