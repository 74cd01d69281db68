import ScriptEngine.Proofs.ChildLists

/-!
# What edits change

Whatever the state of an arena is, an edit that succeeds changes little of it: the structural edits
change links and nothing else, so that labels and recorded clauses stay.
-/

namespace ScriptEngine

/-- The clauses that have been recorded with a switch. -/
def NodeData.clauses : NodeData → SwitchData
  | .switch data => { data with target := Option.none }
  | .none | .jump _ | .function _ => {}

/-- A new node has no clauses. -/
theorem NodeData.clauses_ofKind (kind : Token) : (NodeData.ofKind kind).clauses = {} := by
  unfold NodeData.ofKind
  split
  · rfl
  · split <;> rfl

namespace Tree

variable {t t' t'' : Tree} {parent child new anchor : NodeId}

/-- A change behind the last node changes nothing. -/
theorem node_modify_of_size_le (t : Tree) (id q : NodeId) (f : Node → Node)
    (h : t.size ≤ id.index) : (t.modify id f).node q = t.node q := by
  have hsame : t.nodes.modify id.index f = t.nodes := by
    apply Array.ext_getElem?
    intro i
    rw [Array.getElem?_modify]
    split
    · next hi =>
      subst hi
      rw [Array.getElem?_eq_none h]
      rfl
    · rfl
  rw [modify, hsame]

/-- What a change of one node keeps, it keeps in all. -/
theorem node_modify_eq {α : Type} (g : Node → α) (t : Tree) (id q : NodeId) {f : Node → Node}
    (hf : g (f (t.node id)) = g (t.node id)) : g ((t.modify id f).node q) = g (t.node q) := by
  by_cases hid : id.index < t.size
  · rw [node_modify t id q f hid]
    split
    · next hq => exact hq ▸ hf
    · rfl
  · rw [node_modify_of_size_le t id q f (by omega)]

/-- Only links have changed. -/
structure Relinked (t t' : Tree) : Prop where
  size_eq : t'.size = t.size
  node_eq : ∀ q, (t'.node q).detached = (t.node q).detached

namespace Relinked

private theorem refl (t : Tree) : t.Relinked t := ⟨rfl, fun _ => rfl⟩

private theorem trans (h : t.Relinked t') (h' : t'.Relinked t'') : t.Relinked t'' :=
  ⟨h'.size_eq.trans h.size_eq, fun q => (h'.node_eq q).trans (h.node_eq q)⟩

/-- Labels do not depend on links. -/
theorem label_eq (h : t.Relinked t') (q : NodeId) : t'.label q = t.label q := by
  have hlabel := congrArg Node.label (h.node_eq q)
  exact hlabel

private theorem setFirst (t : Tree) (id : NodeId) (first : Option NodeId) :
    t.Relinked (t.setFirst id first) :=
  ⟨size_modify .., fun q => node_modify_eq Node.detached t id q rfl⟩

private theorem setLast (t : Tree) (id : NodeId) (last : Option NodeId) :
    t.Relinked (t.setLast id last) :=
  ⟨size_modify .., fun q => node_modify_eq Node.detached t id q rfl⟩

private theorem setNext (t : Tree) (id : NodeId) (next : Option NodeId) :
    t.Relinked (t.setNext id next) :=
  ⟨size_modify .., fun q => node_modify_eq Node.detached t id q rfl⟩

private theorem ite {c : Prop} [Decidable c] (h : t.Relinked t') (h' : t.Relinked t'') :
    t.Relinked (if c then t' else t'') := by
  split
  · exact h
  · exact h'

theorem linkFront (t : Tree) (parent head tail : NodeId) :
    t.Relinked (t.linkFront parent head tail) :=
  ((setNext ..).trans (setFirst ..)).trans (ite (setLast ..) (refl _))

theorem linkBack (t : Tree) (parent head tail : NodeId) :
    t.Relinked (t.linkBack parent head tail) := by
  refine trans ?_ (setLast ..)
  cases t.lastChild? parent with
  | none => exact setFirst ..
  | some last => exact setNext ..

/-- A run in the place of a child changes links only. -/
theorem splice (t : Tree) (parent : NodeId) (before : Option NodeId) (child new : NodeId) :
    t.Relinked (t.splice parent before child new) := by
  have hnext : t.Relinked (t.setNext (t.lastSibling new) (t.next? child)) := setNext ..
  refine trans (trans (hnext.trans ?_) (ite (setLast ..) (refl _))) (setNext ..)
  cases before with
  | none => exact setFirst ..
  | some b => exact setNext ..

/-- The checks in front of an edit change nothing. -/
theorem of_bind {γ : Type} {e : Except Fault γ} {g : γ → Except Fault Tree}
    (h : (e >>= g) = .ok t') (hg : ∀ c, g c = .ok t' → t.Relinked t') : t.Relinked t' := by
  cases e with
  | error fault => cases h
  | ok c => exact hg c h

theorem of_addChildToFront (h : t.addChildToFront parent child = .ok t') : t.Relinked t' := by
  refine of_bind h fun _ h => of_bind h fun _ h => ?_
  cases h
  exact linkFront ..

theorem of_addChildToBack (h : t.addChildToBack parent child = .ok t') : t.Relinked t' := by
  refine of_bind h fun _ h => of_bind h fun _ h => ?_
  cases h
  exact linkBack ..

theorem of_addChildAfter (h : t.addChildAfter parent new anchor = .ok t') : t.Relinked t' := by
  refine of_bind h fun _ h => of_bind h fun _ h => of_bind h fun _ h => ?_
  cases h
  exact ((setNext ..).trans (setNext ..)).trans (ite (setLast ..) (refl _))

theorem of_addChildBefore (h : t.addChildBefore parent new anchor = .ok t') : t.Relinked t' := by
  refine of_bind h fun _ h => of_bind h fun before h => ?_
  cases before with
  | none =>
    cases h
    exact (setNext ..).trans (setFirst ..)
  | some b => exact of_addChildAfter h

theorem of_removeChild (h : t.removeChild parent child = .ok t') : t.Relinked t' := by
  refine of_bind h fun before h => ?_
  cases h
  refine trans (trans ?_ (ite (setLast ..) (refl _))) (setNext ..)
  cases before with
  | none => exact setFirst ..
  | some b => exact setNext ..

theorem of_replaceChild (h : t.replaceChild parent child new = .ok t') : t.Relinked t' := by
  refine of_bind h fun before h => of_bind h fun _ h => ?_
  cases h
  exact splice ..

end Relinked

/-! ## Recorded clauses -/

/-- The clauses that have been recorded with a node. -/
def clauses (t : Tree) (id : NodeId) : SwitchData := (t.node id).data.clauses

/-- A change that keeps the clauses of its node keeps all. -/
theorem clauses_modify (t : Tree) (id : NodeId) {f : Node → Node}
    (hf : (f (t.node id)).data.clauses = (t.node id).data.clauses) :
    (t.modify id f).clauses = t.clauses :=
  funext fun q => node_modify_eq (·.data.clauses) t id q hf

/-- A fresh node has no clauses, like a position outside of the arena. -/
theorem clauses_push (t : Tree) {n : Node} (hn : n.data.clauses = {}) :
    (t.push n).2.clauses = t.clauses := by
  funext q
  rw [clauses, clauses, node_push]
  split
  · next hq =>
    rw [hn, node_of_size_le t q (Nat.le_of_eq (congrArg NodeId.index hq.symm))]
    rfl
  · rfl

/-- Clauses do not depend on links. -/
theorem Relinked.clauses_eq (h : t.Relinked t') : t'.clauses = t.clauses := by
  funext q
  have hsame := congrArg (·.data.clauses) (h.node_eq q)
  exact hsame

end Tree

end ScriptEngine
