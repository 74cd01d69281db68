import Mathlib.Data.List.Perm.Subperm
import ScriptEngine.Syntax.Tree

/-!
# Linked arenas

A tree is chained when the sibling chain of every node ends, its `last` link is the end of that
chain, and no node stands in two places. It is linked when, besides, the nodes outside of all child
lists have no siblings. The view of a linked tree is the pair of `Tree.children` and `Tree.label`;
links are not looked at again once an operation is known by what it does to this view. No node of an
acyclic tree is below itself.
-/

namespace ScriptEngine

variable {t t' : Tree} {xs ys : List NodeId} {p c : NodeId} {start stop : Option NodeId}

/-- Data of a node without the clauses that a switch collects while it is lowered. -/
def NodeData.withoutClauses : NodeData → NodeData
  | .switch data => .switch { target := data.target }
  | data => data

/-- What a node says by itself: everything but its links and the clauses of a switch. -/
def Node.label (n : Node) : Node := { n.detached with data := n.data.withoutClauses }

namespace Tree

/-- What a node says by itself. -/
def label (t : Tree) (id : NodeId) : Node := (t.node id).label

/-- A node that is in no child list. -/
def Orphan (t : Tree) (id : NodeId) : Prop := ∀ p, id ∉ t.children p

/-- Following sibling links from `start` passes over the list and arrives at `stop`. -/
def Segment (t : Tree) : Option NodeId → List NodeId → Option NodeId → Prop
  | start, [], stop => start = stop
  | start, c :: rest, stop => start = some c ∧ Segment t (t.next? c) rest stop

/-- The links of the tree follow its child lists, and no node stands in two places. -/
structure Chained (t : Tree) : Prop where
  segment : ∀ p, t.Segment (t.firstChild? p) (t.children p) none
  last : ∀ p, t.lastChild? p = (t.children p).getLast?
  bound : ∀ p, ∀ c ∈ t.children p, c.index < t.size
  nodup : ∀ p, (t.children p).Nodup
  unique : ∀ p q c, c ∈ t.children p → c ∈ t.children q → p = q

/-- A chained tree in which the nodes outside of all child lists have no siblings. -/
structure Linked (t : Tree) : Prop extends Chained t where
  detached : ∀ c, t.Orphan c → t.next? c = none

/-- The second node is below the first. -/
def Below (t : Tree) : NodeId → NodeId → Prop := Relation.TransGen fun p c => c ∈ t.children p

/-- No node is below itself. -/
def Acyclic (t : Tree) : Prop := ∀ p, ¬ t.Below p p

/-- A node in no child list is below no other. -/
theorem Orphan.not_below {q : NodeId} (h : t.Orphan q) : ¬ t.Below p q := by
  rintro (hq | ⟨-, hq⟩) <;> exact h _ hq

/-- Other child lists make no cycle if one end of every new link is on none. -/
theorem Acyclic.of_links (h : t.Acyclic) (hlink : ∀ p, ∀ c ∈ t'.children p,
    c ∈ t.children p ∨ ¬ t'.Below p p ∨ ¬ t'.Below c c) : t'.Acyclic := by
  intro p hp
  -- What a cycle goes through was below its start before.
  have hold : ∀ {q}, t'.Below p q → t'.Below q p → t.Below p q := by
    intro q hpq hqp
    induction hpq with
    | single hc =>
      exact .single ((hlink _ _ hc).resolve_right fun h => h.elim (· hp) (· (hqp.tail hc)))
    | @tail b c hpb hc ih =>
      have hbp : t'.Below b p := .head hc hqp
      exact (ih hbp).tail ((hlink _ _ hc).resolve_right fun h =>
        h.elim (· (hbp.trans hpb)) (· (hqp.trans (hpb.tail hc))))
  exact h p (hold hp hp)

/-! ## Single nodes -/

@[simp] theorem size_modify (t : Tree) (id : NodeId) (f : Node → Node) :
    (t.modify id f).size = t.size := by
  simp [modify, size]

/-- A change to one node, read at any node. -/
theorem node_modify (t : Tree) (id q : NodeId) (f : Node → Node) (h : id.index < t.size) :
    (t.modify id f).node q = if q = id then f (t.node q) else t.node q := by
  simp only [modify, node, Array.getD_eq_getD_getElem?, Array.getElem?_modify]
  by_cases hq : q = id
  · subst hq
    have hs : q.index < t.nodes.size := h
    simp [hs]
  · have hne : ¬ id.index = q.index := by
      intro he
      exact hq (by cases q; cases id; simp_all)
    simp [hq, hne]

/-- Behind the last node there is the default one. -/
theorem node_of_size_le (t : Tree) (id : NodeId) (h : t.size ≤ id.index) : t.node id = default := by
  have hs : t.nodes.size ≤ id.index := h
  simp [node, Array.getD_eq_getD_getElem?, hs]

/-- Behind the last node there are no children. -/
theorem children_of_size_le (t : Tree) (id : NodeId) (h : t.size ≤ id.index) :
    t.children id = [] := by
  have hn : t.firstChild? id = none := by
    simp only [firstChild?, node_of_size_le t id h]
    rfl
  simp only [children, run, hn]
  cases t.size <;> rfl

/-! ## Segments -/

@[simp] theorem segment_nil : t.Segment start [] stop ↔ start = stop := Iff.rfl

/-- A segment in two parts. -/
theorem segment_append :
    t.Segment start (xs ++ ys) stop ↔
      ∃ middle, t.Segment start xs middle ∧ t.Segment middle ys stop := by
  induction xs generalizing start with
  | nil => simp [Segment]
  | cons x xs ih =>
    simp only [List.cons_append, Segment, ih]
    constructor
    · rintro ⟨h, m, h1, h2⟩
      exact ⟨m, ⟨h, h1⟩, h2⟩
    · rintro ⟨m, ⟨h, h1⟩, h2⟩
      exact ⟨h, m, h1, h2⟩

/-- A segment starts at its first element. -/
theorem Segment.start_eq (h : t.Segment start xs stop) : start = xs.head?.or stop := by
  cases xs with
  | nil => simpa [Segment] using h
  | cons x xs => simp [h.1]

/-- A segment depends on the links of its own nodes only. -/
theorem Segment.congr (h : t.Segment start xs stop)
    (hn : ∀ c ∈ xs, t'.next? c = t.next? c) : t'.Segment start xs stop := by
  induction xs generalizing start with
  | nil => exact h
  | cons x xs ih =>
    refine ⟨h.1, ?_⟩
    rw [hn x List.mem_cons_self]
    exact ih h.2 fun c hc => hn c (List.mem_cons_of_mem _ hc)

/-- The link of an inner element leads to the element behind it. -/
theorem Segment.next?_eq
    (h : t.Segment start (xs ++ c :: ys) stop) : t.next? c = ys.head?.or stop := by
  obtain ⟨m, -, -, hseg⟩ := segment_append.mp h
  exact hseg.start_eq

/-- A segment that ends is the run from its start, if the arena has room for it. -/
theorem Segment.siblingsFrom_eq (h : t.Segment start xs none) {fuel : Nat}
    (hlen : xs.length ≤ fuel) : t.siblingsFrom fuel start = xs := by
  induction xs generalizing start fuel with
  | nil =>
    cases h
    cases fuel <;> rfl
  | cons x xs ih =>
    obtain ⟨rfl, hrest⟩ := h
    cases fuel with
    | zero => simp at hlen
    | succ fuel =>
      simp only [List.length_cons, Nat.add_le_add_iff_right] at hlen
      simp only [siblingsFrom, ih hrest hlen]

/-- Distinct nodes of the arena are at most as many as it has room for. -/
theorem length_le_size (hnd : xs.Nodup) (hb : ∀ c ∈ xs, c.index < t.size) : xs.length ≤ t.size := by
  have hmap : (xs.map NodeId.index).Nodup := by
    refine List.Pairwise.map _ ?_ hnd
    intro a b hab he
    exact hab (by cases a; cases b; simp_all)
  have hsub : (xs.map NodeId.index) ⊆ List.range t.size := by
    intro i hi
    obtain ⟨c, hc, rfl⟩ := List.mem_map.mp hi
    exact List.mem_range.mpr (hb c hc)
  have hlen := (List.subperm_of_subset hmap hsub).length_le
  simpa using hlen

/-! ## Chained and linked trees -/

/-- Links that follow given lists make a chained tree with these child lists. -/
theorem Chained.of_lists (lists : NodeId → List NodeId)
    (hseg : ∀ p, t.Segment (t.firstChild? p) (lists p) none)
    (hlast : ∀ p, t.lastChild? p = (lists p).getLast?)
    (hbound : ∀ p, ∀ c ∈ lists p, c.index < t.size) (hnodup : ∀ p, (lists p).Nodup)
    (hunique : ∀ p q c, c ∈ lists p → c ∈ lists q → p = q) :
    t.Chained ∧ ∀ p, t.children p = lists p := by
  have hch : ∀ p, t.children p = lists p := fun p =>
    (hseg p).siblingsFrom_eq (length_le_size (hnodup p) (hbound p))
  refine ⟨⟨?_, ?_, ?_, ?_, ?_⟩, hch⟩
  · intro p
    rw [hch p]
    exact hseg p
  · intro p
    rw [hch p]
    exact hlast p
  · intro p c hc
    rw [hch p] at hc
    exact hbound p c hc
  · intro p
    rw [hch p]
    exact hnodup p
  · intro p q c hp hq
    rw [hch p] at hp
    rw [hch q] at hq
    exact hunique p q c hp hq

/-- They make a linked tree if the other nodes have no siblings. -/
theorem Linked.of_lists (lists : NodeId → List NodeId)
    (hseg : ∀ p, t.Segment (t.firstChild? p) (lists p) none)
    (hlast : ∀ p, t.lastChild? p = (lists p).getLast?)
    (hbound : ∀ p, ∀ c ∈ lists p, c.index < t.size) (hnodup : ∀ p, (lists p).Nodup)
    (hunique : ∀ p q c, c ∈ lists p → c ∈ lists q → p = q)
    (hdet : ∀ c, (∀ p, c ∉ lists p) → t.next? c = none) :
    t.Linked ∧ ∀ p, t.children p = lists p := by
  obtain ⟨hchained, hch⟩ := Chained.of_lists lists hseg hlast hbound hnodup hunique
  refine ⟨⟨hchained, fun c hc => hdet c fun p hp => hc p ?_⟩, hch⟩
  rw [hch p]
  exact hp

section

variable (h : t.Chained)

include h

/-- The sibling link of a child leads to the next element of the list. -/
theorem Chained.next?_of_children (hc : t.children p = xs ++ c :: ys) : t.next? c = ys.head? := by
  have hseg := h.segment p
  rw [hc] at hseg
  simpa using hseg.next?_eq

/-- The link to the first child leads to the head of the list. -/
theorem Chained.firstChild?_eq : t.firstChild? p = (t.children p).head? := by
  simpa using (h.segment p).start_eq

/-- The siblings behind a child are the rest of the list. -/
theorem Chained.run_next?_of_children (hc : t.children p = xs ++ c :: ys) :
    t.run (t.next? c) = ys := by
  have hseg := h.segment p
  rw [hc] at hseg
  obtain ⟨m, -, -, hrest⟩ := segment_append.mp hseg
  have hnd := h.nodup p
  have hb := h.bound p
  rw [hc] at hnd hb
  refine hrest.siblingsFrom_eq (length_le_size ?_ ?_)
  · exact (List.nodup_cons.mp (List.nodup_append.mp hnd).2.1).2
  · intro d hd
    exact hb d (by simp [hd])

end

/-- A node with children is a node of the arena. -/
theorem parent_bound (hc : c ∈ t.children p) : p.index < t.size := by
  by_cases hp : p.index < t.size
  · exact hp
  · rw [children_of_size_le t p (by omega)] at hc
    simp at hc

/-- The tree after an edit has the given child lists and the old labels. -/
structure Relinks (t t' : Tree) (lists : NodeId → List NodeId) : Prop where
  linked : t'.Linked
  size_eq : t'.size = t.size
  children_eq : ∀ q, t'.children q = lists q
  label_eq : ∀ q, t'.label q = t.label q

/-- The tree after a change has the given label at one node and the old ones elsewhere. -/
structure Relabels (t t' : Tree) (id : NodeId) (label : Node) : Prop where
  linked : t'.Linked
  size_eq : t'.size = t.size
  children_eq : ∀ q, t'.children q = t.children q
  label_eq : ∀ q, t'.label q = if q = id then label else t.label q

/-- The tree has one more node, without children and in no child list. -/
structure Grows (t t' : Tree) (label : Node) : Prop where
  linked : t'.Linked
  size_eq : t'.size = t.size + 1
  children_eq : ∀ q, t'.children q = t.children q
  label_eq : ∀ q, t'.label q = if q = ⟨t.size⟩ then label else t.label q

/-- Trees with the same links have the same child lists. -/
theorem children_congr (hs : t'.size = t.size) (hf : ∀ q, t'.firstChild? q = t.firstChild? q)
    (hn : ∀ q, t'.next? q = t.next? q) (p : NodeId) : t'.children p = t.children p := by
  have hrun : ∀ fuel start, t'.siblingsFrom fuel start = t.siblingsFrom fuel start := by
    intro fuel
    induction fuel with
    | zero => intro start; cases start <;> rfl
    | succ fuel ih =>
      intro start
      cases start with
      | none => rfl
      | some c => simp only [siblingsFrom, hn, ih]
  simp only [children, run, hs, hf, hrun]

private theorem Linked.of_same_links (h : t.Linked) (hs : t'.size = t.size)
    (hf : ∀ q, t'.firstChild? q = t.firstChild? q) (hl : ∀ q, t'.lastChild? q = t.lastChild? q)
    (hn : ∀ q, t'.next? q = t.next? q) : t'.Linked := by
  have hch := children_congr hs hf hn
  refine (Linked.of_lists t.children ?_ ?_ ?_ h.nodup h.unique ?_).1
  · intro p
    rw [hf p]
    exact (h.segment p).congr fun c _ => hn c
  · intro p
    rw [hl p]
    exact h.last p
  · intro p c hc
    rw [hs]
    exact h.bound p c hc
  · intro c hc
    rw [hn c]
    exact h.detached c hc

/-- A change that keeps the links of a node changes its label only. -/
theorem modify_relabels (h : t.Linked) {id : NodeId} (hid : id.index < t.size) {f : Node → Node}
    (hf : ∀ n, (f n).first = n.first) (hl : ∀ n, (f n).last = n.last)
    (hn : ∀ n, (f n).next = n.next) : t.Relabels (t.modify id f) id (f (t.node id)).label := by
  have hsize : (t.modify id f).size = t.size := size_modify t id f
  have hfirst : ∀ q, (t.modify id f).firstChild? q = t.firstChild? q := by
    intro q
    simp only [firstChild?, node_modify t id q f hid]
    split <;> simp [hf]
  have hlast : ∀ q, (t.modify id f).lastChild? q = t.lastChild? q := by
    intro q
    simp only [lastChild?, node_modify t id q f hid]
    split <;> simp [hl]
  have hnext : ∀ q, (t.modify id f).next? q = t.next? q := by
    intro q
    simp only [next?, node_modify t id q f hid]
    split <;> simp [hn]
  refine ⟨h.of_same_links hsize hfirst hlast hnext, hsize, ?_, ?_⟩
  · exact children_congr hsize hfirst hnext
  · intro q
    simp only [label, node_modify t id q f hid]
    split
    · next hq => rw [hq]
    · rfl

/-- A new node comes behind the others. -/
theorem node_push (t : Tree) (n : Node) (q : NodeId) :
    (t.push n).2.node q = if q = ⟨t.size⟩ then n else t.node q := by
  simp only [push, node, Array.getD_eq_getD_getElem?, Array.getElem?_push]
  by_cases hq : q = ⟨t.size⟩
  · subst hq
    simp [size]
  · have hne : ¬ q.index = t.nodes.size := by
      intro he
      exact hq (by cases q; simp_all [size])
    simp [hq, hne]

/-- A fresh node has no children and is in no child list. -/
theorem push_grows (h : t.Linked) {n : Node} (hf : n.first = none) (hl : n.last = none)
    (hn : n.next = none) : t.Grows (t.push n).2 n.label := by
  have hsize : (t.push n).2.size = t.size + 1 := by simp [push, size]
  have hdefault : t.node ⟨t.size⟩ = default := node_of_size_le t ⟨t.size⟩ (Nat.le_refl _)
  have hfirst : ∀ q, (t.push n).2.firstChild? q = t.firstChild? q := by
    intro q
    simp only [firstChild?, node_push]
    split
    · next hq =>
      rw [hq, hdefault, hf]
      rfl
    · rfl
  have hlast : ∀ q, (t.push n).2.lastChild? q = t.lastChild? q := by
    intro q
    simp only [lastChild?, node_push]
    split
    · next hq =>
      rw [hq, hdefault, hl]
      rfl
    · rfl
  have hnext : ∀ q, (t.push n).2.next? q = t.next? q := by
    intro q
    simp only [next?, node_push]
    split
    · next hq =>
      rw [hq, hdefault, hn]
      rfl
    · rfl
  have hlists := Linked.of_lists (t := (t.push n).2) t.children
    (fun p => by
      rw [hfirst p]
      exact (h.segment p).congr fun c _ => hnext c)
    (fun p => by
      rw [hlast p]
      exact h.last p)
    (fun p c hc => by
      have := h.bound p c hc
      omega)
    h.nodup h.unique
    (fun c hc => by
      rw [hnext c]
      exact h.detached c hc)
  refine ⟨hlists.1, hsize, hlists.2, ?_⟩
  intro q
  simp only [label, node_push]
  split <;> rfl

end Tree

end ScriptEngine
