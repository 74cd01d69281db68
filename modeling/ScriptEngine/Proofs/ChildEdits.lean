import Mathlib.Logic.Relation
import ScriptEngine.Proofs.TreeEdits

/-!
# Edits of a tree as edits of lists

`ChildEdit` collects the nine edits of a child list. Each has a counterpart on lists,
`ChildEdit.onList`, which says nothing about links. On a well-formed tree an edit that is allowed
does what its counterpart does, and the tree stays well formed.

An edit is allowed when its anchor is a child of the parent, what is inserted is in no child list
and the parent is not part of it. Two demands come on top, and both are needed
(`insertions_are_refused`): an edit that inserts one node takes no node with a sibling, and there
must be a child behind the anchor if that child is to be replaced.
-/

namespace ScriptEngine

open ScriptEngine.Tree List

variable {before parent p q c : NodeId} {xs list ys run : List NodeId} {t : Tree}

namespace Tree

/-- Every node stands in at most one child list, and once; the sibling chain of a node's children
ends, and does so at its last child; no node is below itself. -/
structure WellFormed (t : Tree) : Prop extends Chained t where
  acyclic : t.Acyclic

/-- The element of a list that stands right behind `before`. -/
def successor? (before : NodeId) : List NodeId → Option NodeId
  | [] => none
  | a :: rest => if a = before then rest.head? else successor? before rest

private theorem successor?_append (ys : List NodeId)
    (hxs : before ∉ xs) : successor? before (xs ++ before :: ys) = ys.head? := by
  induction xs with
  | nil => simp [successor?]
  | cons x xs ih =>
    rw [mem_cons, not_or] at hxs
    rw [cons_append, successor?, if_neg (Ne.symm hxs.1), ih hxs.2]

/-- A node of the arena heads the run from it. -/
theorem head?_run (id : NodeId) (h : 0 < t.size) : (t.run (some id)).head? = some id := by
  obtain ⟨n, hn⟩ : ∃ n, t.size = n + 1 := ⟨t.size - 1, by omega⟩
  rw [run, hn, siblingsFrom]
  rfl

end Tree

/-! ## Edits and their counterparts -/

/-- An edit of the children of a node. -/
inductive ChildEdit
  | addToFront (child : NodeId)
  | addToBack (child : NodeId)
  | addRunToFront (first : NodeId)
  | addRunToBack (first : NodeId)
  | addBefore (new anchor : NodeId)
  | addAfter (new anchor : NodeId)
  | remove (child : NodeId)
  | replace (child new : NodeId)
  | replaceAfter (before new : NodeId)
deriving DecidableEq, Repr

namespace ChildEdit

def apply (t : Tree) (parent : NodeId) : ChildEdit → Except Fault Tree
  | addToFront child => t.addChildToFront parent child
  | addToBack child => t.addChildToBack parent child
  | addRunToFront first => t.addChildrenToFront parent first
  | addRunToBack first => t.addChildrenToBack parent first
  | addBefore new anchor => t.addChildBefore parent new anchor
  | addAfter new anchor => t.addChildAfter parent new anchor
  | remove child => t.removeChild parent child
  | replace child new => t.replaceChild parent child new
  | replaceAfter before new => t.replaceChildAfter parent before new

/-- The nodes that are inserted: one node, or a node and the siblings after it. -/
def inserted (t : Tree) : ChildEdit → List NodeId
  | addToFront new | addToBack new | addBefore new _ | addAfter new _ => [new]
  | addRunToFront new | addRunToBack new | replace _ new | replaceAfter _ new => t.run (some new)
  | remove _ => []

/-- The child at which the edit takes place. -/
def anchor? : ChildEdit → Option NodeId
  | addBefore _ anchor | addAfter _ anchor | remove anchor | replace anchor _
  | replaceAfter anchor _ => some anchor
  | _ => none

/-- The element of a list that leaves it. -/
def gone? (list : List NodeId) : ChildEdit → Option NodeId
  | remove child | replace child _ => some child
  | replaceAfter before _ => Tree.successor? before list
  | _ => none

/-- What the edit does to a list, where `run` is inserted. -/
def onList (run list : List NodeId) : ChildEdit → List NodeId
  | addToFront _ | addRunToFront _ => run ++ list
  | addToBack _ | addRunToBack _ => list ++ run
  | addBefore _ anchor => list.flatMap fun c => if c = anchor then run ++ [c] else [c]
  | addAfter _ anchor => list.flatMap fun c => if c = anchor then c :: run else [c]
  | edit => list.flatMap fun c => if edit.gone? list = some c then run else [c]

/-- What an edit demands. A single node that is inserted is a run of one: it has no sibling. -/
structure Allowed (t : Tree) (parent : NodeId) (edit : ChildEdit) : Prop where
  bound : parent.index < t.size
  anchor : ∀ a ∈ edit.anchor?, a ∈ t.children parent
  follows : ∀ before new, edit = .replaceAfter before new →
    ∃ c, Tree.successor? before (t.children parent) = some c
  loose : t.Loose (edit.inserted t)
  apart : ∀ c ∈ edit.inserted t, c ≠ parent ∧ ¬ t.Below c parent

end ChildEdit

/-! ## Descent -/

namespace Tree

variable {t' : Tree}

/-- After an edit, what is below a node was below it before, or came below the parent. -/
theorem Rechains.below (hr : t.Rechains t' parent list)
    (hnew : ∀ c ∈ list, c ∉ t.children parent → c ≠ parent ∧ ¬ t.Below c parent)
    (h : t'.Below p q) :
    t.Below p q ∨ ∃ c ∈ list, c ∉ t.children parent ∧ (p = parent ∨ t.Below p parent) ∧
      (c = q ∨ t.Below c q) := by
  -- An edge of the new tree is one of the old tree, or leads from the parent to a new child.
  have hedge : ∀ {a b : NodeId}, b ∈ t'.children a →
      b ∈ t.children a ∨ (a = parent ∧ b ∈ list ∧ b ∉ t.children parent) := by
    intro a b hb
    rw [hr.children_eq a] at hb
    by_cases ha : a = parent
    · subst ha
      rw [if_pos rfl] at hb
      by_cases hold : b ∈ t.children a
      · exact .inl hold
      · exact .inr ⟨rfl, hb, hold⟩
    · rw [if_neg ha] at hb
      exact .inl hb
  induction h with
  | single hb =>
    rcases hedge hb with hold | ⟨rfl, hin, hout⟩
    · exact .inl (.single hold)
    · exact .inr ⟨_, hin, hout, .inl rfl, .inl rfl⟩
  | tail _ hb ih =>
    rcases ih with hpq | ⟨c, hin, hout, hp, hc⟩ <;> rcases hedge hb with hold | ⟨rfl, hin', hout'⟩
    · exact .inl (hpq.tail hold)
    · exact .inr ⟨_, hin', hout', .inr hpq, .inl rfl⟩
    · refine .inr ⟨c, hin, hout, hp, .inr ?_⟩
      rcases hc with rfl | hc
      · exact .single hold
      · exact hc.tail hold
    · -- The parent is not below what is inserted.
      rcases hc with rfl | hc
      · exact absurd rfl (hnew c hin hout).1
      · exact absurd hc (hnew c hin hout).2

private theorem Rechains.acyclic (hr : t.Rechains t' parent list) (h : t.Acyclic)
    (hnew : ∀ c ∈ list, c ∉ t.children parent → c ≠ parent ∧ ¬ t.Below c parent) : t'.Acyclic := by
  intro p hpp
  rcases hr.below hnew hpp with hold | ⟨c, hin, hout, hp, hc⟩
  · exact h p hold
  · rcases hp with rfl | hp <;> rcases hc with rfl | hc
    · exact (hnew c hin hout).1 rfl
    · exact (hnew c hin hout).2 hc
    · exact (hnew c hin hout).2 hp
    · exact (hnew c hin hout).2 (hc.trans hp)

end Tree

/-! ## The edits on lists -/

namespace ChildEdit

variable {edit : ChildEdit}

private theorem flatMap_place {f : NodeId → List NodeId} {a : NodeId}
    (hxs : a ∉ xs) (hys : a ∉ ys) :
    ((xs ++ a :: ys).flatMap fun c => if c = a then f c else [c]) = xs ++ f a ++ ys := by
  have hother : ∀ zs : List NodeId, a ∉ zs →
      (zs.flatMap fun c => if c = a then f c else [c]) = zs := by
    intro zs hzs
    induction zs with
    | nil => rfl
    | cons z zs ih =>
      rw [mem_cons, not_or] at hzs
      rw [flatMap_cons, if_neg (Ne.symm hzs.1), ih hzs.2]
      rfl
  rw [flatMap_append, flatMap_cons, if_pos rfl, hother xs hxs, hother ys hys,
    append_assoc]

/-- An edit by which an element leaves the list puts the run into its place. -/
theorem onList_gone (hgone : edit.gone? (xs ++ c :: ys) = some c) (hxs : c ∉ xs) (hys : c ∉ ys) :
    edit.onList run (xs ++ c :: ys) = xs ++ run ++ ys := by
  have hflat : ((xs ++ c :: ys).flatMap fun d =>
      if edit.gone? (xs ++ c :: ys) = some d then run else [d]) = xs ++ run ++ ys := by
    rw [hgone, ← flatMap_place (f := fun _ => run) hxs hys]
    refine congrArg (List.flatMap · _) (funext fun d => ?_)
    simp only [Option.some.injEq, eq_comm]
  cases edit <;> first | exact hflat | cases hgone

/-- A child that is to be replaced stands behind its anchor. -/
theorem successor?_children (h : t.Chained) (hb : before ∈ t.children parent)
    (hc : Tree.successor? before (t.children parent) = some c) :
    ∃ us ys, t.children parent = us ++ before :: c :: ys := by
  obtain ⟨us, vs, hlist⟩ := append_of_mem hb
  rw [hlist, successor?_append vs (h.not_mem_of_children hlist).1] at hc
  obtain ⟨ys, rfl⟩ := head?_eq_some_iff.mp hc
  exact ⟨us, ys, hlist⟩

/-- The run that is inserted, by its last node. -/
theorem Allowed.exists_tail (ha : edit.Allowed t parent) {new : NodeId}
    (hrun : edit.inserted t = t.run (some new)) :
    ∃ zs tail, t.run (some new) = zs ++ [tail] ∧ t.Loose (zs ++ [tail]) ∧
      (zs ++ [tail]).head? = some new ∧ new.index < t.size := by
  have hhead := head?_run new (Nat.zero_lt_of_lt ha.bound)
  have hloose := ha.loose
  rw [hrun] at hloose
  rcases eq_nil_or_concat' (t.run (some new)) with hnil | ⟨zs, tail, hcat⟩
  · rw [hnil] at hhead
    cases hhead
  · rw [hcat] at hhead hloose
    exact ⟨zs, tail, hcat, hloose, hhead, hloose.bound new (mem_of_head? hhead)⟩

/-- An edit that is allowed does not fail, and does to the child list what its counterpart does. -/
theorem Allowed.rechains (h : t.Chained) (ha : edit.Allowed t parent) :
    ∃ t', edit.apply t parent = .ok t' ∧
      t.Rechains t' parent (edit.onList (edit.inserted t) (t.children parent)) := by
  have hp := ha.bound
  cases edit with
  | addToFront child =>
    have hc : child.index < t.size := ha.loose.bound child (by simp [inserted])
    refine ⟨_, ?_, h.linkFront_rechains [] hp ha.loose rfl⟩
    simp [apply, addChildToFront, checkDetached_eq_ok _ hc ha.loose.next?_eq_none,
      check_eq_ok hp, bind, Except.bind, pure, Except.pure]
  | addToBack child =>
    have hc : child.index < t.size := ha.loose.bound child (by simp [inserted])
    refine ⟨_, ?_, h.linkBack_rechains [] hp ha.loose rfl⟩
    simp [apply, addChildToBack, checkDetached_eq_ok _ hc ha.loose.next?_eq_none,
      check_eq_ok hp, bind, Except.bind, pure, Except.pure]
  | addRunToFront first =>
    obtain ⟨zs, tail, hcat, hloose, hhead, hf⟩ := ha.exists_tail rfl
    refine ⟨_, ?_, hcat ▸ h.linkFront_rechains zs hp hloose hhead⟩
    simp [apply, addChildrenToFront, check_eq_ok hf, check_eq_ok hp,
      hloose.lastSibling_eq hhead, bind, Except.bind, pure, Except.pure]
  | addRunToBack first =>
    obtain ⟨zs, tail, hcat, hloose, hhead, hf⟩ := ha.exists_tail rfl
    refine ⟨_, ?_, hcat ▸ h.linkBack_rechains zs hp hloose hhead⟩
    simp [apply, addChildrenToBack, check_eq_ok hf, check_eq_ok hp,
      hloose.lastSibling_eq hhead, bind, Except.bind, pure, Except.pure]
  | addBefore new anchor =>
    obtain ⟨xs, ys, hlist⟩ := append_of_mem (ha.anchor anchor rfl)
    obtain ⟨hxs, hys⟩ := h.not_mem_of_children hlist
    obtain ⟨t', hrun, hre⟩ := h.addChildBefore_rechains hlist ha.loose
    refine ⟨t', hrun, ?_⟩
    have hon := flatMap_place (f := fun c => [new] ++ [c]) hxs hys
    rw [onList, hlist, inserted, hon]
    simpa using hre
  | addAfter new anchor =>
    obtain ⟨xs, ys, hlist⟩ := append_of_mem (ha.anchor anchor rfl)
    obtain ⟨hxs, hys⟩ := h.not_mem_of_children hlist
    obtain ⟨t', hrun, hre⟩ := h.addChildAfter_rechains hlist ha.loose
    refine ⟨t', hrun, ?_⟩
    have hon := flatMap_place (f := fun c => c :: [new]) hxs hys
    rw [onList, hlist, inserted, hon]
    simpa using hre
  | remove child =>
    obtain ⟨xs, ys, hlist⟩ := append_of_mem (ha.anchor child rfl)
    obtain ⟨hxs, hys⟩ := h.not_mem_of_children hlist
    obtain ⟨t', hrun, hre⟩ := h.removeChild_rechains hlist
    refine ⟨t', hrun, ?_⟩
    rw [hlist, onList_gone rfl hxs hys, inserted, append_nil]
    exact hre
  | replace child new =>
    obtain ⟨xs, ys, hlist⟩ := append_of_mem (ha.anchor child rfl)
    obtain ⟨hxs, hys⟩ := h.not_mem_of_children hlist
    obtain ⟨zs, tail, hcat, hloose, hhead, hn⟩ := ha.exists_tail rfl
    refine ⟨t.splice parent xs.getLast? child new, ?_, ?_⟩
    · simp only [apply, replaceChild, h.childBefore_eq hlist, check_eq_ok hn, bind,
        Except.bind, pure, Except.pure]
    · rw [hlist, onList_gone rfl hxs hys, inserted, hcat]
      exact h.splice_rechains zs hlist hloose hhead
  | replaceAfter before new =>
    have hb : before ∈ t.children parent := ha.anchor before rfl
    obtain ⟨c, hc⟩ := ha.follows before new rfl
    obtain ⟨us, ys, hlist⟩ := successor?_children h hb hc
    have hsplit : t.children parent = (us ++ [before]) ++ c :: ys := by simp [hlist]
    obtain ⟨hxs, hys⟩ := h.not_mem_of_children hsplit
    obtain ⟨zs, tail, hcat, hloose, hhead, hn⟩ := ha.exists_tail rfl
    have hnext : t.next? before = some c := by rw [h.next?_of_children hlist]; rfl
    refine ⟨t.splice parent (some before) c new, ?_, ?_⟩
    · simp only [apply, replaceChildAfter, check_eq_ok (h.bound parent before hb), hnext,
        check_eq_ok hn, check_eq_ok hp, bind, Except.bind, pure, Except.pure]
    · have hre := h.splice_rechains zs hsplit hloose hhead
      rw [getLast?_concat] at hre
      have hgone : (ChildEdit.replaceAfter before new).gone? (us ++ [before] ++ c :: ys) = some c :=
        hsplit ▸ hc
      rw [hsplit, onList_gone hgone hxs hys, inserted, hcat]
      exact hre

/-- An element of the new list is an old one or is inserted. -/
theorem mem_of_onList (hc : c ∈ edit.onList run list) : c ∈ list ∨ c ∈ run := by
  have hflat : ∀ f : NodeId → List NodeId, (∀ d, ∀ e ∈ f d, e = d ∨ e ∈ run) →
      c ∈ list.flatMap f → c ∈ list ∨ c ∈ run := by
    intro f hf hm
    obtain ⟨d, hd, hcd⟩ := mem_flatMap.mp hm
    rcases hf d c hcd with rfl | hr
    · exact .inl hd
    · exact .inr hr
  cases edit with
  | addToFront | addRunToFront => exact (mem_append.mp hc).symm
  | addToBack | addRunToBack => exact mem_append.mp hc
  | addBefore | addAfter | remove | replace | replaceAfter =>
    refine hflat _ (fun d e he => ?_) hc
    split at he <;> simp_all [or_comm]

/-- What has left the list is no longer in it. -/
theorem Allowed.gone (h : t.Chained) (ha : edit.Allowed t parent)
    (hc : edit.gone? (t.children parent) = some c) :
    c ∈ t.children parent ∧ c ∉ edit.onList (edit.inserted t) (t.children parent) := by
  have hmem : c ∈ t.children parent := by
    cases edit with
    | remove child | replace child =>
      obtain rfl := Option.some.inj hc
      exact ha.anchor child rfl
    | replaceAfter before new =>
      obtain ⟨us, ys, hlist⟩ := successor?_children h (ha.anchor before rfl) hc
      simp [hlist]
    | _ => cases hc
  refine ⟨hmem, ?_⟩
  obtain ⟨xs, ys, hlist⟩ := append_of_mem hmem
  obtain ⟨hxs, hys⟩ := h.not_mem_of_children hlist
  have hrun : c ∉ edit.inserted t := fun hin => ha.loose.orphan c hin parent hmem
  rw [hlist] at hc
  rw [hlist, onList_gone hc hxs hys]
  simp [hxs, hys, hrun]

end ChildEdit

/-- Edits of a tree are edits of lists. An edit that is allowed does not fail and leaves a
well-formed tree, with the child list of the parent edited as its counterpart says and all other
child lists and all labels as they were. What leaves the list has no sibling then. -/
theorem edit_acts_on_list {t : Tree} {parent : NodeId} {edit : ChildEdit} (h : t.WellFormed)
    (ha : edit.Allowed t parent) :
    ∃ t', edit.apply t parent = .ok t' ∧ t'.WellFormed ∧
      t'.children parent = edit.onList (edit.inserted t) (t.children parent) ∧
      (∀ q, q ≠ parent → t'.children q = t.children q) ∧ (∀ q, t'.label q = t.label q) ∧
      ∀ c ∈ edit.gone? (t.children parent), t'.next? c = none := by
  obtain ⟨t', hrun, hre⟩ := ha.rechains h.toChained
  have hnew : ∀ c ∈ edit.onList (edit.inserted t) (t.children parent), c ∉ t.children parent →
      c ≠ parent ∧ ¬ t.Below c parent :=
    fun c hc hout => ha.apart c ((ChildEdit.mem_of_onList hc).resolve_left hout)
  refine ⟨t', hrun, ⟨hre.chained, hre.acyclic h.acyclic hnew⟩, ?_, ?_, hre.label_eq, ?_⟩
  · rw [hre.children_eq, if_pos rfl]
  · intro q hq
    rw [hre.children_eq, if_neg hq]
  · intro c hc
    obtain ⟨hin, hout⟩ := ha.gone h.toChained hc
    exact hre.next?_gone c hin hout

/-! ## What is refused -/

namespace Tree

/-- A node with two children, and beside it a run of two nodes in no child list. -/
def pairAndRun : Tree where
  nodes := #[{ Node.ofKind .block with first := some ⟨1⟩, last := some ⟨2⟩ },
    { Node.ofKind .name with next := some ⟨2⟩ }, .ofKind .name,
    { Node.ofKind .name with next := some ⟨4⟩ }, .ofKind .name]

private theorem pairAndRun_chained : pairAndRun.Chained ∧
    ∀ p, pairAndRun.children p = if p = ⟨0⟩ then [⟨1⟩, ⟨2⟩] else [] := by
  refine Chained.of_lists _ (fun p => ?_) (fun p => ?_) (fun p => ?_) (fun p => ?_) ?_
  · obtain ⟨n⟩ := p
    match n with
    | 0 => exact ⟨rfl, rfl, rfl⟩
    | 1 | 2 | 3 | 4 | _ + 5 => rfl
  · obtain ⟨n⟩ := p
    match n with
    | 0 | 1 | 2 | 3 | 4 | _ + 5 => rfl
  · split <;> decide
  · split <;> decide
  · intro p q c hp hq
    split at hp <;> split at hq <;> simp_all

private theorem pairAndRun_below (h : pairAndRun.Below p q) : p = ⟨0⟩ ∧ (q = ⟨1⟩ ∨ q = ⟨2⟩) := by
  have hedge : ∀ {a b : NodeId}, b ∈ pairAndRun.children a → a = ⟨0⟩ ∧ (b = ⟨1⟩ ∨ b = ⟨2⟩) := by
    intro a b hb
    rw [pairAndRun_chained.2 a] at hb
    split at hb
    · next ha => exact ⟨ha, by simpa using hb⟩
    · cases hb
  induction h with
  | single hb => exact hedge hb
  | tail _ hb ih => exact ⟨ih.1, (hedge hb).2⟩

private theorem pairAndRun_wellFormed : pairAndRun.WellFormed := by
  refine ⟨pairAndRun_chained.1, fun p hpp => ?_⟩
  obtain ⟨rfl, h⟩ := pairAndRun_below hpp
  exact absurd h (by decide)

private theorem pairAndRun_loose : pairAndRun.Loose [⟨3⟩, ⟨4⟩] := by
  refine ⟨⟨rfl, rfl, rfl⟩, fun c hc p hp => ?_, by decide⟩
  rw [pairAndRun_chained.2 p] at hp
  have hout : c ∉ [(⟨1⟩ : NodeId), ⟨2⟩] := by
    rcases mem_pair.mp hc with rfl | rfl <;> decide
  split at hp
  · exact hout hp
  · cases hp

private theorem pairAndRun_apart : ∀ c ∈ [(⟨3⟩ : NodeId), ⟨4⟩], c ≠ ⟨0⟩ ∧
    ¬ pairAndRun.Below c ⟨0⟩ := by
  intro c hc
  have hne : c ≠ ⟨0⟩ := by
    rintro rfl
    simp at hc
  exact ⟨hne, fun h => hne (pairAndRun_below h).1⟩

end Tree

/-- The child behind the first one is replaced by the run. -/
theorem edit_acts_on_list_of_run :
    ∃ t', Tree.pairAndRun.replaceChildAfter ⟨0⟩ ⟨1⟩ ⟨3⟩ = .ok t' ∧ t'.WellFormed ∧
      t'.children ⟨0⟩ = [⟨1⟩, ⟨3⟩, ⟨4⟩] ∧ t'.next? ⟨2⟩ = none := by
  have hlist : Tree.pairAndRun.children ⟨0⟩ = [⟨1⟩, ⟨2⟩] := Tree.pairAndRun_chained.2 ⟨0⟩
  have hrun : Tree.pairAndRun.run (some ⟨3⟩) = [⟨3⟩, ⟨4⟩] := rfl
  have ha : (ChildEdit.replaceAfter ⟨1⟩ ⟨3⟩).Allowed Tree.pairAndRun ⟨0⟩ := by
    refine ⟨by decide, ?_, ?_, ?_, ?_⟩
    · rintro a ⟨⟩
      simp [hlist]
    · rintro before new ⟨⟩
      exact ⟨⟨2⟩, by rw [hlist]; rfl⟩
    · rw [ChildEdit.inserted, hrun]
      exact Tree.pairAndRun_loose
    · rw [ChildEdit.inserted, hrun]
      exact Tree.pairAndRun_apart
  obtain ⟨t', hrun', hwell, hchildren, -, -, hgone⟩ :=
    edit_acts_on_list Tree.pairAndRun_wellFormed ha
  refine ⟨t', hrun', hwell, ?_, hgone ⟨2⟩ ?_⟩
  · rw [hchildren, hlist]
    rfl
  · rw [hlist]
    rfl

/-- Two edits of a well-formed tree that fail, though the anchor is a child of the parent, and what
is inserted is in no child list and does not contain the parent: there is no child behind the last
one to be replaced, and a node that heads a run of two is not inserted as a single node. -/
theorem insertions_are_refused :
    Tree.pairAndRun.WellFormed ∧ (⟨2⟩ : NodeId) ∈ Tree.pairAndRun.children ⟨0⟩ ∧
      Tree.pairAndRun.Loose [⟨3⟩, ⟨4⟩] ∧
      (∀ c ∈ [(⟨3⟩ : NodeId), ⟨4⟩], c ≠ ⟨0⟩ ∧ ¬ Tree.pairAndRun.Below c ⟨0⟩) ∧
      (ChildEdit.replaceAfter ⟨2⟩ ⟨3⟩).apply Tree.pairAndRun ⟨0⟩ = .error (.noSibling ⟨2⟩) ∧
      (ChildEdit.addToFront ⟨3⟩).apply Tree.pairAndRun ⟨0⟩ =
        .error (.hasSibling "add_child_to_front" ⟨3⟩) :=
  ⟨Tree.pairAndRun_wellFormed, by decide, Tree.pairAndRun_loose, Tree.pairAndRun_apart, rfl, rfl⟩

end ScriptEngine
