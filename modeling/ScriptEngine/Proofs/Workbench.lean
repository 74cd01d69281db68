import Mathlib.Data.List.Nodup
import ScriptEngine.Proofs.Pieces

/-!
# Several pieces at work

A shape of the language with many parts keeps its pieces on a workbench: a list with a place for
each of them, in which an operation finds what it works on by its place. A piece that has become
part of another one leaves its place empty, so that the places of the others stay what they are.
What stands elsewhere in the arena is kept.
-/

namespace ScriptEngine

variable {n : Node} {f x : Forest} {id : NodeId} {live : List Forest} {places : List Nat} {i : Nat}
  {α : Type} {kind : Token} {line : Option Nat} {list : List NodeId} {data : JumpData}

/-- A fresh node with a line. -/
def Node.ofKindAt (kind : Token) (line : Option Nat) : Node := { Node.ofKind kind with line }

@[simp] theorem Node.kind_ofKind (kind : Token) : (Node.ofKind kind).kind = kind := rfl

@[simp] theorem Node.kind_ofKindAt (kind : Token) (line : Option Nat) :
    (Node.ofKindAt kind line).kind = kind := rfl

theorem Node.label_ofKindAt (kind : Token) (line : Option Nat) :
    (Node.ofKindAt kind line).label = .ofKindAt kind line :=
  congrArg (fun n => { n with line }) (Node.label_ofKind kind)

/-- A node with another line. -/
def Node.withLine (n : Node) (line : Option Nat) : Node := { n with line }

@[simp] theorem Node.kind_withLine (n : Node) (line : Option Nat) :
    (n.withLine line).kind = n.kind := rfl

/-- A node with other jump targets. -/
def Node.withJump (n : Node) (j : JumpData) : Node := { n with data := .jump j }

@[simp] theorem Node.kind_withJump (n : Node) (j : JumpData) : (n.withJump j).kind = n.kind := rfl

/-- A node with another datum. -/
def Node.withPayload (n : Node) (payload : Payload) : Node := { n with payload }

/-- A node that stands for a body. -/
def Node.withBody (n : Node) (body : BodyId) : Node := { n with data := .function body }

/-- A node with one attribute more. -/
def Node.withAttr (n : Node) (key : AttrKey) (value : AttrValue) : Node :=
  { n with attrs := n.attrs.insert key value }

@[simp] theorem Node.kind_withAttr (n : Node) (key : AttrKey) (value : AttrValue) :
    (n.withAttr key value).kind = n.kind := rfl

/-- A node with another kind; one without data of its own gets those of the new kind. -/
def Node.withKind (n : Node) (kind : Token) : Node :=
  { n with kind, data := if n.data = .none then .ofKind kind else n.data }

theorem Node.label_withKind (n : Node) (kind : Token) :
    (n.withKind kind).label = n.label.withKind kind := by
  have hdata : (NodeData.ofKind kind).withoutClauses = .ofKind kind :=
    congrArg Node.data (Node.label_ofKind kind)
  obtain ⟨_, _, _, _, payload, line, data, attrs⟩ := n
  cases data with
  | none =>
    exact congrArg (fun data => ({ kind, payload, line, data, attrs } : Node)) hdata
  | jump j => rfl
  | switch s => rfl
  | function b => rfl

private theorem Node.Raw.withKind {bound : Nat} (h : n.Raw bound) (kind : Token) :
    (n.withKind kind).Raw bound := by
  by_cases hdata : n.data = .none
  · have hnew : (n.withKind kind).data = .ofKind kind := if_pos hdata
    refine ⟨by rw [hnew, NodeData.clauses_ofKind], fun r hr => h.refers r ?_⟩
    rw [Node.refs, hnew, NodeData.refs_ofKind] at hr
    exact List.mem_append_right _ hr
  · have hold : (n.withKind kind).data = n.data := if_neg hdata
    refine ⟨hold ▸ h.clauses_eq, fun r hr => h.refers r ?_⟩
    rwa [Node.refs, hold] at hr

private theorem TreeM.addChildren_one (p c : NodeId) : addChildren p [c] = addChildToBack p c :=
  bind_pure_unit

/-- A forest without roots is empty. -/
theorem Forest.eq_nil_of_roots (h : f.roots = []) : f = .nil := by
  cases f with
  | nil => rfl
  | cons => cases h

/-- A forest with one root is a tree. -/
theorem Forest.eq_tree_of_roots (h : f.roots = [id]) : ∃ l kids, f = .tree id l kids := by
  cases f with
  | nil => cases h
  | cons id' l kids rest =>
    obtain ⟨rfl, hrest⟩ := List.cons.inj h
    exact ⟨l, kids, by rw [eq_nil_of_roots hrest]⟩

namespace Workbench

/-- The roots of some pieces. -/
abbrev rootsOf (live : List Forest) : List NodeId := live.flatMap Forest.roots

/-- The pieces at some places, as one. -/
def gather (live : List Forest) : List Nat → Forest
  | [] => .nil
  | [i] => live[i]?.getD .nil
  | i :: rest => live[i]?.getD .nil ++ gather live rest

/-- Some places are left empty. -/
def clear (live : List Forest) : List Nat → List Forest
  | [] => live
  | i :: rest => (clear live rest).set i .nil

private theorem gather_cons : gather live (i :: places) = live[i]?.getD .nil ++
    gather live places := by
  cases places with
  | nil => exact (Forest.append_nil _).symm
  | cons j rest => rfl

private theorem gather_one (hx : live[i]? = some x) : gather live [i] = x := by
  rw [gather, hx]
  rfl

private theorem rootsOf_set (hi : i < live.length) :
    (rootsOf (live.set i x)).Perm (x.roots ++ rootsOf (live.set i .nil)) := by
  induction live generalizing i with
  | nil => cases hi
  | cons y rest ih =>
    cases i with
    | zero => exact .refl _
    | succ i =>
      have hi' : i < rest.length := by simpa using hi
      exact ((ih hi').append_left y.roots).trans (List.perm_append_comm_assoc ..)

private theorem getElem?_clear (h : i ∉ places) : (clear live places)[i]? = live[i]? := by
  induction places with
  | nil => rfl
  | cons j rest ih =>
    have hne : j ≠ i := fun he => h (by simp [he])
    rw [clear, List.getElem?_set_ne hne]
    exact ih fun hin => h (by simp [hin])

private theorem length_clear : (clear live places).length = live.length := by
  induction places with
  | nil => rfl
  | cons j rest ih => rw [clear, List.length_set, ih]

private theorem mem_clear (h : x ∈ clear live places) : x ∈ live ∨ x = .nil := by
  induction places with
  | nil => exact .inl h
  | cons j rest ih => exact (List.mem_or_eq_of_mem_set h).elim ih .inr

/-- The pieces at some places, and the others. -/
theorem rootsOf_perm (h : places.Nodup) :
    (rootsOf live).Perm ((gather live places).roots ++ rootsOf (clear live places)) := by
  induction places with
  | nil => exact .refl _
  | cons i rest ih =>
    obtain ⟨hnot, hrest⟩ := List.nodup_cons.mp h
    refine (ih hrest).trans ?_
    rw [gather_cons, Forest.roots_append, clear]
    by_cases hi : i < live.length
    · have hlt : i < (clear live rest).length := length_clear.symm ▸ hi
      have hset := rootsOf_set (x := (clear live rest)[i]) hlt
      rw [List.set_getElem_self] at hset
      rw [← getElem?_clear hnot, List.getElem?_eq_getElem hlt, Option.getD_some, List.append_assoc]
      exact (hset.append_left _).trans (List.perm_append_comm_assoc ..)
    · rw [List.getElem?_eq_none (by omega), List.set_eq_of_length_le (by rw [length_clear]; omega)]
      exact .refl _

end Workbench

open Workbench in
/-- From `t0` on, work has used the given roots and has these pieces at hand. -/
structure Workbench (t0 : Tree) (used : List NodeId) (t : Tree) (live : List Forest) : Prop where
  keeps : t0.Keeps used t
  stands : ∀ f ∈ live, t.Stands f
  nodup : (rootsOf live).Nodup
  fresh : ∀ r ∈ rootsOf live, r ∈ used ∨ t0.size ≤ r.index

namespace Workbench

variable {t0 t t' : Tree} {used : List NodeId} {live' others : List Forest} {g kids : Forest}
  {l : Node}

/-- Work begins with one piece. -/
theorem start (h : t.Linked) (hst : t.Stands f) (hnodup : f.roots.Nodup) :
    Workbench t f.roots t [f] :=
  ⟨.refl h _, by simpa using hst, by simpa using hnodup, fun r hr => .inl (by simpa using hr)⟩

/-- A tree is a workbench with one piece. -/
theorem ofTree (hk : t.Keeps used t') (hst : t'.Stands (.tree id l kids))
    (hid : id ∈ used ∨ t.size ≤ id.index) : Workbench t used t' [.tree id l kids] :=
  ⟨hk, by simpa using hst, by simp, by simpa using hid⟩

section

variable (H : Workbench t0 used t live)

include H

private theorem root_bound {r : NodeId} (hr : r ∈ rootsOf live) : r.index < t.size := by
  obtain ⟨f, hf, hrf⟩ := List.mem_flatMap.mp hr
  exact (H.stands f hf).root_bound hrf

/-- One piece has been made of another, and the rest of the work is as it was. -/
theorem turn (hlive : (rootsOf live).Perm (f.roots ++ rootsOf others))
    (hothers : ∀ x ∈ others, x ∈ live ∨ x = .nil)
    (hlive' : (rootsOf live').Perm (g.roots ++ rootsOf others))
    (hmem : ∀ x ∈ live', x = g ∨ x ∈ others) (h : Workbench t f.roots t' [g]) :
    Workbench t0 used t' live' := by
  have hle := H.keeps.size_le
  obtain ⟨-, hndo, hdis⟩ := List.nodup_append.mp (hlive.nodup_iff.mp H.nodup)
  have hold : ∀ r ∈ rootsOf others, r ∈ rootsOf live := fun r hr =>
    hlive.mem_iff.mpr (List.mem_append_right _ hr)
  have hused : ∀ r ∈ f.roots, r ∈ rootsOf live := fun r hr =>
    hlive.mem_iff.mpr (List.mem_append_left _ hr)
  have hnew : ∀ r ∈ g.roots, r ∈ f.roots ∨ t.size ≤ r.index := fun r hr =>
    h.fresh r (by simpa using hr)
  refine ⟨H.keeps.trans h.keeps ?_, fun x hx => ?_, hlive'.nodup_iff.mpr ?_, fun r hr => ?_⟩
  · rintro r (hr | hr) hlt -
    · exact hr
    · exact (H.fresh r (hused r hr)).resolve_right (by omega)
  · rcases hmem x hx with rfl | hx
    · exact h.stands x (by simp)
    · rcases hothers x hx with hin | rfl
      · exact h.keeps.stands x (H.stands x hin) fun r hr hrf =>
          hdis r hrf r (List.mem_flatMap.mpr ⟨x, hx, hr⟩) rfl
      · exact Tree.stands_nil _
  · refine List.nodup_append.mpr ⟨by simpa using h.nodup, hndo, ?_⟩
    rintro r hr _ hro rfl
    rcases hnew r hr with hrf | hrf
    · exact hdis r hrf r hro rfl
    · have := H.root_bound (hold r hro)
      omega
  · rcases List.mem_append.mp (hlive'.mem_iff.mp hr) with hr | hr
    · exact (hnew r hr).elim (fun hrf => H.fresh r (hused r hrf)) fun hrf => .inr (by omega)
    · exact H.fresh r (hold r hr)

/-- What is made of some pieces comes last. -/
theorem append (places : List Nat) (hplaces : places.Nodup)
    (h : Workbench t (gather live places).roots t' [g]) :
    Workbench t0 used t' (clear live places ++ [g]) := by
  refine H.turn (rootsOf_perm hplaces) (fun x => mem_clear) ?_ (fun x hx => ?_) h
  · rw [rootsOf, List.flatMap_append, List.flatMap_singleton]
    exact List.perm_append_comm
  · simpa [or_comm] using hx

/-- What is made of some pieces takes the place of one of them. -/
theorem put (places : List Nat) (hplaces : (i :: places).Nodup)
    (hi : i < live.length) (h : Workbench t (gather live (i :: places)).roots t' [g]) :
    Workbench t0 used t' ((clear live places).set i g) := by
  have hlt : i < (clear live places).length := length_clear.symm ▸ hi
  refine H.turn (rootsOf_perm hplaces) (fun x => mem_clear) (rootsOf_set hlt) (fun x hx => ?_) h
  rcases List.mem_iff_getElem?.mp hx with ⟨k, hk⟩
  by_cases he : i = k
  · subst he
    rw [List.getElem?_set_self hlt] at hk
    exact .inl (Option.some.inj hk).symm
  · refine .inr (List.mem_of_getElem? (i := k) ?_)
    rw [clear, List.getElem?_set_ne he]
    rwa [List.getElem?_set_ne he] at hk

/-- Pieces that are gathered stand in the tree. -/
theorem gathered (places : List Nat) : t.Stands (gather live places) := by
  induction places with
  | nil => exact Tree.stands_nil _
  | cons i rest ih =>
    rw [gather_cons]
    refine Tree.stands_append.mpr ⟨?_, ih⟩
    by_cases hi : i < live.length
    · rw [List.getElem?_eq_getElem hi]
      exact H.stands _ (List.getElem_mem hi)
    · rw [List.getElem?_eq_none (by omega)]
      exact Tree.stands_nil _

theorem gathered_nodup (hplaces : places.Nodup) : (gather live places).roots.Nodup :=
  (List.nodup_append.mp ((rootsOf_perm hplaces).nodup_iff.mp H.nodup)).1

/-- Some pieces are taken as one, and all others are let go. -/
theorem only (places : List Nat) (hplaces : places.Nodup) :
    Workbench t0 used t [gather live places] := by
  refine ⟨H.keeps, by simpa using H.gathered places, by simpa using H.gathered_nodup hplaces, ?_⟩
  intro r hr
  rw [rootsOf, List.flatMap_singleton] at hr
  exact H.fresh r ((rootsOf_perm hplaces).mem_iff.mpr (List.mem_append_left _ hr))

omit H in
private theorem rootsOf_map (places : List Nat) :
    rootsOf (places.map fun i => live[i]?.getD .nil) = (gather live places).roots := by
  induction places with
  | nil => rfl
  | cons i rest ih =>
    rw [gather_cons, Forest.roots_append, ← ih]
    rfl

/-- Some pieces are taken, and all others are let go. -/
theorem pick (places : List Nat) (hplaces : places.Nodup) :
    Workbench t0 used t (places.map fun i => live[i]?.getD .nil) := by
  obtain ⟨-, -, hnodup, hfresh⟩ := H.only places hplaces
  rw [rootsOf, List.flatMap_singleton, ← rootsOf_map] at hnodup hfresh
  refine ⟨H.keeps, fun f hf => ?_, hnodup, hfresh⟩
  obtain ⟨i, -, rfl⟩ := List.mem_map.mp hf
  exact H.gathered [i]

/-- Some pieces go to a workbench of their own, and what is made of them comes last. -/
theorem on {m : TreeM α} {post : α → Forest → Prop} (places : List Nat)
    (hplaces : places.Nodup)
    (hm : ∀ used', Workbench t used' t (places.map fun i => live[i]?.getD .nil) →
      Runs m t fun a t' => ∃ g, post a g ∧ Workbench t used' t' [g]) :
    Runs m t fun a t' => ∃ g, post a g ∧ Workbench t0 used t' (clear live places ++ [g]) := by
  have hpick := H.pick places hplaces
  have hbase : Workbench t (gather live places).roots t (places.map fun i => live[i]?.getD .nil) :=
    ⟨.refl H.keeps.linked _, hpick.stands, hpick.nodup, fun r hr => .inl (rootsOf_map places ▸ hr)⟩
  exact (hm _ hbase).mono fun a t' ⟨g, hg, H'⟩ => ⟨g, hg, H.append places hplaces H'⟩

end

/-- Only the first piece is left. -/
theorem first (H : Workbench t0 used t (f :: live)) : Workbench t0 used t [f] :=
  H.only [0] (List.nodup_singleton 0)

/-- Only the last piece is left. -/
theorem last (H : Workbench t0 used t (live ++ [g])) : Workbench t0 used t [g] := by
  have := H.only [live.length] (List.nodup_singleton _)
  rwa [gather_one List.getElem?_concat_length] at this

/-- Two pieces that were one. -/
theorem split (H : Workbench t0 used t ((f ++ g) :: live)) :
    Workbench t0 used t (f :: g :: live) := by
  refine ⟨H.keeps, ?_, by simpa using H.nodup, by simpa using H.fresh⟩
  obtain ⟨hfg, hlive⟩ := List.forall_mem_cons.mp H.stands
  obtain ⟨hf, hg⟩ := Tree.stands_append.mp hfg
  simpa using ⟨hf, hg, hlive⟩

section

variable (H : Workbench t0 used t live)

include H

/-! ## Operations

What is on the workbench after an operation is given by the places; those of the next operation are
looked up by evaluation. -/

/-- A fresh node comes last. -/
theorem push (hn : n.detached = n) (hraw : n.Raw t.size) :
    Runs (TreeM.push n) t fun id t' => Workbench t0 used t' (live ++ [.leaf id n.label]) :=
  (TreeM.runs_push H.keeps.linked hn fun _ => hraw).mono fun _ _ ⟨hid, hst, hk⟩ =>
    H.append [] .nil (.ofTree hk hst (.inr hid))

/-- A new node is a new piece. -/
theorem newNode :
    Runs (TreeM.newNode kind) t fun id t' =>
      Workbench t0 used t' (live ++ [.leaf id (.ofKind kind)]) := by
  have := H.push (n := .ofKind kind) rfl (.fresh rfl rfl)
  rwa [Node.label_ofKind] at this

theorem newNodeAt :
    Runs (TreeM.newNodeAt kind line) t fun id t' =>
      Workbench t0 used t' (live ++ [.leaf id (.ofKindAt kind line)]) := by
  have := H.push (n := .ofKindAt kind line) rfl (.fresh rfl rfl)
  rwa [Node.label_ofKindAt] at this

/-- A new node with a text is a new piece. -/
theorem newString {value : String} :
    Runs (TreeM.newString kind value) t fun id t' => Workbench t0 used t'
      (live ++ [.leaf id ((Node.ofKind kind).withPayload (.string value))]) := by
  have hlabel : ((Node.ofKind kind).withPayload (.string value)).label =
      (Node.ofKind kind).withPayload (.string value) :=
    congrArg (Node.withPayload · (.string value)) (Node.label_ofKind kind)
  have := H.push (n := (Node.ofKind kind).withPayload (.string value)) rfl (.fresh rfl rfl)
  rwa [hlabel] at this

/-- A fresh node over some pieces comes last. -/
theorem above (places : List Nat) (hplaces : places.Nodup)
    (hroots : (gather live places).roots = list) (hlen : list.length ≤ 3) :
    Runs (TreeM.newWithChildren kind list) t fun id t' => Workbench t0 used t'
      (clear live places ++ [.tree id (.ofKind kind) (gather live places)]) :=
  (TreeM.runs_newWithChildren H.keeps.linked (H.gathered places) hroots
    (hroots ▸ H.gathered_nodup hplaces) hlen).mono fun _ _ ⟨hid, hst, hk⟩ =>
      H.append places hplaces (.ofTree (hroots ▸ hk) hst (.inr hid))

variable {p : NodeId} {lp : Node} {kp : Forest}

theorem bound (hf : live[i]? = some f) (hroots : f.roots = [p]) : p.index < t.size :=
  (H.stands _ (List.mem_of_getElem? hf)).root_bound (by simp [hroots])

variable (hp : live[i]? = some (.tree p lp kp))

include hp

/-- A piece and others have different roots. -/
theorem not_mem_gather (hplaces : (i :: places).Nodup) : p ∉ (gather live places).roots := by
  have hnodup := H.gathered_nodup hplaces
  rw [gather_cons, hp] at hnodup
  exact (List.nodup_cons.mp hnodup).1

/-- A piece has been changed, and others have gone into it; it keeps its place. -/
theorem change (hplaces : (i :: places).Nodup)
    (hk : t.Keeps (p :: (gather live places).roots) t') (hst : t'.Stands (.tree p l kids)) :
    Workbench t0 used t' ((clear live places).set i (.tree p l kids)) := by
  refine H.put places hplaces (List.getElem?_eq_some_iff.mp hp).1 (.ofTree ?_ hst (.inl ?_)) <;>
    rw [gather_cons, hp]
  · exact hk
  · exact List.mem_cons_self ..

/-- A copy of the root of a piece comes last. -/
theorem cloneNode :
    Runs (TreeM.cloneNode p) t fun id t' => Workbench t0 used t' (live ++ [.leaf id lp]) := by
  have hst := H.stands _ (List.mem_of_getElem? hp)
  unfold TreeM.cloneNode
  refine Runs.get_bind (Runs.lift_bind (Tree.check_eq_ok hst.1.1.1) ?_)
  refine (TreeM.runs_push (n := (t.node p).detached) H.keeps.linked rfl fun hraw =>
    ⟨(hraw p).clauses_eq, (hraw p).refers⟩).mono fun id t' ⟨hid, hst', hk⟩ => ?_
  have hlabel : (t.node p).detached.label = lp := hst.1.1.2.1
  exact H.append [] .nil (.ofTree hk (hlabel ▸ hst') (.inr hid))

/-- Reading the kind of a piece. -/
theorem kind_bind {f : Token → TreeM α} {post : α → Tree → Prop}
    (hf : Runs (f lp.kind) t post) : Runs (TreeM.kind p >>= f) t post := by
  have hst := H.stands _ (List.mem_of_getElem? hp)
  have hkind : t.kind p = lp.kind := by rw [Tree.kind_eq_label, hst.1.1.2.1]
  unfold TreeM.kind
  rw [bind_assoc]
  refine Runs.get_bind ?_
  rw [bind_assoc]
  exact Runs.lift_bind (Tree.check_eq_ok hst.1.1.1) (hkind ▸ hf)

omit hp in
/-- Pieces go below another one, behind its children. -/
theorem addChildren (places : List Nat) (hp : live[i]? = some (.tree p lp kp))
    (hplaces : (i :: places).Nodup) (hroots : (gather live places).roots = list) :
    Runs (TreeM.addChildren p list) t fun _ t' => Workbench t0 used t'
      ((clear live places).set i (.tree p lp (kp ++ gather live places))) := by
  subst hroots
  exact (TreeM.runs_addChildren H.keeps.linked (H.stands _ (List.mem_of_getElem? hp))
    (H.gathered places) rfl (H.gathered_nodup (List.nodup_cons.mp hplaces).2)
      (H.not_mem_gather hp hplaces)).mono fun _ _ ⟨hst, hk⟩ => H.change hp hplaces hk hst

variable {j : Nat} {c : NodeId}

/-- One piece goes below another, behind its children. -/
theorem addChildToBack (hx : live[j]? = some x) (hc : x.roots = [c]) (hne : i ≠ j) :
    Runs (TreeM.addChildToBack p c) t fun _ t' =>
      Workbench t0 used t' ((live.set j .nil).set i (.tree p lp (kp ++ x))) := by
  have hruns := H.addChildren [j] hp (by simpa using hne) ((congrArg _ (gather_one hx)).trans hc)
  rwa [gather_one hx, TreeM.addChildren_one] at hruns

/-- One piece goes below another, in front of its children. -/
theorem addChildToFront (hx : live[j]? = some x) (hc : x.roots = [c]) (hne : i ≠ j) :
    Runs (TreeM.addChildToFront p c) t fun _ t' =>
      Workbench t0 used t' ((live.set j .nil).set i (.tree p lp (x ++ kp))) := by
  have hplaces : [i, j].Nodup := by simpa using hne
  have hnot := H.not_mem_gather hp hplaces
  obtain ⟨lc, kc, rfl⟩ := Forest.eq_tree_of_roots hc
  rw [gather_one hx] at hnot
  refine (TreeM.runs_addChildToFront H.keeps.linked (H.stands _ (List.mem_of_getElem? hp))
    (H.stands _ (List.mem_of_getElem? hx)) (by simpa using hnot)).mono fun _ t' ⟨hst, hk⟩ => ?_
  exact H.change hp hplaces (by rwa [gather_one hx]) hst

omit hp in
/-- One piece goes below another, behind one of its children. -/
theorem addChildAfter (front back : Forest) {a : NodeId} {y : Forest}
    (hp : live[i]? = some (.tree p lp (front ++ y ++ back))) (hx : live[j]? = some x)
    (hc : x.roots = [c]) (ha : y.roots = [a]) (hne : i ≠ j) :
    Runs (TreeM.addChildAfter p c a) t fun _ t' =>
      Workbench t0 used t' ((live.set j .nil).set i (.tree p lp (front ++ y ++ x ++ back))) := by
  have hplaces : [i, j].Nodup := by simpa using hne
  have hnot := H.not_mem_gather hp hplaces
  obtain ⟨lc, kc, rfl⟩ := Forest.eq_tree_of_roots hc
  obtain ⟨la, ka, rfl⟩ := Forest.eq_tree_of_roots ha
  rw [gather_one hx] at hnot
  refine (TreeM.runs_addChildAfter H.keeps.linked front back (H.stands _ (List.mem_of_getElem? hp))
    (H.stands _ (List.mem_of_getElem? hx)) (by simpa using hnot)).mono fun _ t' ⟨hst, hk⟩ => ?_
  exact H.change hp hplaces (by rwa [gather_one hx]) hst

/-- The node of a piece gets another label. -/
theorem modifyNode {f : Node → Node} {label : Node}
    (hfirst : ∀ n, (f n).first = n.first) (hlast : ∀ n, (f n).last = n.last)
    (hnext : ∀ n, (f n).next = n.next) (hlabel : ∀ n, n.label = lp → (f n).label = label)
    (hraw : ∀ n : Node, n.Raw t.size → (f n).Raw t.size) :
    Runs (modify fun t => t.modify p f : TreeM PUnit) t fun _ t' =>
      Workbench t0 used t' (live.set i (.tree p label kp)) :=
  (TreeM.runs_modify H.keeps.linked (H.stands _ (List.mem_of_getElem? hp)) hfirst hlast hnext hlabel
    hraw).mono fun _ _ ⟨hst, hk⟩ => H.change hp (List.nodup_singleton i) hk hst

/-- Another line for the root of a piece. -/
theorem setLine :
    Runs (TreeM.setLine p line) t fun _ t' =>
      Workbench t0 used t' (live.set i (.tree p (lp.withLine line) kp)) :=
  H.modifyNode hp (fun _ => rfl) (fun _ => rfl) (fun _ => rfl) (fun n hn => by rw [← hn]; rfl)
    fun _ hn => ⟨hn.clauses_eq, hn.refers⟩

theorem setPayload {payload : Payload} :
    Runs (modify fun t => t.setPayload p payload : TreeM PUnit) t fun _ t' =>
      Workbench t0 used t' (live.set i (.tree p (lp.withPayload payload) kp)) :=
  H.modifyNode hp (fun _ => rfl) (fun _ => rfl) (fun _ => rfl) (fun n hn => by rw [← hn]; rfl)
    fun _ hn => ⟨hn.clauses_eq, hn.refers⟩

theorem setFunction {body : BodyId} :
    Runs (modify fun t => t.setFunction p body : TreeM PUnit) t fun _ t' =>
      Workbench t0 used t' (live.set i (.tree p (lp.withBody body) kp)) :=
  H.modifyNode hp (fun _ => rfl) (fun _ => rfl) (fun _ => rfl) (fun n hn => by rw [← hn]; rfl)
    fun _ hn => hn.setFunction body

/-- Another attribute for the root of a piece. -/
theorem setAttr {key : AttrKey} {value : AttrValue} (hvalue : ∀ r ∈ value.refs, r.index < t.size) :
    Runs (TreeM.setAttr p key value) t fun _ t' =>
      Workbench t0 used t' (live.set i (.tree p (lp.withAttr key value) kp)) :=
  H.modifyNode hp (fun _ => rfl) (fun _ => rfl) (fun _ => rfl) (fun n hn => by rw [← hn]; rfl)
    fun _ hn => hn.setAttr hvalue

/-- Another kind for the root of a piece. -/
theorem setKind :
    Runs (TreeM.setKind p kind) t fun _ t' =>
      Workbench t0 used t' (live.set i (.tree p (lp.withKind kind) kp)) :=
  H.modifyNode hp (fun _ => rfl) (fun _ => rfl) (fun _ => rfl)
    (by rintro n rfl; exact Node.label_withKind n kind) fun _ hn => hn.withKind kind

/-- The node of a piece gets other jump targets. -/
theorem modifyJump
    {f : JumpData → JumpData} (hdata : lp.data = .jump data)
    (hrefs : ∀ r ∈ (NodeData.jump (f data)).refs,
      r ∈ (NodeData.jump data).refs ∨ r.index < t.size) :
    Runs (TreeM.modifyJump p f) t fun _ t' =>
      Workbench t0 used t' (live.set i (.tree p (lp.withJump (f data)) kp)) :=
  (TreeM.runs_modifyJump H.keeps.linked (H.stands _ (List.mem_of_getElem? hp)) hdata hrefs).mono
    fun _ _ ⟨hst, hk⟩ => H.change hp (List.nodup_singleton i) hk hst

/-- Another target for the root of a piece. -/
theorem setTarget {target : NodeId}
    (hdata : lp.data = .jump data) (htarget : target.index < t.size) :
    Runs (TreeM.setTarget p target) t fun _ t' => Workbench t0 used t'
      (live.set i (.tree p (lp.withJump { data with target := some target }) kp)) := by
  refine H.modifyJump hp hdata fun r hr => ?_
  simp only [NodeData.refs, Option.toList_some, List.mem_append, List.mem_singleton] at hr ⊢
  rcases hr with rfl | hr
  · exact .inr htarget
  · exact .inl (.inr hr)

end

end Workbench

end ScriptEngine
