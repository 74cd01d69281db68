import ScriptEngine.Lowering.Names
import ScriptEngine.Proofs.Plots

/-!
# Accesses by slot

`Slotted` relates a forest to the one in which some names of variables are accessed by their slots:
reads and writes get another kind and the slot as an attribute, a deletion is cut away and a
constant stands in its place. It keeps the list of these changes, the latest first, and the forest
of the deletions that are cut away. Undoing the changes in this order gives the first forest back.
-/

namespace ScriptEngine

open Forest

/-- When variables are accessed by their slots. -/
structure SlotRules where
  vars : VariableTable
  /-- Nodes from here on are made by lowering. -/
  first : Nat
  /-- Accesses by slot are allowed. -/
  may : Prop
  /-- Every access to a variable is by its slot. -/
  must : Prop

/-- The name through which a node accesses a variable, told by its label and what is below it. -/
def Node.accessed? (l : Node) (kids : Forest) : Option String :=
  match l.kind, kids with
  | .name, _ => some (l.string?.getD "")
  | .setName, .cons _ lb _ _ | .delProp, .cons _ lb _ _ =>
    if lb.kind = .bindName then some (lb.string?.getD "") else none
  | _, _ => none

/-- The kinds of nodes that may access variables. -/
@[simp] def Token.isAccess : Token → Bool
  | .name | .setName | .delProp => true
  | _ => false

/-- A test that accesses do not pass. -/
theorem Token.isAccess_eq_false {k : Token} {test : Token → Bool} (h : test k)
    (hname : test .name = false) (hset : test .setName = false) (hdelete : test .delProp = false) :
    k.isAccess = false := by
  unfold isAccess
  split <;> simp_all

/-- Other nodes access no variable. -/
theorem Node.accessed?_eq_none {l : Node} (kids : Forest) (hkind : l.kind.isAccess = false) :
    l.accessed? kids = none := by
  unfold accessed?
  split <;> simp_all

/-- The node need not be accessed by a slot. -/
def SlotRules.Keeps (rules : SlotRules) (l : Node) (kids : Forest) : Prop :=
  rules.must → ∀ name, l.accessed? kids = some name → rules.vars.get? name = none

/-- A forest and the one in which some variables are accessed by their slots, as children of a
node. -/
inductive Slotted (rules : SlotRules) :
    NodeId → List SlotChange → Forest → Forest → Forest → Prop
  | nil {p} : Slotted rules p [] .nil .nil .nil
  | keep {p id l kids kids' rest rest' changes changes' cut cut'} (hkeep : rules.Keeps l kids)
      (hkids : Slotted rules id changes cut kids kids')
      (hrest : Slotted rules p changes' cut' rest rest') :
      Slotted rules p (changes' ++ changes) (cut ++ cut') (.cons id l kids rest)
        (.cons id l kids' rest')
  | getVar {p id l slot rest rest' changes cut} (hmay : rules.may) (hkind : l.kind = .name)
      (hfree : l.attrs.get? .varIndex = none)
      (hslot : rules.vars.get? (l.string?.getD "") = some slot)
      (hrest : Slotted rules p changes cut rest rest') :
      Slotted rules p (changes ++ [.getVar id]) cut (.cons id l .nil rest)
        (.cons id ((l.withKind .getVar).withAttr .varIndex (.int slot)) .nil rest')
  | setVar {p id l bind lb slot value value' rest rest' changes changes' cut cut'}
      (hmay : rules.may) (hkind : l.kind = .setName) (hfree : l.attrs.get? .varIndex = none)
      (hbind : lb.kind = .bindName) (hslot : rules.vars.get? (lb.string?.getD "") = some slot)
      (hvalue : Slotted rules id changes cut value value')
      (hrest : Slotted rules p changes' cut' rest rest') :
      Slotted rules p (changes' ++ (changes ++ [.setVar id bind])) (cut ++ cut')
        (.cons id l (.cons bind lb .nil value) rest)
        (.cons id ((l.withKind .setVar).withAttr .varIndex (.int slot))
          (.cons bind (lb.withKind .string) .nil value') rest')
  | deleted {p id l bind lb more constant slot rest rest' changes cut} (hmay : rules.may)
      (hkind : l.kind = .delProp) (hbind : lb.kind = .bindName)
      (hslot : rules.vars.get? (lb.string?.getD "") = some slot)
      (hnew : rules.first ≤ constant.index) (hrest : Slotted rules p changes cut rest rest') :
      Slotted rules p (changes ++ [.deleteLocal p id constant])
        (.tree id l (.cons bind lb .nil more) ++ cut)
        (.cons id l (.cons bind lb .nil more) rest)
        (.cons constant (.ofKindAt .falseValue l.line) .nil rest')

variable {rules : SlotRules} {p id : NodeId} {changes : List SlotChange} {cut h k : Forest}
  {l : Node} {slot : Nat}

namespace Slotted

variable {changes' : List SlotChange}
  {cut' h' k' : Forest}

/-- One forest after another, with the later changes first. -/
theorem append (hs : Slotted rules p changes cut h k) (hs' : Slotted rules p changes' cut' h' k') :
    Slotted rules p (changes' ++ changes) (cut ++ cut') (h ++ h') (k ++ k') := by
  induction hs generalizing changes' with
  | nil => simpa using hs'
  | keep hkeep hkids _ _ ih =>
    rw [← List.append_assoc, append_assoc]
    exact .keep hkeep hkids (ih hs')
  | getVar hmay hkind hfree hslot _ ih =>
    rw [← List.append_assoc]
    exact .getVar hmay hkind hfree hslot (ih hs')
  | setVar hmay hkind hfree hbind hslot hvalue _ _ ih =>
    rw [← List.append_assoc, append_assoc]
    exact .setVar hmay hkind hfree hbind hslot hvalue (ih hs')
  | deleted hmay hkind hbind hslot hnew _ ih =>
    rw [← List.append_assoc, append_assoc]
    exact .deleted hmay hkind hbind hslot hnew (ih hs')

/-- A node that keeps its label, over a forest. -/
theorem tree (hkeep : rules.Keeps l h) (hs : Slotted rules id changes cut h k) :
    Slotted rules p changes cut (.tree id l h) (.tree id l k) := by
  simpa using Slotted.keep (p := p) hkeep hs .nil

/-- Fewer accesses need be by slot. -/
theorem relax (hs : Slotted rules p changes cut h k) {must : Prop} (hmust : must → rules.must) :
    Slotted { rules with must } p changes cut h k := by
  induction hs with
  | nil => exact .nil
  | keep hkeep _ _ ihk ihr => exact .keep (fun hm => hkeep (hmust hm)) ihk ihr
  | getVar hmay hkind hfree hslot _ ih => exact .getVar hmay hkind hfree hslot ih
  | setVar hmay hkind hfree hbind hslot _ _ ihv ihr =>
    exact .setVar hmay hkind hfree hbind hslot ihv ihr
  | deleted hmay hkind hbind hslot hnew _ ih => exact .deleted hmay hkind hbind hslot hnew ih

/-- Nothing need be changed where nothing must. -/
theorem refl (h : Forest) (hmust : ¬ rules.must) : Slotted rules p [] .nil h h := by
  induction h generalizing p with
  | nil => exact .nil
  | cons id l kids rest ihk ihr => exact .keep (fun hm => absurd hm hmust) ihk ihr

/-- Where no access may be by slot, nothing is changed. -/
theorem eq_of_not_may (hs : Slotted rules p changes cut h k) (hnot : ¬ rules.may) : k = h := by
  induction hs with
  | nil => rfl
  | keep _ _ _ ihk ihr => rw [ihk, ihr]
  | getVar hmay | setVar hmay | deleted hmay => exact absurd hmay hnot

/-- Nothing stays nothing. -/
theorem nil_inv (hs : Slotted rules p changes cut .nil k) :
    changes = [] ∧ cut = .nil ∧ k = .nil := by
  cases hs
  exact ⟨rfl, rfl, rfl⟩

/-- A node that is no access to a variable is kept. -/
theorem cons_inv {kids rest : Forest} (hs : Slotted rules p changes cut (.cons id l kids rest) k)
    (hkind : l.kind.isAccess = false) :
    ∃ below after cut1 cut2 kids' rest', changes = after ++ below ∧ cut = cut1 ++ cut2 ∧
      k = .cons id l kids' rest' ∧ Slotted rules id below cut1 kids kids' ∧
        Slotted rules p after cut2 rest rest' := by
  cases hs with
  | keep _ hkids hrest => exact ⟨_, _, _, _, _, _, rfl, rfl, rfl, hkids, hrest⟩
  | getVar _ hk | setVar _ hk | deleted _ hk => simp [hk] at hkind

/-- What is not cut away is still there. -/
theorem mem_ids (hs : Slotted rules p changes cut h k) {q : NodeId} (hq : q ∈ h.ids) :
    q ∈ k.ids ∨ q ∈ cut.ids := by
  induction hs with
  | nil => simp at hq
  | _ => simp only [ids_cons, ids_append, ids_nil] at hq ⊢; grind

end Slotted

/-! ## Undoing -/

/-- An attribute that is set and erased leaves no trace. -/
theorem Attrs.erase_insert {a : Attrs} {key : AttrKey} (value : AttrValue)
    (hfree : a.get? key = none) : (a.insert key value).erase key = a := by
  have hnone : ∀ e ∈ a.entries, e.1 ≠ key := by
    intro e he hkey
    have := List.lookup_eq_none_iff.mp hfree e he
    simp [hkey] at this
  have hidx : (a.entries ++ [(key, value)]).findIdx? (·.1 = key) = some a.entries.length := by
    rw [List.findIdx?_append, List.findIdx?_eq_none_iff.mpr (by simpa using hnone)]
    simp
  simp [insert, hfree, erase, hidx]

private theorem Node.withoutAttr_getVar (hkind : l.kind = .name)
    (hfree : l.attrs.get? .varIndex = none) :
    ((((l.withKind .getVar).withAttr .varIndex (.int slot)).withKind .name).withoutAttr .varIndex) =
      l := by
  obtain ⟨kind, _, _, _, _, _, data, attrs⟩ := l
  obtain rfl : kind = .name := hkind
  have := Attrs.erase_insert (.int slot) hfree
  cases data <;> simp_all [withKind, withAttr, withoutAttr, NodeData.ofKind, Token.isJump]

private theorem Node.withoutAttr_setVar (hkind : l.kind = .setName)
    (hfree : l.attrs.get? .varIndex = none) :
    ((((l.withKind .setVar).withAttr .varIndex (.int slot)).withKind .setName).withoutAttr
      .varIndex) = l := by
  obtain ⟨kind, _, _, _, _, _, data, attrs⟩ := l
  obtain rfl : kind = .setName := hkind
  have := Attrs.erase_insert (.int slot) hfree
  cases data <;> simp_all [withKind, withAttr, withoutAttr, NodeData.ofKind, Token.isJump]

private theorem Node.withKind_string (hkind : l.kind = .bindName) :
    (l.withKind .string).withKind .bindName = l := by
  obtain ⟨kind, _, _, _, _, _, data, _⟩ := l
  obtain rfl : kind = .bindName := hkind
  cases data <;> simp [withKind, NodeData.ofKind, Token.isJump]

namespace Slotted

variable {g : Forest}

/-- Undoing the changes restores the forest. -/
theorem reverts (hs : Slotted rules p changes cut h k) (f1 f2 : Forest) {P : Plot} {t : Tree}
    {clauses : NodeId → SwitchData} (hp : P.parent = p)
    (H : P.Has clauses t (f1 ++ (k ++ f2)) (cut ++ g)) :
    Runs (changes.forM Lowering.revert) t fun _ t' =>
      ∃ g', P.Has clauses t' (f1 ++ (h ++ f2)) (g' ++ g) := by
  induction hs generalizing P t f1 f2 g with
  | nil => exact Runs.pure ⟨.nil, H⟩
  | @keep p id l kids kids' rest rest' changes changes' cut cut' _ _ _ ihk ihr =>
    -- The siblings behind come first, then what is below the node.
    rw [List.forM_eq_forM, List.forM_append]
    rw [append_assoc] at H
    refine Runs.bind (ihr (f1 ++ .tree id l kids') f2 hp (by simpa using H.swap cut cut')) ?_
    rintro _ t1 ⟨g1, H1⟩
    have H2 : P.Has clauses t1 (f1 ++ .cons id l (.nil ++ (kids' ++ .nil)) (rest ++ f2))
        (cut ++ (g1 ++ g)) := by
      simpa using H1.swap g1 cut
    have Hk := H2.within f1 _ .nil .nil
    refine Runs.mono (ihk .nil .nil (g := .nil) rfl (by simpa using Hk)) ?_
    rintro _ t2 ⟨g2, H3⟩
    exact ⟨g2 ++ g1, by simpa using H2.without f1 _ .nil .nil H3⟩
  | @getVar p id l slot rest rest' changes cut _ hkind hfree _ _ ih =>
    rw [List.forM_eq_forM, List.forM_append, List.forM_cons, List.forM_nil, bind_pure_unit]
    refine Runs.bind (ih (f1 ++ .tree id _ .nil) f2 hp (by simpa using H)) ?_
    rintro _ t1 ⟨g1, H1⟩
    rw [append_assoc] at H1
    refine (H1.relabelAt f1 _ TreeM.relabels_setKind).bind fun _ t2 H2 =>
      (H2.relabelAt f1 _ TreeM.relabels_eraseAttr).mono fun _ t3 H3 => ⟨g1, ?_⟩
    rwa [Node.withoutAttr_getVar hkind hfree] at H3
  | @setVar p id l bind lb slot value value' rest rest' changes changes' cut cut' _ hkind hfree
      hbind _ _ _ ihv ihr =>
    rw [List.forM_eq_forM, List.forM_append, List.forM_append, List.forM_cons, List.forM_nil,
      bind_pure_unit]
    rw [append_assoc] at H
    refine Runs.bind (ihr (f1 ++ .tree id _ (.cons bind (lb.withKind .string) .nil value')) f2 hp
      (by simpa using H.swap cut cut')) ?_
    rintro _ t1 ⟨g1, H1⟩
    have H2 : P.Has clauses t1 (f1 ++ .cons id ((l.withKind .setVar).withAttr .varIndex (.int slot))
        (.leaf bind (lb.withKind .string) ++ (value' ++ .nil)) (rest ++ f2))
          (cut ++ (g1 ++ g)) := by
      simpa using H1.swap g1 cut
    have Hv := H2.within f1 _ _ .nil
    refine Runs.bind (ihv .nil .nil (g := .nil) rfl (by simpa using Hv)) ?_
    rintro _ t2 ⟨g2, H3⟩
    have H4 := H2.without f1 _ _ .nil H3
    refine (H4.relabelAt f1 _ TreeM.relabels_setKind).bind fun _ t3 H5 =>
      (H5.relabelChild f1 _ TreeM.relabels_setKind).bind fun _ t4 H6 =>
        (H6.relabelAt f1 _ TreeM.relabels_eraseAttr).mono fun _ t5 H7 => ⟨g2 ++ g1, ?_⟩
    rw [Node.withoutAttr_setVar hkind hfree, Node.withKind_string hbind] at H7
    simpa using H7
  | @deleted p id l bind lb more constant slot rest rest' changes cut _ _ _ _ _ _ ih =>
    rw [List.forM_eq_forM, List.forM_append, List.forM_cons, List.forM_nil, bind_pure_unit]
    rw [append_assoc] at H
    refine Runs.bind (ih (f1 ++ .leaf constant (.ofKindAt .falseValue l.line)) f2 hp
      (by simpa using H.swap _ cut)) ?_
    rintro _ t1 ⟨g1, H1⟩
    rw [append_assoc] at H1
    subst hp
    refine ((H1.swap g1 (.tree id l (.cons bind lb .nil more))).replaceChild f1 _).mono
      fun _ t2 H2 => ⟨.leaf constant (.ofKindAt .falseValue l.line) ++ g1, ?_⟩
    simpa using H2

end Slotted

end ScriptEngine
