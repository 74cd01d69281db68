import ScriptEngine.Proofs.CodedTrees

/-!
# Parts of forests

A part of a forest is a run of siblings somewhere in it, with all that is below them. The other
nodes of the forest are outside; a predicate bounds them, so that a node that is in the forest and
not outside is known to be in the part. Jumps have steps out of scopes in front of them; a part does
not begin in the middle of such steps.
-/

namespace ScriptEngine

variable {id x : NodeId} {l : Node} {first : Nat} {f g rest kids h : Forest} {out : NodeId → Prop}
  {start : Prop}

/-- The node is a step out of a scope. Nodes from `first` on are new. -/
def Node.isStep (first : Nat) (id : NodeId) (l : Node) : Bool :=
  first ≤ id.index && (l.kind = .leaveWith || l.kind = .jsr)

namespace Node

/-- Nodes of the source are no steps. -/
theorem not_isStep_of_lt (h : id.index < first) : ¬ l.isStep first id := by
  simp only [isStep, Bool.and_eq_true, decide_eq_true_eq, not_and]
  omega

theorem not_isStep_of_kind (h : l.kind ≠ .leaveWith) (h' : l.kind ≠ .jsr) :
    ¬ l.isStep first id := by
  simp [isStep, h, h']

end Node

namespace Forest

/-- A step is not the last sibling; `start` says that none is in front of the forest. -/
def Tidy (first : Nat) : Prop → Forest → Prop
  | start, .nil => start
  | _, .cons id l _ rest => Tidy first (¬ l.isStep first id) rest

/-- The forest is a run of siblings in another one, whose other nodes are outside. No step stands in
front of the run; `start` says that none is in front of the other forest. -/
def Part (g : Forest) (out : NodeId → Prop) (first : Nat) : Prop → Forest → Prop
  | start, .nil => start ∧ g = .nil
  | start, .cons id l kids rest =>
    (start ∧ ∃ after, Forest.cons id l kids rest = g ++ after ∧ ∀ x ∈ after.ids, out x) ∨
      (out id ∧ (∀ x ∈ rest.ids, out x) ∧ Part g out first True kids) ∨
      (out id ∧ (∀ x ∈ kids.ids, out x) ∧ Part g out first (¬ l.isStep first id) rest)

variable {top : Forest} {out' : NodeId → Prop} {start' : Prop}

/-- Two forests are tidy if the second is so behind the first. -/
theorem tidy_append : (f ++ g).Tidy first start = g.Tidy first (f.Tidy first start) := by
  induction f generalizing start with
  | nil => rfl
  | cons id l kids rest _ ih => exact ih

theorem Tidy.mono (h : f.Tidy first start) (hstart : start → start') : f.Tidy first start' := by
  cases f with
  | nil => exact hstart h
  | cons => exact h

private theorem part_left (f : Forest) (hstart : start) (hg : ∀ x ∈ g.ids, out x) :
    f.Part out first start (f ++ g) := by
  cases hfg : f ++ g with
  | nil => cases f with
    | nil => exact ⟨hstart, rfl⟩
    | cons => cases hfg
  | cons => exact .inl ⟨hstart, g, hfg.symm, hg⟩

/-- A forest is a part of itself. -/
theorem part_self (f : Forest) (hstart : start) : f.Part out first start f := by
  have h : f.Part out first start (f ++ .nil) := part_left f hstart (by simp)
  rwa [append_nil] at h

private theorem part_right (g : Forest) (hf : ∀ x ∈ f.ids, out x) (htidy : f.Tidy first start) :
    g.Part out first start (f ++ g) := by
  induction f generalizing start with
  | nil => exact g.part_self htidy
  | cons id l kids rest _ ih =>
    refine .inr (.inr ⟨hf id (by simp), fun x hx => hf x (by simp [hx]), ih (fun x hx => ?_) htidy⟩)
    exact hf x (by simp [hx])

private theorem part_kids (kids : Forest) (hid : out id)
    (hrest : ∀ x ∈ rest.ids, out x) : kids.Part out first start (.cons id l kids rest) :=
  .inr (.inl ⟨hid, hrest, kids.part_self trivial⟩)

namespace Part

private theorem mono (h : g.Part out first start f) (hout : ∀ x, out x → out' x)
    (hstart : start → start') : g.Part out' first start' f := by
  induction f generalizing start start' with
  | nil => exact h.imp_left hstart
  | cons id l kids rest ihk ihr =>
    rcases h with ⟨hs, after, heq, ha⟩ | ⟨hid, hrest, hk⟩ | ⟨hid, hkids, hr⟩
    · exact .inl ⟨hstart hs, after, heq, fun x hx => hout x (ha x hx)⟩
    · exact .inr (.inl ⟨hout id hid, fun x hx => hout x (hrest x hx), ihk hk fun h => h⟩)
    · exact .inr (.inr ⟨hout id hid, fun x hx => hout x (hkids x hx), ihr hr fun h => h⟩)

/-- Fewer nodes may be kept out. -/
theorem narrow {s u : List NodeId} (h : g.Part (· ∉ s) first start f) (hsub : u ⊆ s) :
    g.Part (· ∉ u) first start f :=
  h.mono (fun _ hx hin => hx (hsub hin)) id

/-- What is outside is left open. -/
theorem widen (h : g.Part out first start f) : g.Part (fun _ => True) first start f :=
  h.mono (fun _ _ => trivial) id

private theorem append_right (h : g.Part out first start f) {a : Forest} (ha : ∀ x ∈ a.ids, out x) :
    g.Part out first start (f ++ a) := by
  induction f generalizing start with
  | nil =>
    obtain ⟨hstart, rfl⟩ := h
    exact part_left .nil hstart ha
  | cons id l kids rest _ ih =>
    rcases h with ⟨hstart, after, heq, hafter⟩ | ⟨hid, hrest, hk⟩ | ⟨hid, hkids, hr⟩
    · refine .inl ⟨hstart, after ++ a, by rw [← append_assoc, ← heq]; rfl, fun x hx => ?_⟩
      rcases List.mem_append.mp (ids_append after a ▸ hx) with hx | hx
      · exact hafter x hx
      · exact ha x hx
    · refine .inr (.inl ⟨hid, fun x hx => ?_, hk⟩)
      rcases List.mem_append.mp (ids_append rest a ▸ hx) with hx | hx
      · exact hrest x hx
      · exact ha x hx
    · exact .inr (.inr ⟨hid, hkids, ih hr⟩)

/-- A part of a part. -/
theorem trans (h : g.Part out first True f) (hf : f.Part out first start top) :
    g.Part out first start top := by
  induction top generalizing start with
  | nil =>
    obtain ⟨hstart, rfl⟩ := hf
    exact h.mono (fun _ hx => hx) fun _ => hstart
  | cons id l kids rest ihk ihr =>
    rcases hf with ⟨hstart, after, heq, ha⟩ | ⟨hid, hrest, hk⟩ | ⟨hid, hkids, hr⟩
    · rw [heq]
      exact (h.append_right ha).mono (fun _ hx => hx) fun _ => hstart
    · exact .inr (.inl ⟨hid, hrest, ihk hk⟩)
    · exact .inr (.inr ⟨hid, hkids, ihr hr⟩)

/-! Parts of a part, with the rest of it outside. -/

/-- The front of a part. -/
theorem left (h : (f ++ g).Part out first start top) (hg : ∀ x ∈ g.ids, out x) :
    f.Part out first start top :=
  (part_left f trivial hg).trans h

/-- The back of a part, behind a front that ends in no step. -/
theorem right (h : (f ++ g).Part out first start top) (hf : ∀ x ∈ f.ids, out x)
    (htidy : f.Tidy first True) : g.Part out first start top :=
  (part_right g hf htidy).trans h

/-- What is below a node of a part. -/
theorem below (h : (Forest.cons id l kids rest).Part out first start top) (hid : out id)
    (hrest : ∀ x ∈ rest.ids, out x) : kids.Part out first start top :=
  (part_kids kids hid hrest).trans h

/-- What is behind a node of a part that is no step. -/
theorem behind (h : (Forest.cons id l kids rest).Part out first start top) (hid : out id)
    (hkids : ∀ x ∈ kids.ids, out x) (hstep : ¬ l.isStep first id) :
    rest.Part out first start top := by
  refine right (f := .tree id l kids) h (fun x hx => ?_) hstep
  rcases List.mem_cons.mp (by simpa using hx) with rfl | hx
  · exact hid
  · exact hkids x hx

/-- What is not outside is in the part. -/
theorem mem_ids (h : g.Part out first start f) (hx : x ∈ f.ids) : x ∈ g.ids ∨ out x := by
  induction f generalizing start with
  | nil => simp at hx
  | cons id l kids rest ihk ihr =>
    rcases h with ⟨-, after, heq, ha⟩ | ⟨hid, hrest, hk⟩ | ⟨hid, hkids, hr⟩
    · rw [heq, ids_append, List.mem_append] at hx
      exact hx.imp_right (ha x)
    · simp only [ids_cons, List.mem_cons, List.mem_append] at hx
      rcases hx with rfl | hx | hx
      · exact .inr hid
      · exact ihk hk hx
      · exact .inr (hrest x hx)
    · simp only [ids_cons, List.mem_cons, List.mem_append] at hx
      rcases hx with rfl | hx | hx
      · exact .inr hid
      · exact .inr (hkids x hx)
      · exact ihr hr hx

end Part

/-- A node of the forest has this label. -/
def Has (id : NodeId) (l : Node) : Forest → Prop
  | .nil => False
  | .cons id' l' kids rest => (id' = id ∧ l' = l) ∨ Has id l kids ∨ Has id l rest

@[simp] theorem has_append : (f ++ g).Has id l ↔ f.Has id l ∨ g.Has id l := by
  induction f with
  | nil => simp [Has]
  | cons id' l' kids rest _ ih => simp [Has, ih, or_assoc]

/-- The nodes of a part are nodes of the whole. -/
theorem Part.has (h : g.Part out first start f) (hg : g.Has id l) : f.Has id l := by
  induction f generalizing start with
  | nil =>
    obtain ⟨-, rfl⟩ := h
    exact hg
  | cons id' l' kids rest ihk ihr =>
    rcases h with ⟨-, after, heq, -⟩ | ⟨-, -, hk⟩ | ⟨-, -, hr⟩
    · rw [heq, has_append]
      exact .inl hg
    · exact .inr (.inl (ihk hk))
    · exact .inr (.inr (ihr hr))

/-- The forest is made of nodes of another one. -/
structure Inside (g f : Forest) : Prop where
  sublist : g.ids.Sublist f.ids
  has : ∀ id l, g.Has id l → f.Has id l

namespace Inside

theorem refl (f : Forest) : f.Inside f := ⟨.refl _, fun _ _ h => h⟩

theorem trans (hh : h.Inside g) (hg : g.Inside f) : h.Inside f :=
  ⟨hh.sublist.trans hg.sublist, fun id l hl => hg.has id l (hh.has id l hl)⟩

theorem left : f.Inside (f ++ g) :=
  ⟨ids_append f g ▸ List.sublist_append_left .., fun _ _ hl => has_append.mpr (.inl hl)⟩

theorem right : g.Inside (f ++ g) :=
  ⟨ids_append f g ▸ List.sublist_append_right .., fun _ _ hl => has_append.mpr (.inr hl)⟩

theorem below : kids.Inside (.cons id l kids rest) := by
  refine ⟨?_, fun _ _ hl => .inr (.inl hl)⟩
  rw [ids_cons]
  exact (List.sublist_append_left ..).cons _

theorem behind : rest.Inside (.cons id l kids rest) := by
  refine ⟨?_, fun _ _ hl => .inr (.inr hl)⟩
  rw [ids_cons]
  exact (List.sublist_append_right ..).cons _

/-- What is inside an old forest is old. -/
theorem old {bound : Nat} (h : g.Inside f) (hf : f.Old bound) : g.Old bound :=
  ⟨hf.1.sublist h.sublist, fun q hq => hf.2 q (h.sublist.subset hq)⟩

end Inside

theorem leaves_append (xs ys : List (NodeId × Node)) :
    leaves (xs ++ ys) = leaves xs ++ leaves ys := by
  induction xs with
  | nil => rfl
  | cons x xs ih => rw [List.cons_append, leaves, ih, leaves, cons_append]

end Forest

/-! ## Accesses by slot -/

/-- Kinds of nodes that are neither accesses to variables nor parts of them. -/
def Token.isFirm : Token → Bool
  | .name | .setName | .delProp | .bindName | .string => false
  | _ => true

/-- The forest begins with a node that is no access to a variable. -/
def Forest.isFirm : Forest → Bool
  | .nil => false
  | .cons _ l _ _ => l.kind.isFirm

namespace Slotted

variable {rules : SlotRules} {p : NodeId} {changes : List SlotChange} {cut k : Forest}
  {limits : Limits}

/-- The slots of two forests are those of each. -/
theorem append_inv (hs : Slotted rules p changes cut (f ++ g) k) :
    ∃ f' g' changes1 changes2 cut1 cut2, k = f' ++ g' ∧ Slotted rules p changes1 cut1 f f' ∧
      Slotted rules p changes2 cut2 g g' := by
  induction f generalizing changes cut k with
  | nil => exact ⟨.nil, k, [], changes, .nil, cut, rfl, .nil, hs⟩
  | cons id l kids rest _ ih =>
    rw [Forest.cons_append] at hs
    cases hs with
    | keep hkeep hkids hrest =>
      obtain ⟨f', g', _, _, _, _, rfl, hf, hg⟩ := ih hrest
      exact ⟨_, g', _, _, _, _, rfl, .keep hkeep hkids hf, hg⟩
    | getVar hmay hkind hfree hslot hrest =>
      obtain ⟨f', g', _, _, _, _, rfl, hf, hg⟩ := ih hrest
      exact ⟨_, g', _, _, _, _, rfl, .getVar hmay hkind hfree hslot hf, hg⟩
    | setVar hmay hkind hfree hbind hslot hvalue hrest =>
      obtain ⟨f', g', _, _, _, _, rfl, hf, hg⟩ := ih hrest
      exact ⟨_, g', _, _, _, _, rfl, .setVar hmay hkind hfree hbind hslot hvalue hf, hg⟩
    | deleted hmay hkind hbind hslot hnew hrest =>
      obtain ⟨f', g', _, _, _, _, rfl, hf, hg⟩ := ih hrest
      exact ⟨_, g', _, _, _, _, rfl, .deleted hmay hkind hbind hslot hnew hf, hg⟩

/-- Only the constants for deletions are new. -/
theorem mem_ids_or_new (hs : Slotted rules p changes cut h k) (hx : x ∈ k.ids) :
    x ∈ h.ids ∨ rules.first ≤ x.index := by
  induction hs with
  | nil => simp at hx
  | _ => simp only [Forest.ids_cons, Forest.ids_nil, List.mem_cons, List.mem_append] at hx ⊢; grind

/-- A node that is no access to a variable is kept. -/
theorem firm_inv (hs : Slotted rules p changes cut (.cons id l kids rest) k)
    (hfirm : l.kind.isFirm) :
    ∃ changes1 changes2 cut1 cut2 kids' rest', k = .cons id l kids' rest' ∧
      Slotted rules id changes1 cut1 kids kids' ∧ Slotted rules p changes2 cut2 rest rest' := by
  obtain ⟨_, _, _, _, kids', rest', -, -, heq, hkids, hrest⟩ :=
    hs.cons_inv (Token.isAccess_eq_false hfirm rfl rfl rfl)
  exact ⟨_, _, _, _, kids', rest', heq, hkids, hrest⟩

/-- Nodes without children are kept if they are no accesses. -/
theorem leaves_inv {xs : List (NodeId × Node)} (hs : Slotted rules p changes cut (.leaves xs) k)
    (hfirm : ∀ x ∈ xs, x.2.kind.isFirm) : k = .leaves xs := by
  induction xs generalizing changes cut k with
  | nil => exact hs.nil_inv.2.2
  | cons x xs ih =>
    obtain ⟨_, _, _, _, kids', rest', rfl, hkids, hrest⟩ := hs.firm_inv (hfirm x (by simp))
    rw [hkids.nil_inv.2.2, ih hrest fun y hy => hfirm y (by simp [hy]), Forest.leaves]

/-- A firm leaf stays as it is. -/
theorem leaf_inv (hs : Slotted rules p changes cut (.leaf id l) k) (hfirm : l.kind.isFirm) :
    k = .leaf id l := by
  obtain ⟨_, _, _, _, kids', rest', rfl, hkids, hrest⟩ := hs.firm_inv hfirm
  rw [hkids.nil_inv.2.2, hrest.nil_inv.2.2]

/-- The siblings of a part that begins with no access are still siblings. What comes in front of
them may become an access by slot, which is no step. -/
theorem part (hs : Slotted rules p changes cut h k)
    (hready : h.All (Node.Ready limits)) (hnew : ∀ x, rules.first ≤ x.index → out x)
    (hpart : g.Part out first start h) (hfirm : g.isFirm) :
    ∃ q changes' cut' g', Slotted rules q changes' cut' g g' ∧ g'.Part out first start k := by
  have hout {p : NodeId} {changes : List SlotChange} {cut a a' : Forest}
      (hs : Slotted rules p changes cut a a') (ha : ∀ x ∈ a.ids, out x) : ∀ x ∈ a'.ids, out x :=
    fun x hx => (hs.mem_ids_or_new hx).elim (ha x) (hnew x)
  have hnone {start : Prop} : ¬ g.Part out first start .nil := by
    rintro ⟨-, rfl⟩
    cases hfirm
  -- The part does not begin with an access.
  have hhead {id : NodeId} {l : Node} {kids rest after : Forest} (hl : l.kind.isFirm = false) :
      Forest.cons id l kids rest ≠ g ++ after := by
    intro heq
    cases g with
    | nil => cases hfirm
    | cons =>
      cases heq
      rw [Forest.isFirm, hl] at hfirm
      cases hfirm
  have hbehind {id : NodeId} {l : Node} {start : Prop} {g' rest : Forest}
      (hin : g'.Part out first start rest) (hleave : l.kind ≠ .leaveWith) (hjsr : l.kind ≠ .jsr) :
      g'.Part out first (¬ l.isStep first id) rest :=
    hin.mono (fun _ hx => hx) fun _ => Node.not_isStep_of_kind hleave hjsr
  induction hs generalizing start with
  | nil => exact absurd hpart hnone
  | keep hkeep hkids hrest ihk ihr =>
    rcases hpart with ⟨hstart, after, heq, ha⟩ | ⟨hid, hr, hk⟩ | ⟨hid, hk, hr⟩
    · have hall := Slotted.keep hkeep hkids hrest
      rw [heq] at hall
      obtain ⟨g', after', _, _, _, _, heq', hg, hafter⟩ := hall.append_inv
      exact ⟨_, _, _, g', hg, .inl ⟨hstart, after', heq', hout hafter ha⟩⟩
    · obtain ⟨q, _, _, g', hg, hin⟩ := ihk hready.2.1 hk
      exact ⟨q, _, _, g', hg, .inr (.inl ⟨hid, hout hrest hr, hin⟩)⟩
    · obtain ⟨q, _, _, g', hg, hin⟩ := ihr hready.2.2 hr
      exact ⟨q, _, _, g', hg, .inr (.inr ⟨hid, hout hkids hk, hin⟩)⟩
  | getVar _ hkind _ _ hrest ih =>
    rcases hpart with ⟨-, after, heq, -⟩ | ⟨-, -, hk⟩ | ⟨hid, hk, hr⟩
    · exact absurd heq (hhead (by rw [hkind]; rfl))
    · exact absurd hk hnone
    · obtain ⟨q, _, _, g', hg, hin⟩ := ih hready.2.2 hr
      exact ⟨q, _, _, g', hg, .inr (.inr ⟨hid, hk, hbehind hin nofun nofun⟩)⟩
  | setVar _ hkind _ hbind _ hvalue hrest ihv ihr =>
    rcases hpart with ⟨-, after, heq, -⟩ | ⟨hid, hr, hk⟩ | ⟨hid, hk, hr⟩
    · exact absurd heq (hhead (by rw [hkind]; rfl))
    · rcases hk with ⟨-, after, heq, -⟩ | ⟨-, -, hk⟩ | ⟨hb, -, hv⟩
      · exact absurd heq (hhead (by rw [hbind]; rfl))
      · exact absurd hk hnone
      · obtain ⟨q, _, _, g', hg, hin⟩ := ihv hready.2.1.2.2 hv
        exact ⟨q, _, _, g', hg,
          .inr (.inl ⟨hid, hout hrest hr, .inr (.inr ⟨hb, by simp, hbehind hin nofun nofun⟩)⟩)⟩
    · obtain ⟨q, _, _, g', hg, hin⟩ := ihr hready.2.2 hr
      refine ⟨q, _, _, g', hg, .inr (.inr ⟨hid, fun x hx => ?_, hbehind hin nofun nofun⟩)⟩
      simp only [Forest.ids_cons, Forest.ids_nil, List.nil_append, List.mem_cons] at hx hk
      rcases hx with rfl | hx
      · exact hk _ (.inl rfl)
      · exact hout hvalue (fun y hy => hk y (.inr hy)) x hx
  | deleted _ hkind hbind _ hconstant hrest ih =>
    -- Nothing but the name is below a deletion of a variable.
    obtain ⟨-, key, lk, rfl, hkey⟩ := hready.1.deletes hkind _ _ _ _ rfl hbind
    rcases hpart with ⟨-, after, heq, -⟩ | ⟨-, -, hk⟩ | ⟨hid, hk, hr⟩
    · exact absurd heq (hhead (by rw [hkind]; rfl))
    · rcases hk with ⟨-, after, heq, -⟩ | ⟨-, -, hk⟩ | ⟨-, -, hk⟩
      · exact absurd heq (hhead (by rw [hbind]; rfl))
      · exact absurd hk hnone
      · rcases hk with ⟨-, after, heq, -⟩ | ⟨-, -, hk⟩ | ⟨-, -, hk⟩
        · exact absurd heq (hhead (by rw [hkey]; rfl))
        · exact absurd hk hnone
        · exact absurd hk hnone
    · obtain ⟨q, _, _, g', hg, hin⟩ := ih hready.2.2 hr
      exact ⟨q, _, _, g', hg, .inr (.inr ⟨hnew _ hconstant, by simp, hbehind hin nofun nofun⟩)⟩

/-- A node that is no access to a variable is kept, wherever it is. -/
theorem has (hs : Slotted rules p changes cut h k) (hready : h.All (Node.Ready limits))
    (hhas : h.Has id l) (hfirm : l.kind.isFirm) : k.Has id l := by
  -- An access, or a part of one, is not the node.
  have hnot {id' : NodeId} {l' : Node} (hl : l'.kind.isFirm = false) : ¬ (id' = id ∧ l' = l) := by
    rintro ⟨-, rfl⟩
    rw [hl] at hfirm
    cases hfirm
  induction hs with
  | nil => exact hhas
  | keep _ _ _ ihk ihr =>
    exact hhas.imp_right (Or.imp (ihk hready.2.1) (ihr hready.2.2))
  | getVar _ hkind _ _ _ ih =>
    rcases hhas with hself | hk | hr
    · exact absurd hself (hnot (by rw [hkind]; rfl))
    · exact hk.elim
    · exact .inr (.inr (ih hready.2.2 hr))
  | setVar _ hkind _ hbind _ _ _ ihv ihr =>
    rcases hhas with hself | (hself | hk | hv) | hr
    · exact absurd hself (hnot (by rw [hkind]; rfl))
    · exact absurd hself (hnot (by rw [hbind]; rfl))
    · exact hk.elim
    · exact .inr (.inl (.inr (.inr (ihv hready.2.1.2.2 hv))))
    · exact .inr (.inr (ihr hready.2.2 hr))
  | deleted _ hkind hbind _ _ _ ih =>
    obtain ⟨-, key, lk, rfl, hkey⟩ := hready.1.deletes hkind _ _ _ _ rfl hbind
    rcases hhas with hself | (hself | hk | hself | hk | hk) | hr
    · exact absurd hself (hnot (by rw [hkind]; rfl))
    · exact absurd hself (hnot (by rw [hbind]; rfl))
    · exact hk.elim
    · exact absurd hself (hnot (by rw [hkey]; rfl))
    · exact hk.elim
    · exact hk.elim
    · exact .inr (.inr (ih hready.2.2 hr))

end Slotted

end ScriptEngine
