import ScriptEngine.Proofs.Complaints
import ScriptEngine.Proofs.Parts

/-!
# Where jumps lead

`Forest.mentions` says what is around each jump of a body before it is lowered. A jump leads to the
nearest statement around it that it can go to, after the steps that leave the with statements and
the guarded parts of tries inside that one, and no others. Labels get their break targets behind the
statement that they stand in front of.
-/

namespace ScriptEngine

open Forest Node

variable {limits : Limits} {labels : List LabelNode} {id stop x continueTo leave : NodeId}
  {l ls l' le : Node} {nodes : List NodeId} {body top f g h k kids rest front hr hb : Forest}
  {first w : Nat} {p : Prop} {steps : List (NodeId × Node)} {site : Site}
  {scopes inner E : List Scope} {form : Form} {past : Bool} {events : List Event}
  {source : NodeId → Node → Prop} {scope : Scope} {j : JumpData}

/-! ## Settled places -/

/-- The targets of a scope can be read off a lowered forest. -/
def Scope.Seen (first : Nat) (top : Forest) : Scope → Prop
  | .switch node stop => ∃ l selector clauses, l.kind = .switch ∧
      l.switch?.bind (·.target) = some stop ∧
      (Forest.cons node l selector (clauses ++ .leaf stop (.ofKind .target))).Part (fun _ => True)
        first True top
  | .label node _ stop _ => ∃ l, l.kind = .label ∧ l.target? = some stop ∧ top.Has node l
  | .loop .. | .withBody .. | .guarded .. => True

namespace Mention

/-- A jump with a destination in some scopes stands behind the steps that lead there, which are new,
and behind no other steps. -/
def Leads (first : Nat) (top : Forest) (id : NodeId) (isBreak : Bool) (name : Option String)
    (scopes : List Scope) : Prop :=
  ∃ inner dest outer target steps l, scopes = inner ++ dest :: outer ∧
    (∀ scope ∈ inner, ¬ scope.isDestination isBreak name) ∧ dest.isDestination isBreak name ∧
    dest.target? isBreak = some target ∧ l.kind = .goto ∧ l.target? = some target ∧
    steps.map Prod.snd = inner.filterMap Scope.step? ∧ (∀ step ∈ steps, first ≤ step.1.index) ∧
    (Forest.leaves steps ++ .leaf id l).Part (fun _ => True) first True top

/-- What a place has become in a lowered forest. A label that is opened has more labels behind it,
which share its break target or are as in the source, then all that is left of its statement, and
then the target. Nodes from `first` on are new. -/
def Settled (source : NodeId → Node → Prop) (first : Nat) (top : Forest) : Mention → Prop
  | .jump id _ isBreak name around => ∃ scopes : List Scope, around = scopes.map Scope.enclosure ∧
      (∀ scope ∈ scopes, scope.Seen first top) ∧
      (Leads first top id isBreak name scopes ∨
        (jumpError? isBreak name around).isSome ∧ ∃ l, l.kind = .nop ∧ top.Has id l)
  | .label id _ name around before => labelError? name around = none →
      ∃ l stack body stop, l.kind = .label ∧ l.target? = some stop ∧
        stack.map Prod.fst = before.stack ∧
        (∀ a ∈ stack, a.2.kind = .label ∧ (a.2.target? = some stop ∨ source a.1 a.2)) ∧
        (∀ x ∈ before.nodes, x.index < first ∧ x ≠ id ∧ x ∉ before.stack ∧ x ≠ stop) ∧
        (∀ x ∈ before.nodes, x ∈ top.ids → x ∈ body.ids) ∧
        (Forest.cons id l .nil (.leaves stack ++ (body ++ .leaf stop (.ofKind .target)))).Part
          (· ∉ before.nodes) first True top
  | .function _ => True

end Mention

/-- In a run of labels, a statement and a target, the nodes of the statement are between the labels
and the target. -/
theorem Forest.Part.mem_body {stack : List (NodeId × Node)} {start : Prop}
    (hpart : (Forest.cons id l .nil (.leaves stack ++ (body ++ .leaf stop ls))).Part (· ∉ nodes)
      first start top)
    (hnodes : ∀ x ∈ nodes, x ≠ id ∧ x ∉ stack.map Prod.fst ∧ x ≠ stop) :
    ∀ x ∈ nodes, x ∈ top.ids → x ∈ body.ids := by
  intro x hx htop
  obtain ⟨hid, hstack, hstop⟩ := hnodes x hx
  have hrun := (hpart.mem_ids htop).resolve_right (not_not.mpr hx)
  rw [ids_cons, ids_append, ids_append, ids_leaves] at hrun
  simpa [hid, hstop, hstack] using hrun

/-! ## Nodes of lowered forests -/

namespace Forest

variable {kids' rest' : Forest}

namespace Old

private theorem disjoint (h : (f ++ g).Old first) : ∀ x ∈ f.ids, x ∉ g.ids := by
  have hnd := h.1
  rw [ids_append, List.nodup_append] at hnd
  exact fun x hf hg => hnd.2.2 x hf x hg rfl

private theorem cons_disjoint (h : (Forest.cons id l kids rest).Old first) :
    id ∉ kids.ids ∧ id ∉ rest.ids ∧ ∀ x ∈ kids.ids, x ∉ rest.ids := by
  have hnd := h.1
  rw [ids_cons, List.nodup_cons, List.mem_append, not_or, List.nodup_append] at hnd
  exact ⟨hnd.1.1, hnd.1.2, fun x hk hr => hnd.2.2.2 x hk x hr rfl⟩

private theorem not_mem_of_new (h : f.Old first) (hx : first ≤ x.index) : x ∉ f.ids :=
  fun hin => Nat.not_lt.mpr hx (h.2 x hin)

end Old

/-- The old nodes of a forest are all in another one. -/
def Stems (first : Nat) (f g : Forest) : Prop :=
  ∀ x ∈ f.ids, x.index < first → x ∈ g.ids

theorem stems_self (f : Forest) : f.Stems first f := fun _ hx _ => hx

/-- A new node stems from anything. -/
theorem stems_new (hnew : first ≤ id.index) : (Forest.leaf id l).Stems first g := by
  intro x hx hlt
  obtain rfl : x = id := by simpa using hx
  omega

/-- A target that stands there only if it is needed, and then it is new. -/
theorem stems_target [Decidable p] (hnew : ¬ p → first ≤ id.index) :
    (if p then Forest.nil else .leaf id l).Stems first .nil := by
  split
  · exact stems_self _
  · next hne => exact stems_new (hnew hne)

private theorem tidy_target [Decidable p] :
    (if p then Forest.nil else .leaf id (.ofKind .target)).Tidy first True := by
  split
  · trivial
  · exact not_isStep_of_kind nofun nofun

/-- New nodes side by side. -/
theorem stems_leaves (hnew : ∀ step ∈ steps, first ≤ step.1.index) :
    (Forest.leaves steps).Stems first g := by
  intro x hx hlt
  obtain ⟨l, hl⟩ : ∃ l, (x, l) ∈ steps := by simpa using hx
  exact absurd hlt (Nat.not_lt.mpr (hnew _ hl))

namespace Stems

/-- One forest after another. -/
theorem append {f' g' : Forest} (hf : f.Stems first f') (hg : g.Stems first g') :
    (f ++ g).Stems first (f' ++ g') := by
  intro x hx hlt
  rw [ids_append, List.mem_append] at hx ⊢
  exact hx.imp (hf x · hlt) (hg x · hlt)

theorem cons (hk : kids.Stems first kids') (hr : rest.Stems first rest') :
    (Forest.cons id l kids rest).Stems first (.cons id l' kids' rest') := by
  intro x hx hlt
  simp only [ids_cons, List.mem_cons, List.mem_append] at hx ⊢
  rcases hx with rfl | hx | hx
  exacts [.inl rfl, .inr (.inl (hk x hx hlt)), .inr (.inr (hr x hx hlt))]

/-- What stems from a forest is apart from others. -/
theorem apart (hh : h.Stems first f) (hg : g.Old first) (hoff : ∀ x ∈ g.ids, x ∉ f.ids) :
    ∀ x ∈ h.ids, x ∉ g.ids :=
  fun x hx hin => hoff x hin (hh x hx (hg.2 x hin))

private theorem apart_left (hk : k.Stems first g) (hold : (f ++ g).Old first) :
    ∀ x ∈ k.ids, x ∉ f.ids :=
  hk.apart hold.append.1 hold.disjoint

private theorem apart_right (hh : h.Stems first f) (hold : (f ++ g).Old first) :
    ∀ x ∈ h.ids, x ∉ g.ids :=
  hh.apart hold.append.2 fun x hg hf => hold.disjoint x hf hg

end Stems

end Forest

/-- A node that was there before is one of those that are lowered. -/
theorem Lowered.stems (hlow : Lowered site scopes form w past f h events)
    (hold : f.Old site.first) : h.Stems site.first f := by
  intro x hx hlt
  have hkept : h.uncut (fun _ => false) site.first =
      f.keptAs (fun _ => false) past (unwinds scopes) form := hlow.kept_eq hold
  rw [uncut_none] at hkept
  have hin : x ∈ f.keptAs (fun _ => false) past (unwinds scopes) form :=
    hkept ▸ List.mem_filter.mpr ⟨hx, by simpa using hlt⟩
  cases form with
  | one | list => exact ((kept_sublist_ids f).1 ..).subset hin
  | decls => exact ((kept_sublist_ids f).2 ..).subset hin

/-- A label is no step, whether it is opened or not. -/
theorem LabelNode.not_isStep (a : LabelNode)
    (hl : l.kind = a.node.kind) : ¬ l.isStep first a.id := by
  have hkind := hl.trans a.kind_eq
  exact not_isStep_of_kind (by simp [hkind]) (by simp [hkind])

/-! ## Labels -/

namespace LabelsOpen

variable {continueTo : Option NodeId}

variable (hopen : LabelsOpen stop continueTo scopes labels inner front events)

include hopen

/-- Opened labels stand side by side. Those that are opened have the same break target, and the
others are as they were. -/
theorem front_eq (hsource : ∀ a ∈ labels, source a.id a.node) :
    ∃ stack, front = .leaves stack ∧ stack.map Prod.fst = labels.map LabelNode.id ∧
      ∀ a ∈ stack, a.2.kind = .label ∧ (a.2.target? = some stop ∨ source a.1 a.2) := by
  induction hopen with
  | nil => exact ⟨[], rfl, rfl, by simp⟩
  | @repeated scopes a labels inner front events _ _ ih =>
    obtain ⟨stack, rfl, hids, hall⟩ := ih fun b hb => hsource b (by simp [hb])
    refine ⟨(a.id, a.node) :: stack, rfl, by simp [hids], fun b hb => ?_⟩
    rcases List.mem_cons.mp hb with rfl | hb
    · exact ⟨a.kind_eq, .inr (hsource a (by simp))⟩
    · exact hall b hb
  | @fresh scopes a labels inner front j events _ _ _ ih =>
    obtain ⟨stack, rfl, hids, hall⟩ := ih fun b hb => hsource b (by simp [hb])
    refine ⟨(a.id, a.node.withJump
      { j with label := some a.name, target := some stop, continueTarget := continueTo }) :: stack,
      rfl, by simp [hids], fun b hb => ?_⟩
    rcases List.mem_cons.mp hb with rfl | hb
    · exact ⟨a.kind_eq, .inl rfl⟩
    · exact hall b hb

private theorem tidy : front.Tidy first True := by
  induction hopen with
  | nil => trivial
  | @repeated _ a _ _ _ _ _ _ ih | @fresh _ a _ _ _ _ _ _ _ _ ih =>
    exact ih.mono fun _ => a.not_isStep rfl

/-- Labels keep their nodes. -/
theorem stems : front.Stems first (labelForest labels) := by
  induction hopen with
  | nil => exact stems_self _
  | repeated _ _ ih => exact .cons (fun _ hx => by cases hx) ih
  | fresh _ _ _ ih => exact .cons (fun _ hx => by cases hx) ih

/-- The targets of opened labels can be read off them. -/
theorem seen (hscopes : ∀ scope ∈ scopes, scope.Seen first top)
    (htop : ∀ id l, front.Has id l → top.Has id l) : ∀ scope ∈ inner, scope.Seen first top := by
  induction hopen with
  | nil => exact hscopes
  | repeated _ _ ih =>
    exact ih hscopes fun id l hl => htop id l (.inr (.inr hl))
  | @fresh scopes a labels inner front j events _ _ _ ih =>
    refine ih (fun scope hin => ?_) fun id l hl => htop id l (.inr (.inr hl))
    rcases List.mem_cons.mp hin with rfl | hin
    · refine ⟨a.node.withJump
        { j with label := some a.name, target := some stop, continueTarget := continueTo }, ?_, rfl,
        htop _ _ (.inl ⟨rfl, rfl⟩)⟩
      exact a.kind_eq
    · exact hscopes scope hin

/-- Labels that are opened are settled where they stand in front of their statement. -/
theorem settled {pending outer : List Enclosure}
    (hsource : ∀ a ∈ labels, source a.id a.node)
    (hg : g.labelled = { nodes, continueTo }) (hE : pending ++ outer = scopes.map Scope.enclosure)
    (hids : ∀ x ∈ nodes,
      x.index < first ∧ x ∉ labels.map LabelNode.id ∧ (inner ≠ scopes → x ≠ stop))
    (hpart : inner ≠ scopes →
      (front ++ (body ++ .leaf stop (.ofKind .target))).Part (· ∉ nodes) first True top) :
    ∃ pending', pending' ++ outer = inner.map Scope.enclosure ∧
      ∀ m ∈ (labelForest labels ++ g).mentions pending outer none,
        m ∈ g.mentions pending' outer none ∨ m.Settled source first top := by
  induction hopen generalizing pending with
  | nil => exact ⟨pending, hE, fun m hm => .inl hm⟩
  | @repeated scopes a labels inner front events hname hopen ih =>
    have herror : labelError? a.name (pending ++ outer) = some (.duplicateLabel a.name) := by
      rw [hE, labelError?_scopes, if_pos hname]
    have ha : a.id ∉ nodes := fun hin => (hids a.id hin).2.1 (by simp)
    obtain ⟨pending', hinner, hall⟩ := ih (fun b hb => hsource b (by simp [hb])) hE
      (fun x hx => ⟨(hids x hx).1, fun hin => (hids x hx).2.1 (List.mem_cons_of_mem _ hin),
        (hids x hx).2.2⟩)
      fun hne => (hpart hne).behind ha (by simp) (a.not_isStep rfl)
    refine ⟨pending', hinner, fun m hm => ?_⟩
    rw [Lowered.mentions_labels, if_pos (by rw [herror]; rfl)] at hm
    rcases List.mem_cons.mp hm with rfl | hm
    · -- A label that is not opened is reported.
      refine .inr fun hnone => ?_
      have hsome : (none : Option LoweringError) = some _ := hnone.symm.trans herror
      cases hsome
    · exact hall m hm
  | @fresh scopes a labels inner front j events hname hdata hopen ih =>
    have hnone : labelError? a.name (pending ++ outer) = none := by
      rw [hE, labelError?_scopes, if_neg hname]
    have ha : a.id ∉ nodes := fun hin => (hids a.id hin).2.1 (by simp)
    have hne : inner ≠ scopes := hopen.ne_tail
    have hE' : (.label a.id a.name continueTo :: pending) ++ outer =
        (Scope.label a.id a.name stop continueTo :: scopes).map Scope.enclosure := by
      rw [List.cons_append, hE]
      rfl
    obtain ⟨pending', hinner, hall⟩ := ih (fun b hb => hsource b (by simp [hb])) hE'
      (fun x hx => ⟨(hids x hx).1, fun hin => (hids x hx).2.1 (List.mem_cons_of_mem _ hin),
        fun _ => (hids x hx).2.2 hne⟩)
      fun _ => (hpart hne).behind ha (by simp) (a.not_isStep rfl)
    refine ⟨pending', hinner, fun m hm => ?_⟩
    have hbefore : (labelForest labels ++ g).labelled =
        { stack := labels.map LabelNode.id, nodes, continueTo } := by
      rw [Lowered.labelled_labelForest, hg, List.append_nil]
    rw [Lowered.mentions_labels, if_neg (by rw [hnone]; simp), hbefore] at hm
    rcases List.mem_cons.mp hm with rfl | hm
    · obtain ⟨stack, rfl, hstack, hlabels⟩ := hopen.front_eq
        fun b hb => hsource b (by simp [hb])
      have hapart : ∀ x ∈ nodes, x ≠ a.id ∧ x ∉ labels.map LabelNode.id ∧ x ≠ stop :=
        fun x hx => ⟨fun heq => ha (heq ▸ hx),
          fun hin => (hids x hx).2.1 (List.mem_cons_of_mem _ hin), (hids x hx).2.2 hne⟩
      refine .inr fun _ => ⟨a.node.withJump
        { j with label := some a.name, target := some stop, continueTarget := continueTo }, stack,
        body, stop, a.kind_eq, rfl, hstack, hlabels,
        fun x hx => ⟨(hids x hx).1, hapart x hx⟩, (hpart hne).mem_body (hstack ▸ hapart), hpart hne⟩
    · exact hall m hm

end LabelsOpen

/-! ## Lowered forests -/

private theorem has_labelForest {a : LabelNode} (ha : a ∈ labels) :
    (labelForest labels).Has a.id a.node := by
  induction labels with
  | nil => cases ha
  | cons b labels ih =>
    rcases List.mem_cons.mp ha with rfl | ha
    · exact .inl ⟨rfl, rfl⟩
    · exact .inr (.inr (ih ha))

private theorem mem_labelForest (hx : x ∈ labels.map LabelNode.id) :
    x ∈ (labelForest labels).ids := by
  induction labels with
  | nil => cases hx
  | cons b labels ih =>
    rcases List.mem_cons.mp hx with rfl | hx
    · simp [labelForest]
    · simp [labelForest, ih hx]

namespace Lowered

/-- What a forest is lowered to does not end with a step: the last sibling is an old node, or a new
one that is no step. -/
theorem tidy (hlow : Lowered site E form w past f h events) (hold : f.Old site.first) :
    h.Tidy site.first True := by
  induction hlow with
  | plain | deleteName | function | retValue | lost | loop
  | tryCatch | tryFinally => exact not_isStep_of_lt hold.cons.1
  | var | retLater => exact not_isStep_of_kind nofun nofun
  | ret | jump =>
    rw [tidy_append]
    exact not_isStep_of_lt hold.cons.1
  | switch =>
    rw [Forest.Tidy, tidy_append]
    exact not_isStep_of_kind nofun nofun
  | nil | declNil => trivial
  | target _ _ _ ih => exact (ih hold.cons.2.2).mono fun _ => not_isStep_of_lt hold.cons.1
  | @labelled E inner w past labels id l kids rest front h stop hr complaints events events'
      hopen _ _ _ iho ihr =>
    rw [tidy_append, tidy_append, tidy_append]
    refine (ihr hold.append.2.cons.2.2).mono fun _ => ?_
    have hfront : front.Tidy site.first True := hopen.tidy
    split
    · exact (iho hold.append.2.head).mono fun _ => hfront
    · exact not_isStep_of_kind nofun nofun
  | withScope _ _ _ _ _ _ _ _ ih =>
    have hleave := hold.cons.2.2.cons.2.2
    exact (ih hleave.cons.2.2).mono fun _ => not_isStep_of_lt hleave.cons.1
  | exit _ _ _ _ _ ih =>
    have hskip := hold.cons.2.2
    exact (ih hskip.cons.2.2).mono fun _ => not_isStep_of_lt hskip.cons.1
  | decl _ _ ih => exact ih hold.cons.2.2
  | declInit _ _ _ _ _ _ ih =>
    exact (ih hold.cons.2.2).mono fun _ => not_isStep_of_kind nofun nofun

end Lowered

/-! ## Parts that are lowered -/

/-- What a forest is lowered to is part of a larger forest. The other nodes of that one are none of
those of the forest, and the scopes around the forest can be seen there. -/
structure Embedded (source : NodeId → Node → Prop) (first : Nat) (top : Forest) (E : List Scope)
    (f h : Forest) : Prop where
  old : f.Old first
  part : h.Part (· ∉ f.ids) first True top
  seen : ∀ scope ∈ E, scope.Seen first top
  has : ∀ id l, f.Has id l → source id l

namespace Embedded

variable {id' : NodeId} {hk : Forest}

/-- Fewer nodes are looked at, and less of what the forest is lowered to. -/
theorem focus (hst : Embedded source first top E f h) (hin : g.Inside f)
    (hpart : h.Part (· ∉ g.ids) first True top → k.Part (· ∉ g.ids) first True top) :
    Embedded source first top E g k :=
  ⟨hin.old hst.old, hpart (hst.part.narrow hin.sublist.subset), hst.seen,
    fun id l hl => hst.has id l (hin.has id l hl)⟩

private theorem enter (hst : Embedded source first top E f h)
    (hscope : scope.Seen first top) : Embedded source first top (scope :: E) f h :=
  { hst with seen := List.forall_mem_cons.mpr ⟨hscope, hst.seen⟩ }

private theorem left (hst : Embedded source first top E (f ++ g) (h ++ k)) (hk : k.Stems first g) :
    Embedded source first top E f h :=
  hst.focus .left fun hp => hp.left (hk.apart_left hst.old)

private theorem right (hst : Embedded source first top E (f ++ g) (h ++ k)) (hh : h.Stems first f)
    (htidy : h.Tidy first True) : Embedded source first top E g k :=
  hst.focus .right fun hp => hp.right (hh.apart_right hst.old) htidy

/-- The node that the children are below in the end may be a new one. -/
theorem below (hst : Embedded source first top E (.cons id l kids rest) (.cons id' l' hk hr))
    (hid : id' = id ∨ first ≤ id'.index) (hr : hr.Stems first rest) :
    Embedded source first top E kids hk := by
  refine hst.focus .below fun hp =>
    hp.below ?_ (hr.apart hst.old.cons.2.1 hst.old.cons_disjoint.2.2)
  rcases hid with rfl | hnew
  · exact hst.old.cons_disjoint.1
  · exact hst.old.cons.2.1.not_mem_of_new hnew

private theorem behind (hst : Embedded source first top E (.cons id l kids rest)
    (.cons id l' hk hr)) (hkids : hk.Stems first kids) : Embedded source first top E rest hr :=
  right (f := .tree id l kids) (h := .tree id l' hk) hst (.cons hkids (stems_self _))
    (not_isStep_of_lt hst.old.cons.1)

private theorem children (hst : Embedded source first top E (.tree id l kids) (.tree id l' hk)) :
    Embedded source first top E kids hk :=
  hst.below (.inl rfl) (stems_self _)

private theorem next (hst : Embedded source first top E (.cons id l .nil rest)
    (.cons id l' .nil hr)) :
    Embedded source first top E rest hr :=
  hst.behind (stems_self _)

end Embedded

/-! ## Places in lowered forests -/

/-- Jumps and labels of the forest have become what the scopes around it say. -/
def Forest.PlacesSettled (f : Forest) (source : NodeId → Node → Prop) (first : Nat) (top : Forest)
    (E : List Scope) : Prop :=
  ∀ m ∈ f.mentions [] (E.map Scope.enclosure) none, m.Settled source first top

namespace Forest.PlacesSettled

private theorem nil : Forest.nil.PlacesSettled source first top E := fun m hm => by cases hm

private theorem append (hclosed : f.isClosed) (hf : f.PlacesSettled source first top E)
    (hg : g.PlacesSettled source first top E) : (f ++ g).PlacesSettled source first top E := by
  rw [PlacesSettled, mentions_append hclosed _ (.inl rfl) (by simp)]
  exact List.forall_mem_append.mpr ⟨hf, hg⟩

private theorem cons (hkind : l.kind ≠ .label)
    (htree : (Forest.tree id l kids).PlacesSettled source first top E)
    (hrest : rest.PlacesSettled source first top E) :
    (Forest.cons id l kids rest).PlacesSettled source first top E := by
  rw [PlacesSettled, mentions_node hkind (by simp)]
  exact List.forall_mem_append.mpr ⟨htree, hrest⟩

private theorem tree (hkind : l.kind.isTransparent)
    (hkids : kids.PlacesSettled source first top E) :
    (Forest.tree id l kids).PlacesSettled source first top E := by
  rw [PlacesSettled, mentions_transparent hkind]
  exact hkids

private theorem leaf (hkind : l.kind.isTransparent) :
    (Forest.leaf id l).PlacesSettled source first top E := tree hkind nil

/-! Nodes that open a scope for their children. -/

private theorem switch (hkind : l.kind = .switch)
    (hkids : kids.PlacesSettled source first top (.switch id stop :: E)) :
    (Forest.tree id l kids).PlacesSettled source first top E := by
  rw [PlacesSettled, mentions_switch hkind]
  exact hkids

private theorem withBody (hkind : l.kind = .withBody)
    (hkids : kids.PlacesSettled source first top (.withBody id leave :: E)) :
    (Forest.tree id l kids).PlacesSettled source first top E := by
  rw [PlacesSettled, mentions_withBody hkind]
  exact hkids

private theorem loop (hkind : l.kind = .loop)
    (htarget : l.target? = some stop) (hcontinue : l.continueTarget? = some continueTo)
    (hkids : kids.PlacesSettled source first top (.loop id stop continueTo :: E)) :
    (Forest.tree id l kids).PlacesSettled source first top E := by
  rw [PlacesSettled, mentions_loop hkind, htarget, hcontinue]
  exact hkids

end Forest.PlacesSettled

/-- What a forest is lowered to settles its places, wherever it is embedded. -/
def Settles (source : NodeId → Node → Prop) (first : Nat) (top : Forest) (E : List Scope)
    (f h : Forest) : Prop :=
  Embedded source first top E f h → f.PlacesSettled source first top E

namespace Lowered

variable {form' : Form} {w' : Nat} {past' : Bool} {events' : List Event}

/-- A switch ends behind its clauses. -/
theorem settles_switch {selector clauses hs hc : Forest} (hkind : l.kind = .switch)
    (hnew : site.first ≤ stop.index) (hselector : Lowered site inner form w past selector hs events)
    (hclauses : Lowered site inner form' w' past' clauses hc events')
    (ihs : Settles source site.first top (.switch id stop :: E) selector hs)
    (ihc : Settles source site.first top (.switch id stop :: E) clauses hc) :
    Settles source site.first top E (.tree id l (selector ++ clauses))
      (.cons id (l.withStop (some stop)) hs (hc ++ .leaf stop (.ofKind .target))) := by
  intro hst
  obtain ⟨-, hkids, -⟩ := hst.old.cons
  have hid := hst.old.cons_disjoint.1
  have hinside : Embedded source site.first top (.switch id stop :: E)
      (.tree id l (selector ++ clauses))
      (.cons id (l.withStop (some stop)) hs (hc ++ .leaf stop (.ofKind .target))) :=
    hst.enter ⟨l.withStop (some stop), hs, hc, hkind, rfl, hst.part.widen⟩
  have hbehind : (hc ++ .leaf stop (.ofKind .target)).Stems site.first (clauses ++ .nil) :=
    .append (hclauses.stems hkids.append.2) (stems_new hnew)
  rw [append_nil] at hbehind
  refine .switch hkind (.append hselector.isClosed (ihs ?_) (ihc ?_))
  · exact hinside.focus (.trans .left .below) fun hp =>
      hp.below (fun hin => hid (by simp [hin])) (hbehind.apart_left hkids)
  · refine hinside.focus (.trans .right .below) fun hp =>
      (hp.behind (fun hin => hid (by simp [hin]))
        ((hselector.stems hkids.append.1).apart_right hkids)
        (not_isStep_of_lt hst.old.cons.1)).left ?_
    exact (stems_new hnew).apart (f := .nil) hkids.append.2 (by simp)

/-- A loop ends at its last child. -/
theorem settles_loop (hkind : l.kind = .loop) (hdata : l.data = .jump j)
    (htarget : j.target = some stop) (hcontinue : j.continueTarget = some continueTo)
    (hstop : ls.kind = .target) (hbody : Lowered site inner form w past body hb events)
    (ih : Settles source site.first top (.loop id stop continueTo :: E) body hb) :
    Settles source site.first top E (.tree id l (body ++ .leaf stop ls))
      (.tree id l (hb ++ .leaf stop ls)) := by
  intro hst
  exact .loop hkind (by simp [target?, jump?, hdata, htarget])
    (by simp [continueTarget?, jump?, hdata, hcontinue])
    (.append hbody.isClosed (ih (.enter (hst.children.left (stems_self _)) trivial))
      (.leaf (hstop ▸ rfl)))

/-- The guarded part of a try is inside its scope, and the final part behind it is not. -/
theorem settles_tryFinally {guarded hg final hf : Forest} {entry back : NodeId} {lb : Node}
    (hkind : l.kind = .tryStmt) (hdata : l.data = .jump j) (hfinally : j.finallyTarget = some entry)
    (hguarded : Lowered site inner form w past guarded hg events) (hentry : le.kind = .target)
    (hfinal : Lowered site E form' w' past' final hf events') (hback : lb.kind = .retsub)
    (hstop : ls.kind = .target)
    (ihg : Settles source site.first top (.guarded id entry :: E) guarded hg)
    (ihf : Settles source site.first top E final hf) :
    Settles source site.first top E
      (.tree id l (guarded ++ .cons entry le .nil (final ++ .cons back lb .nil (.leaf stop ls))))
      (.tree id l (hg ++ .cons entry le .nil (hf ++ .cons back lb .nil (.leaf stop ls)))) := by
  intro hst
  have hkids := hst.children
  obtain ⟨hgold, hrest⟩ := hkids.old.append
  have hfold := hrest.cons.2.2.append.1
  have hsome : l.finallyTarget? = some entry := (finallyTarget?_eq hkind hdata).trans hfinally
  rw [Forest.PlacesSettled, mentions_try hkind, hsome, Option.map_some,
    mentions_append hguarded.isClosed _ (.inl rfl)
      (by simpa using hkids.old.not_mem_roots), mentions_later]
  refine List.forall_mem_append.mpr ⟨ihg (.enter (hkids.left ?_) trivial), ?_⟩
  · exact .cons (stems_self _) (.append (hfinal.stems hfold) (stems_self _))
  · exact Forest.PlacesSettled.cons (by simp [hentry]) (.leaf (hentry ▸ rfl))
      (.append hfinal.isClosed
        (ihf ((hkids.right (hguarded.stems hgold) (hguarded.tidy hgold)).next.left (stems_self _)))
        (.cons (by simp [hback]) (.leaf (hback ▸ rfl)) (.leaf (hstop ▸ rfl))))

/-- The body of a with statement is inside its scope, and what is around it is not. -/
theorem settles_withScope {enter : NodeId} {lv : Node} {object ho : Forest}
    {scopes' scopes'' : List Scope} {form'' : Form} {w'' : Nat} {past'' : Bool}
    {events'' : List Event} (henter : le.kind = .enterWith) (hinner : l.kind = .withBody)
    (hleave : lv.kind = .leaveWith) (hobject : Lowered site inner form w past object ho events)
    (hbody : Lowered site scopes' form' w' past' body hb events')
    (hrest : Lowered site scopes'' form'' w'' past'' rest hr events'')
    (iho : Settles source site.first top E object ho)
    (ihb : Settles source site.first top (.withBody id leave :: E) body hb)
    (ihr : Settles source site.first top E rest hr) :
    Settles source site.first top E
      (.cons enter le object (.cons id l body (.cons leave lv .nil rest)))
      (.cons enter le ho (.cons id l hb (.cons leave lv .nil hr))) := by
  intro hst
  obtain ⟨-, hobjectOld, hnext⟩ := hst.old.cons
  obtain ⟨-, hbodyOld, hlast⟩ := hnext.cons
  have hend : (Forest.cons leave lv .nil hr).Stems site.first (.cons leave lv .nil rest) :=
    .cons (stems_self _) (hrest.stems hlast.cons.2.2)
  have hbehind := hst.behind (hobject.stems hobjectOld)
  exact .cons (by simp [henter])
    (.tree (henter ▸ rfl) (iho (hst.below (.inl rfl) (.cons (hbody.stems hbodyOld) hend))))
    (.cons (by simp [hinner])
      (.withBody hinner (ihb (.enter (hbehind.below (.inl rfl) hend) trivial)))
      (.cons (by simp [hleave]) (.leaf (hleave ▸ rfl))
        (ihr (hbehind.behind (hbody.stems hbodyOld)).next)))

/-- A statement behind its labels. -/
theorem settles_labelled {complaints : List Event}
    (hopen : LabelsOpen stop (kids.continueOf l) E labels inner front complaints)
    (hnew : inner ≠ E → site.first ≤ stop.index) (hkind : l.kind ≠ .label)
    (hone : Lowered site inner form w past (.tree id l kids) h events)
    (hrest : Lowered site E form' w' past' rest hr events')
    (iho : Settles source site.first top inner (.tree id l kids) h)
    (ihr : Settles source site.first top E rest hr) :
    Settles source site.first top E (labelForest labels ++ .cons id l kids rest)
      (front ++ (h ++ ((if inner = E then .nil else .leaf stop (.ofKind .target)) ++ hr))) := by
  intro hst
  have hstatement : (Forest.tree id l kids ++ rest).Old site.first := hst.old.append.2
  have hsources : ∀ a ∈ labels, source a.id a.node := fun a ha =>
    hst.has _ _ (has_append.mpr (.inl (has_labelForest ha)))
  have hstop := stems_target (l := .ofKind .target) hnew
  have hone' := hone.stems hstatement.append.1
  have hbehind : Embedded source site.first top E (.tree id l kids ++ rest)
      (h ++ ((if inner = E then .nil else .leaf stop (.ofKind .target)) ++ hr)) :=
    hst.right hopen.stems hopen.tidy
  -- Nothing of the statement is behind the target.
  have hrun : Embedded source site.first top E (labelForest labels ++ .tree id l kids)
      (front ++ (h ++ if inner = E then .nil else .leaf stop (.ofKind .target))) :=
    Embedded.left (g := rest) (k := hr) (by simpa using hst) (hrest.stems hstatement.append.2)
  have hafter : Embedded source site.first top E rest hr :=
    .right (f := .nil) (hbehind.right hone' (hone.tidy hstatement.append.1)) hstop tidy_target
  have hinside : Embedded source site.first top inner (.tree id l kids) h :=
    { hbehind.left (hstop.append (hrest.stems hstatement.append.2)) with
      seen := hopen.seen hst.seen fun _ _ hl => hrun.part.has (has_append.mpr (.inl hl)) }
  have hids : ∀ x ∈ (Forest.tree id l kids).ids,
      x.index < site.first ∧ x ∉ labels.map LabelNode.id ∧ (inner ≠ E → x ≠ stop) := by
    intro x hx
    refine ⟨hinside.old.2 x hx, fun hin => ?_, fun hne heq => ?_⟩
    · exact hrun.old.disjoint x (mem_labelForest hin) hx
    · exact hinside.old.not_mem_of_new (hnew hne) (heq ▸ hx)
  obtain ⟨pending, hpending, hall⟩ := hopen.settled (g := .cons id l kids rest) hsources
    (by simp [Forest.labelled, hkind]) (List.nil_append _) hids fun hne => by
      simpa only [if_neg hne] using hrun.part.narrow Forest.Inside.right.sublist.subset
  intro m hm
  rcases hall m hm with hm | hm
  · rw [mentions_node hkind (by simp), hpending] at hm
    rcases List.mem_append.mp hm with hm | hm
    exacts [iho hinside m hm, ihr hafter m hm]
  · exact hm

/-- Jumps and labels in a lowered forest are as what is around them says. The induction goes down to
the parts of the forest. -/
theorem settled (hlow : Lowered site E form w past f h events)
    (hst : Embedded source site.first top E f h) : f.PlacesSettled source site.first top E := by
  induction hlow with
  | plain hkind _ _ _ ih => exact .tree (Token.isTransparent_of_isKept hkind) (ih hst.children)
  | ret hkind => exact .leaf (hkind ▸ rfl)
  | deleteName hkind hbind hkey =>
    exact .tree (hkind ▸ rfl)
      (.cons (by simp [hbind]) (.leaf (hbind ▸ rfl)) (.leaf (hkey ▸ rfl)))
  | function hkind hdata =>
    intro m hm
    rw [mentions_tree (by simp [hkind])] at hm
    obtain rfl : m = .function _ := by simpa [mention?, hkind, hdata, mentions] using hm
    trivial
  | var hkind hnew _ _ ih => exact .tree (hkind ▸ rfl) (ih (hst.below (.inr hnew) (stems_self _)))
  | retValue hkind _ _ _ ih => exact .tree (hkind ▸ rfl) (ih (hst.children))
  | retLater hkind _ _ _ _ hnew hblock hstore hback ih =>
    -- The value is stored, before the steps and the return.
    have hstored := hst.below (.inr hblock) (stems_self _)
    exact .tree (hkind ▸ rfl) (ih (hstored.focus (.refl _) fun hp =>
      hp.below (hstored.old.not_mem_of_new hstore) (Stems.apart (f := .nil ++ .nil)
        (.append (stems_leaves hnew) (stems_new hback)) hstored.old (by simp))))
  | @jump E inner dest outer w past id l j name label target steps hkind _ hname hscopes hinner
      hdest htarget hsteps hnew =>
    intro m hm
    rw [mentions_jump hkind hname] at hm
    obtain rfl := List.mem_singleton.mp hm
    exact ⟨E, rfl, hst.seen, .inl ⟨inner, dest, outer, target, steps, _, hscopes, hinner, hdest,
      htarget, rfl, rfl, hsteps, hnew, hst.part.widen⟩⟩
  | @lost E w past id l j name label hkind _ hname hnone =>
    intro m hm
    rw [mentions_jump hkind hname] at hm
    obtain rfl := List.mem_singleton.mp hm
    refine ⟨E, rfl, hst.seen, .inr ⟨?_, _, rfl, hst.part.has (.inl ⟨rfl, rfl⟩)⟩⟩
    rw [jumpError?_scopes, if_pos hnone]
    rfl
  | switch hkind _ hnew hselector hclauses ihs ihc =>
    exact settles_switch hkind hnew hselector hclauses ihs ihc hst
  | loop hkind hdata htarget hcontinue _ hbody hstop _ ih =>
    exact settles_loop hkind hdata htarget hcontinue hstop hbody ih hst
  | tryCatch hkind hdata hfinally _ ih =>
    have hnone : Node.finallyTarget? _ = none := (finallyTarget?_eq hkind hdata).trans hfinally
    rw [Forest.PlacesSettled, mentions_try hkind, hnone]
    exact ih (hst.children)
  | tryFinally hkind hdata hfinally hguarded hentry _ hfinal hback hstop _ ihg ihf =>
    exact settles_tryFinally hkind hdata hfinally hguarded hentry hfinal hback hstop ihg ihf hst
  | nil | declNil => exact .nil
  | target hkind _ _ ih =>
    exact .cons (by simp [hkind]) (.leaf (hkind ▸ rfl)) (ih (hst.next))
  | @labelled E inner w past labels id l kids rest front h stop hr complaints events events'
      hopen hnew hone hrest iho ihr =>
    have hkind := Token.ne_of_test hone.single_tree (m := .label) rfl
    exact settles_labelled hopen hnew hkind hone hrest iho ihr hst
  | withScope henter hobject hinner hbody hleave hrest iho ihb ihr =>
    exact settles_withScope henter hinner hleave hobject hbody hrest iho ihb ihr hst
  | exit hleave hskip _ _ _ ih =>
    have hnext := hst.next
    exact .cons (by simp [hleave]) (.leaf (hleave ▸ rfl)) (.cons (by simp [hskip])
      (.leaf (hskip ▸ rfl)) (ih (hnext.next)))
  | decl hkind _ ih =>
    exact .cons (by simp [hkind]) (.leaf (hkind ▸ rfl)) (ih (hst.focus .behind fun hp => hp))
  | declInit hkind hpop hassign hinit hrest ihi ihr =>
    obtain ⟨-, hfirst, hlater⟩ := hst.old.cons
    obtain ⟨hid, hid', hoff⟩ := hst.old.cons_disjoint
    refine .cons (by simp [hkind]) (.tree (hkind ▸ rfl) (ihi ?_)) (ihr ?_)
    · -- The value is assigned below two new nodes, behind the name.
      have hassigned := hst.below (.inr hpop) (hrest.stems hlater)
      exact hassigned.focus (.refl _) fun hp => (hp.below (hfirst.not_mem_of_new hassign)
        (by simp)).behind hid (by simp) (not_isStep_of_lt hst.old.cons.1)
    · refine hst.focus .behind fun hp => hp.behind (hlater.not_mem_of_new hpop) (fun x hx => ?_)
        (not_isStep_of_kind (by simp) (by simp))
      simp only [ids_cons, ids_nil, List.nil_append, List.append_nil,
        List.mem_cons] at hx
      rcases hx with rfl | rfl | hx
      · exact hlater.not_mem_of_new hassign
      · exact hid'
      · exact (hinit.stems hfirst).apart hlater (fun x hr hi => hoff x hi hr) x hx

end Lowered

/-! ## Accesses by slot -/

section

variable {rules : SlotRules} {p : NodeId} {changes : List SlotChange} {cut : Forest}

private theorem Scope.Seen.slotted (hseen : scope.Seen first h)
    (hs : Slotted rules p changes cut h k) (hready : h.All (Node.Ready limits)) :
    scope.Seen first k := by
  cases scope with
  | loop | withBody | guarded => trivial
  | switch node stop =>
    obtain ⟨l, selector, clauses, hkind, htarget, hpart⟩ := hseen
    have hfirm : l.kind.isFirm := hkind ▸ rfl
    obtain ⟨_, _, _, g, hg, hpart'⟩ := hs.part hready (fun _ _ => trivial) hpart hfirm
    obtain ⟨_, _, _, _, selector', rest, rfl, -, hrest⟩ := hg.firm_inv hfirm
    obtain ⟨clauses', end', _, _, _, _, rfl, -, hend⟩ := hrest.append_inv
    obtain ⟨_, _, _, _, kids, more, rfl, hkids, hmore⟩ := hend.firm_inv rfl
    rw [hkids.nil_inv.2.2, hmore.nil_inv.2.2] at hpart'
    exact ⟨l, selector', clauses', hkind, htarget, hpart'⟩
  | label node name stop continueTo =>
    obtain ⟨l, hkind, htarget, hhas⟩ := hseen
    exact ⟨l, hkind, htarget, hs.has hready hhas (hkind ▸ rfl)⟩

/-- Steps are no accesses. -/
theorem Scope.isFirm_steps (hsteps : steps.map Prod.snd = E.filterMap Scope.step?) :
    ∀ step ∈ steps, step.2.kind.isFirm := by
  intro step hin
  rcases Scope.kind_of_steps hsteps step hin with hk | hk <;> rw [hk] <;> rfl

/-- Accesses by slot do not change what is settled. -/
theorem Mention.Settled.slotted {m : Mention} (hm : m.Settled source rules.first h)
    (hs : Slotted rules p changes cut h k) (hready : h.All (Node.Ready limits)) :
    m.Settled source rules.first k := by
  cases m with
  | function => trivial
  | jump id line isBreak name around =>
    obtain ⟨scopes, haround, hseen, hcase⟩ := hm
    refine ⟨scopes, haround, fun scope hin => (hseen scope hin).slotted hs hready, ?_⟩
    rcases hcase with ⟨inner, dest, outer, target, steps, l, hscopes, hinner, hdest, htarget, hkind,
      hl, hsteps, hnew, hpart⟩ | ⟨herror, l, hkind, hhas⟩
    · refine .inl ⟨inner, dest, outer, target, steps, l, hscopes, hinner, hdest, htarget, hkind, hl,
        hsteps, hnew, ?_⟩
      have hrun : Forest.leaves steps ++ .leaf id l = .leaves (steps ++ [(id, l)]) := by
        rw [leaves_append]
        rfl
      have hfirm : ∀ x ∈ steps ++ [(id, l)], x.2.kind.isFirm := by
        intro x hx
        rcases List.mem_append.mp hx with hx | hx
        · exact Scope.isFirm_steps hsteps x hx
        · obtain rfl := List.mem_singleton.mp hx
          exact hkind ▸ rfl
      have hhead : (Forest.leaves (steps ++ [(id, l)])).isFirm := by
        cases steps with
        | nil => exact hfirm (id, l) (by simp)
        | cons step steps => exact hfirm step (by simp)
      rw [hrun] at hpart ⊢
      obtain ⟨_, _, _, g, hg, hpart'⟩ := hs.part hready (fun _ _ => trivial) hpart hhead
      rwa [hg.leaves_inv hfirm] at hpart'
    · exact .inr ⟨herror, l, hkind, hs.has hready hhas (hkind ▸ rfl)⟩
  | label id line name around before =>
    intro hnone
    obtain ⟨l, stack, body, stop, hkind, htarget, hstack, hlabels, hnodes, -, hpart⟩ := hm hnone
    have hfirm : l.kind.isFirm := hkind ▸ rfl
    obtain ⟨_, _, _, g, hg, hpart'⟩ := hs.part hready
      (fun x hx hin => Nat.not_lt.mpr hx (hnodes x hin).1) hpart hfirm
    obtain ⟨_, _, _, _, kids, rest, rfl, hkids, hrest⟩ := hg.firm_inv hfirm
    obtain ⟨stack', rest', _, _, _, _, rfl, hstack', hrest'⟩ := hrest.append_inv
    obtain ⟨body', end', _, _, _, _, rfl, -, hend⟩ := hrest'.append_inv
    rw [hkids.nil_inv.2.2, hstack'.leaves_inv fun a ha => (hlabels a ha).1 ▸ rfl,
      hend.leaf_inv rfl] at hpart'
    exact ⟨l, stack, body', stop, hkind, htarget, hstack, hlabels, hnodes,
      hpart'.mem_body fun x hx => hstack ▸ (hnodes x hx).2, hpart'⟩

end

/-! ## All jumps -/

/-- There are only operands among operands and below them. -/
theorem Forest.Placed.isOperand_has (h : f.Placed limits Token.isOperand Token.isOperand)
    (hhas : f.Has id l) : l.kind.isOperand := by
  induction f with
  | nil => exact hhas.elim
  | cons _ _ kids rest ihk ihr =>
    obtain ⟨hkind, -, hkids, hrest⟩ := h
    rw [Token.headBelow_of_isOperand hkind, Token.tailBelow_of_isOperand hkind] at hkids
    rcases hhas with ⟨-, rfl⟩ | hin | hin
    exacts [hkind, ihk hkids hin, ihr hrest hin]

private theorem Node.mention?_jump (hkind : l.kind = .breakStmt ∨ l.kind = .continueStmt)
    (id : NodeId) (kids : Forest) (around : List Enclosure) :
    l.mention? id kids around =
      some (.jump id l.line (l.kind = .breakStmt) kids.headText? around) := by
  rcases hkind with hk | hk <;> simp [mention?, hk]

/-- Every jump of a forest is mentioned. -/
theorem Forest.exists_mention {head tail : Token → Bool} (hf : f.Placed limits head tail)
    (hhas : f.Has id l) (hkind : l.kind = .breakStmt ∨ l.kind = .continueStmt)
    (labels outer : List Enclosure) (later : Option (NodeId × List Enclosure)) :
    ∃ name around,
      .jump id l.line (l.kind = .breakStmt) name around ∈ f.mentions labels outer later := by
  induction f generalizing head tail labels outer later with
  | nil => exact hhas.elim
  | cons id' l' kids rest ihk ihr =>
    obtain ⟨-, -, hkids, hrest⟩ := hf
    rw [mentions]
    dsimp only
    by_cases hlabel : l'.kind = .label
    · -- Below a label is its name, and no statement.
      rw [if_pos hlabel]
      rcases hhas with ⟨-, rfl⟩ | hk | hr
      · simp [hlabel] at hkind
      · rw [hlabel] at hkids
        have hoperand := Placed.isOperand_has hkids hk
        rcases hkind with hkind | hkind <;> (rw [hkind] at hoperand; cases hoperand)
      · obtain ⟨name, around, hin⟩ := ihr hrest hr _ _ _
        exact ⟨name, around, List.mem_cons_of_mem _ hin⟩
    · rw [if_neg hlabel]
      rcases hhas with ⟨rfl, rfl⟩ | hk | hr
      · exact ⟨_, _, List.mem_append_left _
          (Option.mem_toList.mpr (mention?_jump hkind id' kids _))⟩
      · obtain ⟨name, around, hin⟩ := ihk hkids hk _ _ _
        exact ⟨name, around, List.mem_append_right _ (List.mem_append_left _ hin)⟩
      · obtain ⟨name, around, hin⟩ := ihr hrest hr _ _ _
        exact ⟨name, around, List.mem_append_right _ (List.mem_append_right _ hin)⟩

/-! ## Programs -/

namespace Layout

variable {L : Layout} {config : Config} {s : LoweringState} {j : BodyId}

/-- The jumps and labels of a body that is lowered are settled in its statements. -/
theorem Done.settled (hs : L.Sound s) (hd : L.Done config s j first) (hj : j.index < L.size) :
    ∀ m ∈ (L.kids j).mentions [] [] none,
      m.Settled (L.kids j).Has L.nodeCount (s.program.statements j) := by
  obtain ⟨h, events, changes, cut, hlow, hslotted⟩ := hd.exists_slotted hs
  have hold : (L.kids j).Old (L.site config j).first :=
    ⟨kids_nodup hj, fun q hq => kids_lt hj hq⟩
  have hsettled := hlow.settled ⟨hold, h.part_self trivial, by simp, fun _ _ hl => hl⟩
  exact fun m hm => (hsettled m hm).slotted hslotted (hlow.ready (L.fits j))

end Layout

/-- Where jumps lead in a lowered program. Every break and continue of a body is mentioned with the
statements around it. If one of them is a destination, the jump has become a goto to the target of
the nearest one, directly behind steps that leave the with statements and guarded parts inside that
one, innermost first, and behind no others; else it does nothing. The break target of a label stands
behind all of the statement that it is in front of, and that of a switch behind its clauses. -/
theorem jumps_reach_destinations {script : Document.Script} {fallback : Option String} {p : Program}
    (hops : script.usesOperators) (hbuild : Document.build script fallback = .ok (.ok p))
    (config : Config) :
    ∃ p' diagnostics, p.lower config = .ok (p', diagnostics) ∧
      ∀ j : BodyId, j.index < p.bodies.size →
        (∃ l, p'.tree.Stands (.tree (p.body j).root l (p'.statements j))) ∧
        (∀ id l, (p.statements j).Has id l → l.kind = .breakStmt ∨ l.kind = .continueStmt →
          ∃ name around, .jump id l.line (l.kind = .breakStmt) name around ∈
            (p.statements j).mentions [] [] none) ∧
        ∀ m ∈ (p.statements j).mentions [] [] none,
          m.Settled (p.statements j).Has p.tree.size (p'.statements j) := by
  have hframed := (Document.build_framed hops hbuild).1
  obtain ⟨L, rfl⟩ := hframed.exists_layout
  obtain ⟨s, hlower, hs, hdone, -⟩ := L.lower_eq config
  refine ⟨s.program, s.diagnostics, hlower, fun j hj => ?_⟩
  have hst := (hdone j hj).stands hs
  refine ⟨⟨_, hst⟩, fun id l hhas hkind => ?_, L.statements_eq hj ▸ (hdone j hj).settled hs hj⟩
  exact Forest.exists_mention (hframed.placed hj) hhas hkind [] [] none

/-- A break to the label of a loop, out of the guarded part of a try in a with statement in it. Four
statements are around the jump. -/
theorem jumps_reach_destinations_of_label :
    let script : Document.Script := ⟨none, [.labelled "out" (.whileLoop (.name "x")
      (.withScope (.name "o") (.tryCatch [.breakTo (some "out") 4] []
        (some [.expr (.call (.name "f") []) 5]) 3) 2) 1) 1], 6⟩
    ∃ p p' diagnostics, script.usesOperators = true ∧ Document.build script none = .ok (.ok p) ∧
      p.lower {} = .ok (p', diagnostics) ∧
      ∃ id line scopes, scopes.length = 4 ∧
        .jump id line true (some "out") (scopes.map Scope.enclosure) ∈
          (p.statements ⟨0⟩).mentions [] [] none ∧
        Mention.Leads p.tree.size (p'.statements ⟨0⟩) id true (some "out") scopes := by
  intro script
  have hops : script.usesOperators = true := by decide
  let around : List Enclosure := [.guarded ⟨12⟩ ⟨13⟩, .withBody ⟨20⟩,
    .loop ⟨26⟩ (some ⟨25⟩) (some ⟨23⟩), .label ⟨1⟩ "out" (some ⟨23⟩)]
  have hmade : Document.buildsTo script none (fun p => decide (0 < p.bodies.size ∧
      .jump ⟨5⟩ (some 4) true (some "out") around ∈
        (p.statements ⟨0⟩).mentions [] [] none)) = true := by
    decide +kernel
  obtain ⟨p, hbuild, htest⟩ := Document.exists_buildsTo hmade
  obtain ⟨hsize, hm⟩ := of_decide_eq_true htest
  obtain ⟨p', diagnostics, hlower, hall⟩ := jumps_reach_destinations hops hbuild {}
  obtain ⟨scopes, haround, -, hleads | ⟨hsome, -⟩⟩ := (hall ⟨0⟩ hsize).2.2 _ hm
  · have hlen : scopes.length = 4 := by simpa [around] using (congrArg List.length haround).symm
    rw [haround] at hm
    exact ⟨p, p', diagnostics, hops, hbuild, hlower, ⟨5⟩, some 4, scopes, hlen, hm, hleads⟩
  · exact absurd hsome (by decide)

end ScriptEngine
