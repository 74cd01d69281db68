import ScriptEngine.Proofs.CallRecords
import ScriptEngine.Proofs.CodedTrees

/-!
# Variables and their slots

`Forest.bySlots` turns the accesses to the variables of a table into accesses by their slots, all of
them at once. Lowering does this node by node, while it does not know yet whether the body needs an
activation record. In the end a body has all its accesses by slot or none.
-/

namespace ScriptEngine

open Node

variable {vars : VariableTable} {slot first : Nat} {name : String} {id : NodeId} {l : Node}
  {kids rest f h : Forest} {constant : NodeId → NodeId} {limits : Limits} {L : Layout}
  {config : Config} {s : LoweringState} {j : BodyId}

/-- A slot stands for a variable: it is the place of the name, the last one if there are several. -/
structure VariableTable.StandsFor (vars : VariableTable) (slot : Nat) (name : String) : Prop where
  get?_eq : vars.get? name = some slot
  lt_size : slot < vars.size
  name_eq : vars.names[slot]? = some name
  last : ∀ i, slot < i → vars.names[i]? ≠ some name

private theorem VariableTable.standsFor
    (h : vars.get? name = some slot) : vars.StandsFor slot name :=
  ⟨h, get?_lt h, getElem?_of_get? h, (get?_eq_some_iff.mp h).2⟩

/-! ## Deletions -/

namespace Forest

/-- The deletions in a forest, in preorder: their nodes, and the variable that each one deletes,
if it deletes one by its name. -/
def deletions : Forest → List (NodeId × Node × Option String)
  | .nil => []
  | .cons id l kids rest =>
    (if l.kind = .delProp then [(id, l, l.accessed? kids)] else []) ++
      (kids.deletions ++ rest.deletions)

@[simp] theorem deletions_nil : Forest.nil.deletions = [] := rfl

private theorem deletions_cons (hkind : l.kind ≠ .delProp) :
    (Forest.cons id l kids rest).deletions = kids.deletions ++ rest.deletions := by
  rw [deletions, if_neg hkind, List.nil_append]

/-- Deletions are nodes of the forest. -/
theorem deletions_sublist_ids (f : Forest) : (f.deletions.map Prod.fst).Sublist f.ids := by
  induction f with
  | nil => exact .slnil
  | cons id l kids rest ihk ihr =>
    have hboth := ihk.append ihr
    rw [ids_cons, deletions]
    split
    · simpa using hboth.cons_cons id
    · simpa using hboth.cons id

end Forest

/-! ## All accesses at once -/

/-- An access by slot in the place of one by name. -/
def Node.bySlot (l : Node) (kind : Token) (slot : Nat) : Node :=
  (l.withKind kind).withAttr .varIndex (.int slot)

/-- A bound name is no access by itself. -/
theorem Node.bindName_free (kids : Forest)
    (hkind : l.kind = .bindName) : (l.accessed? kids).bind vars.get? = none := by
  rw [accessed?_eq_none kids (by simp [hkind])]
  rfl

namespace Forest

/-- Changes the label of the first of the siblings. -/
def mapHead (f : Node → Node) : Forest → Forest
  | .nil => .nil
  | .cons id l kids rest => .cons id (f l) kids rest

/-- Accesses the variables of a table by their slots. A read keeps its name, and a write keeps it as
a string below it. A deletion becomes a constant, which has its own node. -/
def bySlots (vars : VariableTable) (constant : NodeId → NodeId) : Forest → Forest
  | .nil => .nil
  | .cons id l kids rest =>
    match (l.accessed? kids).bind vars.get?, l.kind with
    | none, _ => .cons id l (kids.bySlots vars constant) (rest.bySlots vars constant)
    | some slot, .name =>
      .cons id (l.bySlot .getVar slot) (kids.bySlots vars constant) (rest.bySlots vars constant)
    | some slot, .setName =>
      .cons id (l.bySlot .setVar slot) ((kids.bySlots vars constant).mapHead (·.withKind .string))
        (rest.bySlots vars constant)
    | some _, _ =>
      .cons (constant id) (.ofKindAt .falseValue l.line) .nil (rest.bySlots vars constant)

variable {constant' : NodeId → NodeId}

/-- A node that accesses no local variable stays as it is. -/
theorem bySlots_keep (h : (l.accessed? kids).bind vars.get? = none) :
    (Forest.cons id l kids rest).bySlots vars constant =
      .cons id l (kids.bySlots vars constant) (rest.bySlots vars constant) := by
  rw [bySlots, h]

/-- A variable is read from its slot. -/
theorem bySlots_name (h : (l.accessed? kids).bind vars.get? = some slot) (hkind : l.kind = .name) :
    (Forest.cons id l kids rest).bySlots vars constant =
      .cons id (l.bySlot .getVar slot) (kids.bySlots vars constant)
        (rest.bySlots vars constant) := by
  rw [bySlots, h, hkind]

/-- A variable is written to its slot. -/
theorem bySlots_setName (h : (l.accessed? kids).bind vars.get? = some slot)
    (hkind : l.kind = .setName) :
    (Forest.cons id l kids rest).bySlots vars constant =
      .cons id (l.bySlot .setVar slot)
        ((kids.bySlots vars constant).mapHead (·.withKind .string))
        (rest.bySlots vars constant) := by
  rw [bySlots, h, hkind]

/-- Deleting a variable gives a constant. -/
theorem bySlots_delete (h : (l.accessed? kids).bind vars.get? = some slot)
    (hkind : l.kind = .delProp) :
    (Forest.cons id l kids rest).bySlots vars constant =
      .cons (constant id) (.ofKindAt .falseValue l.line) .nil (rest.bySlots vars constant) := by
  rw [bySlots, h, hkind]

/-- The kinds of nodes that access a variable. -/
theorem kind_of_accessed? (h : l.accessed? kids = some name) :
    l.kind = .name ∨ l.kind = .setName ∨ l.kind = .delProp := by
  unfold accessed? at h
  split at h <;> simp_all

/-- The constants that matter are those for deletions. -/
theorem bySlots_congr (h : ∀ q ∈ f.deletions.map Prod.fst, constant q = constant' q) :
    f.bySlots vars constant = f.bySlots vars constant' := by
  induction f with
  | nil => rfl
  | cons id l kids rest ihk ihr =>
    simp only [deletions, List.map_append, List.mem_append] at h
    have hkids := ihk fun q hq => h q (.inr (.inl hq))
    have hrest := ihr fun q hq => h q (.inr (.inr hq))
    cases haccess : (l.accessed? kids).bind vars.get? with
    | none => rw [bySlots_keep haccess, bySlots_keep haccess, hkids, hrest]
    | some slot =>
      obtain ⟨name, hname, -⟩ := Option.bind_eq_some_iff.mp haccess
      rcases kind_of_accessed? hname with hkind | hkind | hkind
      · rw [bySlots_name haccess hkind, bySlots_name haccess hkind, hkids, hrest]
      · rw [bySlots_setName haccess hkind, bySlots_setName haccess hkind, hkids, hrest]
      · rw [bySlots_delete haccess hkind, bySlots_delete haccess hkind, hrest,
          h id (.inl (by simp [hkind]))]

/-- Constants for some nodes, and others for the rest. -/
theorem exists_constants (own : List NodeId) (h : ∀ q, first ≤ (constant q).index)
    (h' : ∀ q, first ≤ (constant' q).index) :
    ∃ both : NodeId → NodeId, (∀ q, first ≤ (both q).index) ∧ (∀ q ∈ own, constant q = both q) ∧
      ∀ q, q ∉ own → constant' q = both q := by
  refine ⟨fun q => if q ∈ own then constant q else constant' q, fun q => ?_,
    fun q hq => (if_pos hq).symm, fun q hq => (if_neg hq).symm⟩
  show first ≤ (if q ∈ own then constant q else constant' q).index
  split
  · exact h q
  · exact h' q

end Forest

open Forest in
/-- Accesses by slot node by node come to the same as all at once, if all of them must be. -/
theorem Slotted.eq_bySlots {rules : SlotRules} {p : NodeId} {changes : List SlotChange}
    {cut k : Forest} (hs : Slotted rules p changes cut h k) (hmust : rules.must)
    (hnodup : (h.deletions.map Prod.fst).Nodup) :
    ∃ constant : NodeId → NodeId, (∀ q, rules.first ≤ (constant q).index) ∧
      k = h.bySlots rules.vars constant := by
  induction hs with
  | nil => exact ⟨fun _ => ⟨rules.first⟩, fun _ => Nat.le_refl _, rfl⟩
  | @keep p id l kids kids' rest rest' changes changes' cut cut' hkeep _ _ ihk ihr =>
    simp only [deletions, List.map_append, List.nodup_append, List.mem_append] at hnodup
    obtain ⟨-, ⟨hndk, hndr, hapart⟩, -⟩ := hnodup
    obtain ⟨c, hc, rfl⟩ := ihk hndk
    obtain ⟨c', hc', rfl⟩ := ihr hndr
    have hnone : (l.accessed? kids).bind rules.vars.get? = none := by
      cases haccess : l.accessed? kids with
      | none => rfl
      | some name => exact hkeep hmust name haccess
    -- A deletion is below this node or behind it, so it has its constant on one side.
    obtain ⟨both, hboth, hbelow, hbehind⟩ := exists_constants (kids.deletions.map Prod.fst) hc hc'
    refine ⟨both, hboth, ?_⟩
    rw [bySlots_keep hnone, bySlots_congr hbelow,
      bySlots_congr fun q hq => hbehind q fun hk => hapart q hk q hq rfl]
  | @getVar p id l slot rest rest' changes cut _ hkind _ hslot _ ih =>
    rw [deletions_cons (by simp [hkind]), deletions_nil, List.nil_append] at hnodup
    obtain ⟨c, hc, rfl⟩ := ih hnodup
    have haccess : (l.accessed? .nil).bind rules.vars.get? = some slot := by
      simp [accessed?, hkind, hslot]
    refine ⟨c, hc, ?_⟩
    rw [bySlots_name haccess hkind]
    rfl
  | @setVar p id l bind lb slot value value' rest rest' changes changes' cut cut' _ hkind _ hbind
      hslot _ _ ihv ihr =>
    rw [deletions_cons (by simp [hkind]), deletions_cons (by simp [hbind]), deletions_nil,
      List.nil_append, List.map_append, List.nodup_append] at hnodup
    obtain ⟨hndv, hndr, hapart⟩ := hnodup
    obtain ⟨c, hc, rfl⟩ := ihv hndv
    obtain ⟨c', hc', rfl⟩ := ihr hndr
    have haccess : (l.accessed? (.cons bind lb .nil value)).bind rules.vars.get? = some slot := by
      simp [accessed?, hkind, hbind, hslot]
    obtain ⟨both, hboth, hbelow, hbehind⟩ := exists_constants (value.deletions.map Prod.fst) hc hc'
    refine ⟨both, hboth, ?_⟩
    rw [bySlots_setName haccess hkind, bySlots_keep (bindName_free .nil hbind), mapHead,
      bySlots_congr hbelow, bySlots_congr fun q hq => hbehind q fun hv => hapart q hv q hq rfl]
    rfl
  | @deleted p id l bind lb more constant slot rest rest' changes cut _ hkind hbind hslot hnew _
      ih =>
    rw [deletions, if_pos hkind, List.singleton_append, List.map_cons, List.nodup_cons,
      List.map_append, List.nodup_append, List.mem_append] at hnodup
    obtain ⟨hself, -, hndr, -⟩ := hnodup
    obtain ⟨c, hc, rfl⟩ := ih hndr
    have haccess : (l.accessed? (.cons bind lb .nil more)).bind rules.vars.get? = some slot := by
      simp [accessed?, hkind, hbind, hslot]
    obtain ⟨both, hboth, hown, hbehind⟩ := exists_constants [id] (fun _ => hnew) hc
    refine ⟨both, hboth, ?_⟩
    rw [bySlots_delete haccess hkind, hown id (by simp), bySlots_congr fun q hq => hbehind q ?_]
    intro hq'
    rw [List.mem_singleton.mp hq'] at hq
    exact hself (.inr hq)

/-! ## What is left of names -/

/-- A node that knows nothing of slots. -/
structure Node.Unslotted (l : Node) : Prop where
  no_getVar : l.kind ≠ .getVar
  no_setVar : l.kind ≠ .setVar
  no_slot : l.attrs.get? .varIndex = none

private theorem Node.IsRoot.unslotted (h : l.IsRoot) : l.Unslotted :=
  ⟨fun hk => by simp [IsRoot, hk, Token.isRoot] at h,
    fun hk => by simp [IsRoot, hk, Token.isRoot] at h, h.2⟩

/-- A node in a body whose variables are all accessed by their slots. -/
structure Node.Resolved (vars : VariableTable) (l : Node) (kids : Forest) : Prop where
  getVar : l.kind = .getVar → ∃ name slot, l.string? = some name ∧ vars.StandsFor slot name ∧
    l.attrs.get? .varIndex = some (.int slot)
  setVar : l.kind = .setVar → ∃ first lf below value name slot, kids = .cons first lf below value ∧
    lf.kind = .string ∧ lf.string? = some name ∧ vars.StandsFor slot name ∧
    l.attrs.get? .varIndex = some (.int slot)
  named : ∀ name, l.accessed? kids = some name → name ∉ vars.names

private theorem Node.Ready.unslotted
    (h : l.Ready limits kids) : l.Unslotted := ⟨h.no_getVar, h.no_setVar, h.bears.no_slot⟩

/-- A node with something below it accesses a variable by its own name or by the one bound there. -/
theorem Node.accessed?_cons (l : Node) (b : NodeId) (lb : Node) (below value : Forest) :
    l.accessed? (.cons b lb below value) =
      if l.kind = .name then some (l.string?.getD "")
      else if (l.kind = .setName ∨ l.kind = .delProp) ∧ lb.kind = .bindName then
        some (lb.string?.getD "")
      else none := by
  unfold accessed?
  split
  · next hkind => simp [hkind]
  · next hkind heq => cases heq; simp [hkind]
  · next hkind heq => cases heq; simp [hkind]
  · next hname hset hdelete =>
    rw [if_neg hname, if_neg]
    rintro ⟨hkind | hkind, -⟩
    · exact hset b lb below value hkind rfl
    · exact hdelete b lb below value hkind rfl

/-- A deletion accesses no variable when none is bound below it. -/
theorem Node.accessed?_delete (hkind : l.kind = .delProp)
    (h : ¬ kids.bindsName) : l.accessed? kids = none := by
  cases kids with
  | nil => simp [accessed?, hkind]
  | cons b lb below value =>
    have hbind : lb.kind ≠ .bindName := by simpa [Forest.bindsName] using h
    simp [accessed?_cons, hkind, hbind]

/-- A node that is no name itself accesses the variable that is bound below it. -/
theorem Node.exists_bound (h : l.accessed? kids = some name) (hkind : l.kind ≠ .name) :
    ∃ b lb below value, kids = .cons b lb below value ∧
      lb.kind = .bindName ∧ name = lb.string?.getD "" := by
  cases kids with
  | nil =>
    unfold accessed? at h
    split at h <;> simp_all
  | cons b lb below value =>
    rw [accessed?_cons, if_neg hkind] at h
    split at h
    · next hcase => exact ⟨b, lb, below, value, rfl, hcase.2, (Option.some.inj h).symm⟩
    · cases h

/-- The label of a name holds it. -/
theorem Node.Bears.string?_eq {regexps : Nat} (h : l.Bears regexps)
    (hkind : l.kind = .name ∨ l.kind = .bindName) : l.string? = some (l.string?.getD "") := by
  have hcarries := h.carries
  rcases hkind with hk | hk <;>
  · rw [hk] at hcarries
    obtain ⟨name, hname⟩ := hcarries
    simp [string?, hname]

namespace Forest

/-- A node that stays accesses the same variable as before: the name below it stays too. -/
theorem accessed?_bySlots (l : Node) (kids : Forest) :
    l.accessed? (kids.bySlots vars constant) = l.accessed? kids := by
  cases kids with
  | nil => rfl
  | cons b lb below value =>
    by_cases hbind : lb.kind = .bindName
    · rw [bySlots_keep (bindName_free below hbind), accessed?_cons, accessed?_cons]
    · -- No change makes the first node a bound name.
      have hhead : ∃ b' lb' below' value', (Forest.cons b lb below value).bySlots vars constant =
          .cons b' lb' below' value' ∧ lb'.kind ≠ .bindName := by
        rw [bySlots]
        split
        · exact ⟨_, _, _, _, rfl, hbind⟩
        · exact ⟨_, _, _, _, rfl, by simp [bySlot, withKind, withAttr]⟩
        · exact ⟨_, _, _, _, rfl, by simp [bySlot, withKind, withAttr]⟩
        · exact ⟨_, _, _, _, rfl, by simp⟩
      obtain ⟨b', lb', below', value', heq, hne⟩ := hhead
      rw [heq, accessed?_cons, accessed?_cons]
      simp [hbind, hne]

/-- After all accesses by slot, slots stand for the names that they replace, and the names that are
left stand for no variable. -/
theorem resolved_bySlots (hready : f.All (Node.Ready limits)) :
    (f.bySlots vars constant).All (Node.Resolved vars) := by
  induction f with
  | nil => trivial
  | cons id l kids rest ihk ihr =>
    obtain ⟨hl, hkids, hrest⟩ := hready
    have ihk := ihk hkids
    have ihr := ihr hrest
    cases haccess : (l.accessed? kids).bind vars.get? with
    | none =>
      rw [bySlots_keep haccess]
      refine ⟨⟨fun hk => absurd hk hl.no_getVar, fun hk => absurd hk hl.no_setVar,
        fun name hname => ?_⟩, ihk, ihr⟩
      rw [accessed?_bySlots] at hname
      rw [hname] at haccess
      exact VariableTable.get?_eq_none_iff.mp haccess
    | some slot =>
      obtain ⟨name, hname, hslot⟩ := Option.bind_eq_some_iff.mp haccess
      rcases kind_of_accessed? hname with hkind | hkind | hkind
      · rw [bySlots_name haccess hkind]
        have hstring := hl.bears.string?_eq (.inl hkind)
        have hname : name = l.string?.getD "" := by simpa [accessed?, hkind] using hname.symm
        rw [← hname] at hstring
        refine ⟨⟨fun _ => ⟨name, slot, hstring, VariableTable.standsFor hslot,
          Attrs.get?_insert_self _ hl.bears.no_slot⟩, (fun hk => by cases hk), fun other h => ?_⟩,
          ihk, ihr⟩
        rcases kind_of_accessed? h with hk | hk | hk <;> cases hk
      · rw [bySlots_setName haccess hkind]
        obtain ⟨b, lb, below, value, rfl, hbind, rfl⟩ := exists_bound hname (by simp [hkind])
        have hstring := hkids.1.bears.string?_eq (.inr hbind)
        rw [bySlots_keep (bindName_free below hbind)] at ihk ⊢
        -- Neither the assignment nor the string below it counts as a name any more.
        refine ⟨⟨(fun hk => by cases hk), fun _ => ⟨b, _, _, _, _, slot, rfl, rfl, hstring,
          VariableTable.standsFor hslot, Attrs.get?_insert_self _ hl.bears.no_slot⟩,
          fun n hn => ?_⟩,
          ⟨⟨(fun hk => by cases hk), (fun hk => by cases hk), fun n hn => ?_⟩,
          ihk.2.1, ihk.2.2⟩, ihr⟩
        · rcases kind_of_accessed? hn with hk | hk | hk <;> cases hk
        · rcases kind_of_accessed? hn with hk | hk | hk <;> cases hk
      · rw [bySlots_delete haccess hkind]
        exact ⟨⟨(fun hk => by cases hk), (fun hk => by cases hk), (fun name h => by cases h)⟩,
          trivial, ihr⟩

end Forest

/-! ## Deletions are kept -/

/-- The deletions of a forest are told by its nodes. -/
theorem Forest.deletions_collects : Collects deletions
    fun id l kids => if l.kind = .delProp then [(id, l, l.accessed? kids)] else [] where
  nil := rfl
  cons _ _ _ _ := rfl
  quiet _ _ _ hkind := if_neg hkind.1
  property id l kids below hkind hkids hbelow := by
    rw [accessed?_delete hkind hkids, accessed?_delete hkind hbelow]
  switch id l stop kids below hkind := by simp [withStop, hkind]

/-- Lowering keeps deletions, in their order and with the variables that they delete. -/
theorem Lowered.deletions_eq {site : Site} {scopes : List Scope} {form : Form} {w : Nat}
    {past : Bool} {events : List Event}
    (hlow : Lowered site scopes form w past f h events) : h.deletions = f.deletions :=
  Forest.deletions_collects.lowered_eq hlow

/-! ## Programs -/

/-- What stands below the root of a lowered body is what its statements lower to, with all variables
accessed by their slots if it is a function that needs no activation record. -/
theorem Layout.Done.bySlots (hs : L.Sound s) (hj : j.index < L.size)
    (hd : L.Done config s j first) :
    ∃ h events, Lowered (L.site config j) [] .list 0 false (L.kids j) h events ∧
      if (s.program.body j).isFunction && !(s.program.body j).requiresActivation then
        ∃ constant : NodeId → NodeId, (∀ q, L.nodeCount ≤ (constant q).index) ∧
          s.program.statements j = h.bySlots (s.program.body j).vars constant
      else s.program.statements j = h := by
  obtain ⟨h, events, changes, cut, hlow, hslotted⟩ := hd.exists_slotted hs
  refine ⟨h, events, hlow, ?_⟩
  split
  · next huse =>
    refine hslotted.eq_bySlots huse ?_
    rw [hlow.deletions_eq]
    exact (kids_nodup hj).sublist (Forest.deletions_sublist_ids _)
  · next huse => exact hslotted.eq_of_not_may huse

/-- What stands below the root of a lowered body, compared with the same code without slots. -/
theorem Layout.Done.named (hs : L.Sound s) (hj : j.index < L.size) (hd : L.Done config s j first) :
    ∃ named : Forest,
      named.ids.filter (fun q => q.index < L.nodeCount) =
        (L.kids j).kept (fun _ => false) false false none ∧
      named.deletions = (L.kids j).deletions ∧ named.All (Node.Ready (L.program.limits j)) ∧
      if (s.program.body j).isFunction && !(s.program.body j).requiresActivation then
        ∃ constant : NodeId → NodeId, (∀ q, L.nodeCount ≤ (constant q).index) ∧
          s.program.statements j = named.bySlots (s.program.body j).vars constant
      else s.program.statements j = named := by
  obtain ⟨h, events, hlow, hslots⟩ := hd.bySlots hs hj
  have hold : (L.kids j).Old (L.site config j).first := ⟨kids_nodup hj, fun q hq => kids_lt hj hq⟩
  have hkept : h.uncut (fun _ => false) L.nodeCount =
      (L.kids j).kept (fun _ => false) false false none := hlow.kept_eq hold
  exact ⟨h, by rw [← hkept, Forest.uncut_none], hlow.deletions_eq, (hlow.ready (L.fits j)), hslots⟩

/-- The accesses to variables in a lowered program. Take the statements of a body as lowering
arranges them, with all variables accessed by their names: none of these nodes knows of a slot, nor
does the root above them, the nodes of before are those that are kept, in order, and the deletions
are those that were there. In a function that needs no activation record, all accesses to its
variables are turned into accesses by their slots: what reads or writes a slot has that of the last
variable with its name, no name of a variable is left, and constants stand where variables were
deleted. In other bodies the statements stay as they are. -/
theorem lower_resolves_locals {script : Document.Script} {fallback : Option String} {p : Program}
    (hops : script.usesOperators) (hbuild : Document.build script fallback = .ok (.ok p))
    (config : Config) :
    ∃ p' diagnostics, p.lower config = .ok (p', diagnostics) ∧
      ∀ j : BodyId, j.index < p.bodies.size →
        (p'.body j).vars = (p.body j).vars ∧ (p'.body j).isFunction = (p.body j).isFunction ∧
        (∃ l : Node, l.Unslotted ∧ p'.tree.Stands (.tree (p.body j).root l (p'.statements j))) ∧
        ∃ named : Forest,
          named.ids.filter (fun q => q.index < p.tree.size) =
            (p.statements j).kept (fun _ => false) false false none ∧
          named.deletions = (p.statements j).deletions ∧ named.All (fun l _ => l.Unslotted) ∧
          if (p'.body j).isFunction && !(p'.body j).requiresActivation then
            (p'.statements j).All (Node.Resolved (p'.body j).vars) ∧
            ∃ constant : NodeId → NodeId, (∀ q, p.tree.size ≤ (constant q).index) ∧
              p'.statements j = named.bySlots (p'.body j).vars constant
          else p'.statements j = named := by
  have hframed := (Document.build_framed hops hbuild).1
  obtain ⟨L, rfl⟩ := hframed.exists_layout
  obtain ⟨s, hlower, hs, hdone, -⟩ := L.lower_eq config
  refine ⟨s.program, s.diagnostics, hlower, fun j hj => ?_⟩
  obtain ⟨named, hkept, hdeletions, hready, hslots⟩ := (hdone j hj).named hs hj
  have hst := (hdone j hj).stands hs
  rw [← L.statements_eq hj] at hkept hdeletions
  refine ⟨hs.vars_eq j, hs.isFunction_eq j, ⟨_, (hframed.isRoot hj).unslotted, hst⟩,
    named, hkept, hdeletions,
    hready.imp fun _ _ h => h.unslotted, ?_⟩
  split
  · next hlocal =>
    rw [if_pos hlocal] at hslots
    obtain ⟨constant, hnew, heq⟩ := hslots
    rw [heq]
    exact ⟨Forest.resolved_bySlots hready, constant, hnew, rfl⟩
  · next hlocal => rwa [if_neg hlocal] at hslots

/-- A function with the formals `a`, `b` and again `a`: it declares a variable, writes it and
deletes it. -/
theorem lower_resolves_locals_repeated_formal :
    let script : Document.Script := ⟨none, [.function (.mk "f" ["a", "b", "a"] [
      .var [.mk "x" (some (.name "a"))] 1, .expr (.assign (.name "x") (.name "b")) 2,
      .expr (.delete (.name "x")) 3, .ret (some (.name "y")) 4] 1 5 none)], 5⟩
    ∃ p p' diagnostics, script.usesOperators = true ∧ Document.build script none = .ok (.ok p) ∧
      p.lower {} = .ok (p', diagnostics) ∧ (p'.body ⟨1⟩).vars.get? "a" = some 2 ∧
      ((p.statements ⟨1⟩).deletions.map fun d => d.2.2) = [some "x"] ∧
      (p'.statements ⟨1⟩).deletions = [] ∧
      (p'.statements ⟨1⟩).All (Node.Resolved (p'.body ⟨1⟩).vars) := by
  intro script
  have hops : script.usesOperators = true := by decide
  have hmade : Document.buildsTo script none (fun p => (p.lower {}).toOption.any fun r =>
      decide (1 < p.bodies.size ∧ (r.1.body ⟨1⟩).hasSlot "a" = true ∧
        (r.1.body ⟨1⟩).vars.get? "a" = some 2 ∧
        ((p.statements ⟨1⟩).deletions.map fun d => d.2.2) = [some "x"] ∧
        (r.1.statements ⟨1⟩).deletions = [])) = true := by
    decide +kernel
  obtain ⟨p, hbuild, htest⟩ := Document.exists_buildsTo hmade
  obtain ⟨p', diagnostics, hlower, hall⟩ := lower_resolves_locals hops hbuild {}
  rw [hlower] at htest
  obtain ⟨hsize, hslot, hget, hold, hnew⟩ := of_decide_eq_true htest
  obtain ⟨-, -, -, named, -, -, -, hslots⟩ := hall ⟨1⟩ hsize
  rw [Body.hasSlot, Body.usesSlots, Bool.and_eq_true] at hslot
  rw [if_pos hslot.1] at hslots
  exact ⟨p, p', diagnostics, hops, hbuild, hlower, hget, hold, hnew, hslots.1⟩

end ScriptEngine
