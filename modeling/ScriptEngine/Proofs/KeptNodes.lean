import ScriptEngine.Proofs.BodyForests

/-!
# Nodes that lowering keeps

Lowering moves code about: labels and jumps lose their names, the clauses of a switch go behind it,
returns and variable statements become blocks, and the deletion of a local variable becomes a
constant. `Forest.kept` says which nodes of a body are left, in the order in which they stand.
-/

namespace ScriptEngine

open Forest Node Token

variable {l : Node} {kids f g h rest : Forest} {id stop : NodeId} {k : Token}
  {isLocal : String → Bool} {past outer : Bool} {site : Site} {scopes inner : List Scope}
  {form : Form} {w : Nat} {events : List Event} {labels : List LabelNode}
  {steps : List (NodeId × Node)} {continueTo : Option NodeId} {limits : Limits}

/-- A test tells kinds apart. -/
theorem Token.ne_of_test {test : Token → Bool} {m : Token} (h : test k) (hm : test m = false) :
    k ≠ m := by
  rintro rfl
  simp [hm] at h

/-- Kinds of nodes that stand for an expression or a statement by themselves. -/
def Token.isSingle : Token → Bool
  | .label | .target | .enterWith | .leaveWith => false
  | _ => true

theorem Token.isSingle_of_isKept (h : k.isKept) : k.isSingle := by
  unfold isSingle
  split <;> first | rfl | simp [isKept, isPlain] at h

/-- The finally block of a try. -/
def Node.finallyTarget? (l : Node) : Option NodeId :=
  if l.kind = .tryStmt then l.jump?.bind (·.finallyTarget) else none

theorem Node.finallyTarget?_eq_none (h : l.kind ≠ .tryStmt) : l.finallyTarget? = none :=
  if_neg h

theorem Node.finallyTarget?_eq {j : JumpData} (h : l.kind = .tryStmt) (hdata : l.data = .jump j) :
    l.finallyTarget? = j.finallyTarget := by
  simp [finallyTarget?, h, jump?, hdata]

/-- The node deletes a variable that is local, told by its label and what is below it. -/
def Node.deletes (isLocal : String → Bool) (l : Node) : Forest → Bool
  | .cons _ lb _ _ => l.kind = .delProp && lb.kind = .bindName && isLocal (lb.string?.getD "")
  | .nil => false

private theorem Node.deletes_eq_false
    (h : l.kind = .delProp → ¬ kids.bindsName) : l.deletes isLocal kids = false := by
  cases kids with
  | nil => rfl
  | cons b lb kb rest =>
    by_cases hk : l.kind = .delProp
    · simp_all [deletes, bindsName]
    · simp [deletes, hk]

/-- Kinds of nodes that are kept, wherever they stand and whatever is below them. -/
def Token.isSteady : Token → Bool
  | .label | .breakStmt | .continueStmt | .var | .ret | .withBody | .tryStmt => false
  | _ => true

private theorem Token.isSteady_of_isKept (h : k.isKept) : k.isSteady := by
  unfold isSteady
  split <;> first | rfl | simp [isKept, isPlain] at h

namespace Forest

/-- There is a finally block in the forest. -/
def guards : Forest → Bool
  | .nil => false
  | .cons _ l kids rest => l.finallyTarget?.isSome || kids.guards || rest.guards

mutual

/-- The nodes that lowering keeps, in preorder. The names of labels and of jumps go, and variable
statements with the declarations that have no initial value. A return with a value goes, but not its
value, if a finally block was met before (`past`) and there is a scope to leave: a with statement or
the guarded part of a try (`unwinds`), which ends at `entry`. Deletions of local variables go with
what is below them. -/
def kept (isLocal : String → Bool) :
    Forest → (past unwinds : Bool) → (entry : Option NodeId) → List NodeId
  | .nil, _, _, _ => []
  | .cons id l kids rest, past, outer, entry =>
    let entry := if entry = some id then none else entry
    let unwinds := outer || entry.isSome
    (match l.kind with
      | .label | .breakStmt | .continueStmt => [id]
      | .var => kids.keptDecls isLocal past unwinds
      | .ret =>
        (if past && unwinds && kids ≠ .nil then [] else [id]) ++ kids.kept isLocal past unwinds none
      | .withBody => id :: kids.kept isLocal past true none
      | _ =>
        if l.deletes isLocal kids then []
        else id :: kids.kept isLocal (past || l.finallyTarget?.isSome) unwinds l.finallyTarget?) ++
      rest.kept isLocal (past || l.finallyTarget?.isSome || kids.guards) outer entry

/-- The nodes that are kept of declarations: those with an initial value. -/
def keptDecls (isLocal : String → Bool) : Forest → (past unwinds : Bool) → List NodeId
  | .nil, _, _ => []
  | .cons id _ kids rest, past, unwinds =>
    (if kids = .nil then [] else id :: kids.kept isLocal past unwinds none) ++
      rest.keptDecls isLocal (past || kids.guards) unwinds

end

/-- The nodes that are kept of a forest of a form. -/
@[simp] def keptAs (isLocal : String → Bool) (past unwinds : Bool) (f : Forest) : Form → List NodeId
  | .one | .list => f.kept isLocal past unwinds none
  | .decls => f.keptDecls isLocal past unwinds

/-- The nodes below a bound in preorder, without the deletions of local variables. -/
def uncut (isLocal : String → Bool) (bound : Nat) : Forest → List NodeId
  | .nil => []
  | .cons id l kids rest =>
    (if l.deletes isLocal kids then []
      else if id.index < bound then id :: kids.uncut isLocal bound else kids.uncut isLocal bound) ++
      rest.uncut isLocal bound

variable {bound : Nat}

@[simp] theorem guards_nil : Forest.nil.guards = false := rfl

private theorem guards_cons (h : l.kind ≠ .tryStmt) :
    (Forest.cons id l kids rest).guards = (kids.guards || rest.guards) := by
  rw [guards, finallyTarget?_eq_none h, Option.isSome_none, Bool.false_or]

@[simp] theorem guards_append (f g : Forest) : (f ++ g).guards = (f.guards || g.guards) := by
  induction f with
  | nil => rfl
  | cons id l kids rest _ ih => simp [guards, ih, Bool.or_assoc]

@[simp] theorem uncut_nil : Forest.nil.uncut isLocal bound = [] := rfl

@[simp] theorem uncut_append (f g : Forest) :
    (f ++ g).uncut isLocal bound = f.uncut isLocal bound ++ g.uncut isLocal bound := by
  induction f with
  | nil => rfl
  | cons id l kids rest _ ih => simp [uncut, ih]

/-- Where nothing is local, nothing is cut. -/
theorem uncut_none (f : Forest) :
    f.uncut (fun _ => false) bound = f.ids.filter (fun q => q.index < bound) := by
  induction f with
  | nil => rfl
  | cons id l kids rest ihk ihr =>
    have hdel : l.deletes (fun _ => false) kids = false := by cases kids <;> simp [deletes]
    by_cases hid : id.index < bound <;> simp [uncut, hdel, ihk, ihr, hid]

/-- A node of before. -/
theorem uncut_old (hkind : l.kind = .delProp → ¬ kids.bindsName) (hid : id.index < bound) :
    (Forest.cons id l kids rest).uncut isLocal bound =
      id :: (kids.uncut isLocal bound ++ rest.uncut isLocal bound) := by
  rw [uncut, deletes_eq_false hkind, if_neg (by simp), if_pos hid, List.cons_append]

/-- A node that is new. -/
theorem uncut_new (hkind : l.kind = .delProp → ¬ kids.bindsName) (hid : bound ≤ id.index) :
    (Forest.cons id l kids rest).uncut isLocal bound =
      kids.uncut isLocal bound ++ rest.uncut isLocal bound := by
  rw [uncut, deletes_eq_false hkind, if_neg (by simp), if_neg (Nat.not_lt.mpr hid)]

/-- A node where no try is open. -/
theorem kept_cons :
    (Forest.cons id l kids rest).kept isLocal past outer none =
      (match l.kind with
        | .label | .breakStmt | .continueStmt => [id]
        | .var => kids.keptDecls isLocal past outer
        | .ret =>
          (if past && outer && kids ≠ .nil then [] else [id]) ++ kids.kept isLocal past outer none
        | .withBody => id :: kids.kept isLocal past true none
        | _ =>
          if l.deletes isLocal kids then []
          else id :: kids.kept isLocal (past || l.finallyTarget?.isSome) outer l.finallyTarget?) ++
        rest.kept isLocal (past || l.finallyTarget?.isSome || kids.guards) outer none := by
  cases outer <;> rfl

@[simp] theorem kept_nil {entry : Option NodeId} : Forest.nil.kept isLocal past outer entry = [] :=
  rfl

/-- Most nodes are kept, and so is what is kept below them. -/
theorem kept_steady (hkind : l.kind.isSteady) (hdelete : l.kind = .delProp → ¬ kids.bindsName) :
    (Forest.cons id l kids rest).kept isLocal past outer none =
      id :: (kids.kept isLocal past outer none ++
        rest.kept isLocal (past || kids.guards) outer none) := by
  have hdel : l.deletes isLocal kids = false := deletes_eq_false hdelete
  have hnone : l.finallyTarget? = none :=
    finallyTarget?_eq_none (ne_of_test hkind rfl)
  rw [kept_cons, hnone, hdel]
  split <;> simp_all [isSteady]

/-- What a try guards is a scope to leave. -/
theorem kept_try (hkind : l.kind = .tryStmt) :
    (Forest.tree id l kids).kept isLocal past outer none =
      id :: kids.kept isLocal (past || l.finallyTarget?.isSome) outer l.finallyTarget? := by
  have hdel : l.deletes isLocal kids = false := deletes_eq_false (by simp [hkind])
  rw [kept_cons, hdel, hkind]
  exact List.append_nil _

/-- A return goes if it has a value and scopes to leave, after a finally block. -/
theorem kept_ret (hkind : l.kind = .ret) :
    (Forest.cons id l kids rest).kept isLocal past outer none =
      (if past && outer && kids ≠ .nil then [] else [id]) ++ (kids.kept isLocal past outer none ++
        rest.kept isLocal (past || kids.guards) outer none) := by
  have hnone : l.finallyTarget? = none := finallyTarget?_eq_none (by simp [hkind])
  rw [kept_cons, hkind, hnone, Option.isSome_none, Bool.or_false]
  exact List.append_assoc ..

/-- Labels and jumps lose their names. -/
theorem kept_named (hkind : l.kind = .label ∨ l.kind = .breakStmt ∨ l.kind = .continueStmt) :
    (Forest.cons id l kids rest).kept isLocal past outer none =
      id :: rest.kept isLocal (past || kids.guards) outer none := by
  have hnone : l.finallyTarget? = none :=
    finallyTarget?_eq_none (by rcases hkind with hk | hk | hk <;> simp [hk])
  rw [kept_cons, hnone, Option.isSome_none, Bool.or_false]
  rcases hkind with hk | hk | hk <;> rw [hk] <;> rfl

/-- The body of a with statement is a scope to leave. -/
theorem kept_withBody (hkind : l.kind = .withBody) :
    (Forest.cons id l kids rest).kept isLocal past outer none =
      id :: (kids.kept isLocal past true none ++
        rest.kept isLocal (past || kids.guards) outer none) := by
  have hnone : l.finallyTarget? = none := finallyTarget?_eq_none (by simp [hkind])
  rw [kept_cons, hkind, hnone, Option.isSome_none, Bool.or_false]
  rfl

@[simp] theorem kept_append (f g : Forest) : (f ++ g).kept isLocal past outer none =
    f.kept isLocal past outer none ++ g.kept isLocal (past || f.guards) outer none := by
  induction f generalizing past with
  | nil => simp [kept, guards]
  | cons id l kids rest _ ih => simp [kept, guards, ih, Bool.or_assoc]

/-- What is kept stands in the order in which it stood. -/
theorem kept_sublist_ids (f : Forest) :
    (∀ past outer entry, (f.kept isLocal past outer entry).Sublist f.ids) ∧
      ∀ past outer, (f.keptDecls isLocal past outer).Sublist f.ids := by
  induction f with
  | nil => exact ⟨fun _ _ _ => .slnil, fun _ _ => .slnil⟩
  | cons id l kids rest ihk ihr =>
    rw [ids_cons, ← List.cons_append]
    refine ⟨fun past outer entry => ?_, fun past outer => ?_⟩
    · rw [kept]
      refine List.Sublist.append ?_ (ihr.1 ..)
      split
      any_goals exact (List.nil_sublist _).cons_cons id
      · exact (ihk.2 ..).cons id
      · show List.Sublist _ ([id] ++ kids.ids)
        refine List.Sublist.append ?_ (ihk.1 ..)
        have hgoes : ∀ b : Bool, List.Sublist (if b then [] else [id]) [id] := by simp
        exact hgoes _
      · exact (ihk.1 ..).cons_cons id
      · split
        · exact List.nil_sublist _
        · exact (ihk.1 ..).cons_cons id
    · rw [keptDecls]
      refine List.Sublist.append ?_ (ihr.2 ..)
      split
      · exact List.nil_sublist _
      · exact (ihk.1 ..).cons_cons id

/-- The guarded part of a try ends where its finally block begins. -/
theorem kept_guarded (f : Forest) (l : Node) (kids rest : Forest) (hnot : id ∉ f.roots) :
    (f ++ .cons id l kids rest).kept isLocal past outer (some id) =
      f.kept isLocal past true none ++
        (Forest.cons id l kids rest).kept isLocal (past || f.guards) outer none := by
  induction f generalizing past with
  | nil => simp [kept, guards]
  | cons id' l' kids' rest' _ ih =>
    simp only [roots_cons, List.mem_cons, not_or] at hnot
    have hne : some id ≠ some id' := by simpa using hnot.1
    simp only [cons_append, kept, guards, ih hnot.2, if_neg hne, Bool.or_assoc]
    simp

/-- The nodes are different nodes below a bound. -/
def Old (bound : Nat) (f : Forest) : Prop := f.ids.Nodup ∧ ∀ q ∈ f.ids, q.index < bound

/-- Both parts of an old forest are old. -/
theorem Old.append (h : (f ++ g).Old bound) : f.Old bound ∧ g.Old bound := by
  obtain ⟨hnd, hlt⟩ := h
  rw [ids_append, List.nodup_append] at hnd
  exact ⟨⟨hnd.1, fun q hq => hlt q (by simp [hq])⟩, hnd.2.1, fun q hq => hlt q (by simp [hq])⟩

theorem Old.cons (h : (Forest.cons id l kids rest).Old bound) :
    id.index < bound ∧ kids.Old bound ∧ rest.Old bound := by
  obtain ⟨hnd, hlt⟩ := h
  rw [ids_cons, List.nodup_cons, List.nodup_append] at hnd
  exact ⟨hlt id (by simp), ⟨hnd.2.1, fun q hq => hlt q (by simp [hq])⟩, hnd.2.2.1,
    fun q hq => hlt q (by simp [hq])⟩

theorem Old.head (h : (Forest.cons id l kids rest).Old bound) : (Forest.tree id l kids).Old bound :=
  (Old.append (f := .tree id l kids) (g := rest) h).1

/-- A node of an old forest does not stand there twice. -/
theorem Old.not_mem_roots (h : (f ++ .cons id l kids rest).Old bound) : id ∉ f.roots := by
  intro hin
  have hnd := h.1
  rw [ids_append, List.nodup_append] at hnd
  exact hnd.2.2 id (f.roots_subset_ids hin) id (by simp) rfl

end Forest

/-! ## Accesses by slot -/

/-- Where every access to a variable must be by its slot, deletions of variables are cut and nothing
else. -/
theorem Slotted.uncut_eq {rules : SlotRules} {p : NodeId} {changes : List SlotChange}
    {cut k : Forest} (hs : Slotted rules p changes cut h k) (hmust : rules.must) :
    k.ids.filter (fun q => q.index < rules.first) =
      h.uncut (fun name => (rules.vars.get? name).isSome) rules.first := by
  induction hs with
  | nil => rfl
  | @keep p id l kids kids' rest rest' _ _ _ _ hkeep _ _ ihk ihr =>
    have hdel : l.deletes (fun name => (rules.vars.get? name).isSome) kids = false := by
      cases kids with
      | nil => rfl
      | cons b lb kb rb =>
        rw [deletes, Bool.eq_false_iff]
        intro hall
        simp only [Bool.and_eq_true, decide_eq_true_eq] at hall
        have hnone := hkeep hmust (lb.string?.getD "") (by simp [accessed?, hall.1.1, hall.1.2])
        simp [hnone] at hall
    by_cases hid : id.index < rules.first <;> simp [uncut, hdel, hid, ihk, ihr]
  | @getVar p id l _ _ _ _ _ _ _ _ _ _ ih =>
    by_cases hid : id.index < rules.first <;> simp [uncut, deletes, hid, ih]
  | @setVar p id l bind lb _ _ _ _ _ _ _ _ _ _ hkind _ _ _ _ _ ihv ihr =>
    by_cases hid : id.index < rules.first <;> by_cases hb : bind.index < rules.first <;>
      simp [uncut, deletes, hkind, hid, hb, ihv, ihr]
  | deleted _ hkind hbind hslot hnew _ ih =>
    have hold : ¬ _ < rules.first := Nat.not_lt.mpr hnew
    simp [uncut, deletes, hkind, hbind, hslot, hold, ih]

/-! ## Lowered forests -/

@[simp] theorem Site.met_functionEvents (site : Site) (past : Bool) (body : BodyId) :
    met past (site.functionEvents body) = past := by
  simp only [met, functionEvents]
  split
  · simp
  · split <;> simp

namespace Lowered

private theorem guards_labelForest : (labelForest labels).guards = false := by
  induction labels with
  | nil => rfl
  | cons a labels ih =>
    simp [labelForest, guards_cons, ih]

/-- The finally blocks that are noted are those of the forest. -/
theorem guards_eq (hlow : Lowered site scopes form w past f h events) :
    met past events = (past || f.guards) := by
  induction hlow with
  | plain hkind _ _ _ ih =>
    simp [guards_cons, ne_of_test hkind (m := .tryStmt) rfl, ih]
  | function hkind | ret hkind => simp [guards_cons, hkind]
  | deleteName hkind hbind hkey => simp [guards_cons, hkind, hbind, hkey]
  | var hkind _ _ _ ih | retValue hkind _ _ _ ih | retLater hkind _ _ _ _ _ _ _ _ ih =>
    simp [guards_cons, hkind, ih]
  | jump hkind _ hname | lost hkind _ hname =>
    cases hname <;> rcases hkind with hk | hk <;> simp_all [guards_cons, met]
  | switch hkind _ _ _ _ ihs ihc =>
    rw [met_append, ihc, ihs]
    simp [guards_cons, hkind, Bool.or_assoc]
  | loop hkind _ _ _ _ _ hstop _ ih => simp [guards_cons, hkind, hstop, ih]
  | tryCatch hkind hdata hfinally _ ih =>
    simpa [guards, finallyTarget?_eq hkind hdata, hfinally, met] using ih
  | tryFinally hkind hdata hfinally _ _ _ _ =>
    simp [guards, finallyTarget?_eq hkind hdata, hfinally, met]
  | nil | declNil => simp
  | target hkind _ _ ih => simp [guards_cons, hkind, ih]
  | labelled hopen _ _ _ iho ihr =>
    rw [met_append, hopen.met_eq, met_append, ihr, iho]
    simp [guards, guards_labelForest, Bool.or_assoc]
  | withScope henter _ hinner _ hleave _ iho ihb ihr =>
    rw [met_append, met_append, Site.met_activations, met_append, ihr, ihb, iho]
    simp [guards_cons, henter, hinner, hleave, Bool.or_assoc]
  | exit hleave hskip _ _ _ ih => simp [guards_cons, hleave, hskip, ih]
  | decl hkind _ ih => simp [guards_cons, hkind, ih]
  | declInit hkind _ _ _ _ ihi ihr =>
    rw [met_append, Site.met_nameEvents, met_append, ihr, ihi]
    simp [guards_cons, hkind, Bool.or_assoc]

/-- There is a scope to leave. -/
def unwinds (scopes : List Scope) : Bool := scopes.any (·.step?.isSome)

private theorem unwinds_eq_false : unwinds scopes = false ↔ scopes.filterMap Scope.step? = [] := by
  simp [unwinds]

/-- Steps are new nodes. -/
theorem uncut_leaves (hnew : ∀ step ∈ steps, site.IsNew step.1) :
    (Forest.leaves steps).uncut isLocal site.first = [] := by
  induction steps with
  | nil => rfl
  | cons step steps ih =>
    have hold : ¬ step.1.index < site.first := Nat.not_lt.mpr (hnew step (by simp))
    simp [leaves, uncut, deletes, hold, ih fun s hs => hnew s (by simp [hs])]

private theorem kept_labelForest :
    (labelForest labels).kept isLocal past outer none = labels.map LabelNode.id := by
  induction labels generalizing past with
  | nil => rfl
  | cons a labels ih =>
    rw [labelForest, kept_named (.inl a.kind_eq), ih]
    rfl

section

variable {front : Forest}

/-- A label is no scope to leave. -/
theorem unwinds_labels (hopen : LabelsOpen stop continueTo scopes labels inner front events) :
    unwinds inner = unwinds scopes := by
  induction hopen with
  | nil => rfl
  | repeated _ _ ih => exact ih
  | fresh _ _ _ ih => exact ih.trans (by simp [unwinds, Scope.step?])

/-- Labels stay where they are. -/
theorem kept_labels (hopen : LabelsOpen stop continueTo scopes labels inner front events)
    (hold : (labelForest labels).Old site.first) :
    front.uncut isLocal site.first = labels.map LabelNode.id := by
  induction hopen with
  | nil => rfl
  | @repeated _ a _ _ _ _ _ _ ih | @fresh _ a _ _ _ _ _ _ _ _ ih =>
    obtain ⟨hid, -, hrest⟩ := hold.cons
    rw [uncut_old (by simp [withJump]) hid, ih hrest]
    rfl

end

/-- A single node, before it is lowered. -/
theorem single (hlow : Lowered site scopes .one w past f h events) :
    ∃ id l kids, f = .tree id l kids ∧ l.kind.isSingle := by
  cases hlow with
  | plain hkind => exact ⟨_, _, _, rfl, isSingle_of_isKept hkind⟩
  | jump hkind | lost hkind =>
    exact ⟨_, _, _, rfl, by rcases hkind with hk | hk <;> simp [hk, isSingle]⟩
  | deleteName hkind | function hkind | var hkind | ret hkind | retValue hkind | retLater hkind
  | switch hkind | loop hkind | tryCatch hkind | tryFinally hkind =>
    exact ⟨_, _, _, rfl, by simp [hkind, isSingle]⟩

/-- A tree that is lowered by itself has a root of a single kind. -/
theorem single_tree
    (hlow : Lowered site scopes .one w past (.tree id l kids) h events) : l.kind.isSingle := by
  obtain ⟨_, _, _, heq, hsingle⟩ := hlow.single
  cases heq
  exact hsingle

/-- A kind that lowering passes over. -/
theorem plain_inv (hlow : Lowered site scopes .one w past (.tree id l kids) g events)
    (hkind : l.kind.isKept) (hdelete : l.kind = .delProp → ¬ kids.bindsName) :
    ∃ h events', g = .tree id (l.lowered site.inFunction kids) h ∧
      events = site.plainEvents scopes id l kids ++ events' ∧
      Lowered site scopes .list w past kids h events' := by
  generalize hf : Forest.tree id l kids = f at hlow
  cases hlow with
  | plain _ _ _ hkids =>
    cases hf
    exact ⟨_, _, rfl, rfl, hkids⟩
  | jump hk | lost hk =>
    obtain ⟨-, rfl, -⟩ := Forest.cons.inj hf
    rcases hk with hk | hk <;> simp [hk, isKept, isPlain] at hkind
  | _ =>
    obtain ⟨-, rfl, -⟩ := Forest.cons.inj hf
    simp_all [isKept, isPlain, bindsName]

/-- Lowered forests have the nodes that are kept, in order. -/
theorem kept_eq (hlow : Lowered site scopes form w past f h events) (hold : f.Old site.first) :
    h.uncut isLocal site.first = f.keptAs isLocal past (unwinds scopes) form := by
  -- Nodes from `site.first` on are new and drop out; the others stand where they stood.
  induction hlow with
  | plain hkind _ hdelete _ ih =>
    obtain ⟨hid, hkids, -⟩ := hold.cons
    rw [keptAs, uncut_old (fun hk => (hdelete (kind_of_lowered hk nofun nofun)).2) hid,
      kept_steady (isSteady_of_isKept hkind) fun hk => (hdelete hk).1, ih hkids]
    simp
  | function hkind =>
    obtain ⟨hid, -, -⟩ := hold.cons
    rw [keptAs, uncut_old (by simp [hkind]) hid,
      kept_steady (by simp [hkind, isSteady]) (by simp [hkind])]
    simp
  | @deleteName E w past id l bind lb key lk hkind hbind hkey =>
    obtain ⟨hid, hkids, -⟩ := hold.cons
    obtain ⟨hb, -, hrest⟩ := hkids.cons
    obtain ⟨hk, -, -⟩ := hrest.cons
    by_cases hlocal : isLocal (lb.string?.getD "")
    · simp [uncut, kept, deletes, hkind, hbind, hlocal]
    · simp [uncut, kept, deletes, hkind, hbind, hkey, hlocal, hid, hb, hk]
  | var hkind hnew _ _ ih =>
    rw [uncut_new (by simp) hnew, ih hold.cons.2.1]
    simp [kept, hkind]
  | ret hkind _ _ hnew =>
    rw [keptAs, uncut_append, uncut_leaves hnew,
      uncut_old (by simp [hkind]) hold.cons.1, kept_ret hkind]
    simp
  | @retValue E w past id l value hv events hkind _ hsteps _ ih =>
    obtain ⟨hid, hvalue, -⟩ := hold.cons
    -- Nothing is left on the way out, so the node stays.
    have hstay : (past && unwinds E) = false := by
      rcases hsteps with rfl | hnone
      · rfl
      · rw [unwinds_eq_false.mpr hnone, Bool.and_false]
    rw [keptAs, uncut_old (by simp [hkind]) hid, kept_ret hkind, hstay, ih hvalue]
    simp
  | @retLater E w past id l value hv block store steps back events hkind hpast hsome hvalue _
      hnew hblock hstore hback ih =>
    have hleaves : unwinds E = true := by
      rw [← Bool.not_eq_false, unwinds_eq_false]
      exact hsome
    obtain ⟨a, la, ka, rfl, -⟩ := hvalue.single
    rw [keptAs, kept_ret hkind, uncut_new (by simp) hblock,
      uncut_new (by simp [withLine]) hstore, uncut_append, uncut_leaves hnew,
      uncut_new (by simp) hback, ih hold.cons.2.1, hpast, hleaves, Forest.keptAs]
    simp
  | jump hkind _ _ _ _ _ _ _ hnew =>
    rw [keptAs, kept_named (.inr hkind), uncut_append, uncut_leaves hnew,
      uncut_old (by simp [withKind, withJump]) hold.cons.1]
    simp
  | lost hkind =>
    rw [keptAs, kept_named (.inr hkind),
      uncut_old (by simp [withKind]) hold.cons.1]
    simp
  | switch hkind _ hnew hselector _ ihs ihc =>
    obtain ⟨hid, hkids, -⟩ := hold.cons
    rw [hselector.guards_eq] at ihc
    rw [keptAs, uncut_old (by simp [withStop, hkind]) hid, uncut_append,
      uncut_new (by simp) hnew, kept_steady (by simp [hkind, isSteady]) (by simp [hkind]),
      ihs hkids.append.1, ihc hkids.append.2]
    simp [unwinds, Scope.step?]
  | loop hkind _ _ _ _ _ hstop _ ih =>
    obtain ⟨hid, hkids, -⟩ := hold.cons
    rw [keptAs, uncut_old (by simp [hkind]) hid, uncut_append,
      uncut_old (by simp [hstop]) hkids.append.2.cons.1,
      kept_steady (by simp [hkind, isSteady]) (by simp [hkind]), ih hkids.append.1, kept_append,
      kept_steady (by simp [hstop, isSteady]) (by simp [hstop])]
    simp [unwinds, Scope.step?]
  | tryCatch hkind hdata hfinally _ ih =>
    obtain ⟨hid, hkids, -⟩ := hold.cons
    rw [keptAs, uncut_old (by simp [hkind]) hid, kept_try hkind,
      finallyTarget?_eq hkind hdata, hfinally, ih hkids]
    simp
  | @tryFinally E w past id l j guarded hg entry le final hf back lb stop ls events events' hkind
      hdata hfinally _ hentry _ _ hback hstop _ ihg ihf =>
    obtain ⟨hid, hkids, -⟩ := hold.cons
    obtain ⟨hne, -, hrest⟩ := hkids.append.2.cons
    obtain ⟨hnb, -, hnext⟩ := hrest.append.2.cons
    have ihg := ihg hkids.append.1
    rw [show unwinds (.guarded id entry :: E) = true from rfl] at ihg
    rw [keptAs, uncut_old (by simp [hkind]) hid, uncut_append,
      uncut_old (by simp [hentry]) hne, uncut_append,
      uncut_old (by simp [hback]) hnb, uncut_old (by simp [hstop]) hnext.cons.1, ihg,
      ihf hrest.append.1, kept_try hkind, finallyTarget?_eq hkind hdata, hfinally,
      kept_guarded _ _ _ _ hkids.not_mem_roots,
      kept_steady (by simp [hentry, isSteady]) (by simp [hentry]), kept_append,
      kept_steady (by simp [hback, isSteady]) (by simp [hback]),
      kept_steady (by simp [hstop, isSteady]) (by simp [hstop])]
    simp
  | nil | declNil => rfl
  | target hkind _ _ ih =>
    obtain ⟨hid, -, hrest⟩ := hold.cons
    rw [keptAs, uncut_old (by simp [hkind]) hid,
      kept_steady (by simp [hkind, isSteady]) (by simp [hkind]), ih hrest]
    simp
  | @labelled E inner w past labels id l kids rest front h stop hr complaints events events'
      hopen hnew hone _ iho ihr =>
    -- The break target of the labels is new, if there is one.
    have htarget : (if inner = E then .nil else Forest.leaf stop (.ofKind .target)).uncut isLocal
        site.first = [] := by
      split
      · rfl
      · next hne => rw [uncut_new (by simp) (hnew hne)]; rfl
    have hsplit : Forest.cons id l kids rest = .tree id l kids ++ rest := rfl
    rw [hone.guards_eq] at ihr
    rw [keptAs, uncut_append, uncut_append, uncut_append, htarget,
      kept_labels hopen hold.append.1, iho hold.append.2.head, ihr hold.append.2.cons.2.2,
      unwinds_labels hopen, hsplit, kept_append,
      kept_append, kept_labelForest, guards_labelForest, Bool.or_false]
    rfl
  | @withScope E w past enter le object ho inner li body hb leave lv rest hr events events' events''
      henter hobject hinner hbody hleave _ iho ihb ihr =>
    obtain ⟨hne, hobj, hrest⟩ := hold.cons
    obtain ⟨hni, hbod, hrest⟩ := hrest.cons
    obtain ⟨hnl, -, hrest⟩ := hrest.cons
    rw [hbody.guards_eq, hobject.guards_eq] at ihr
    rw [hobject.guards_eq, show unwinds (.withBody inner leave :: E) = true from rfl] at ihb
    rw [keptAs, uncut_old (by simp [henter]) hne, uncut_old (by simp [hinner]) hni,
      uncut_old (by simp [hleave]) hnl, kept_steady (by simp [henter, isSteady]) (by simp [henter]),
      kept_withBody hinner, kept_steady (by simp [hleave, isSteady]) (by simp [hleave]), iho hobj,
      ihb hbod, ihr hrest]
    simp
  | exit hleave hskip _ _ _ ih =>
    obtain ⟨hnl, -, hrest⟩ := hold.cons
    obtain ⟨hns, -, hrest⟩ := hrest.cons
    rw [keptAs, uncut_old (by simp [hleave]) hnl, uncut_old (by simp [hskip]) hns,
      kept_steady (by simp [hleave, isSteady]) (by simp [hleave]),
      kept_steady (by simp [hskip, isSteady]) (by simp [hskip]), ih hrest]
    simp
  | decl _ _ ih =>
    rw [ih hold.cons.2.2]
    simp [keptDecls]
  | declInit _ hpop hassign hinit _ ihi ihr =>
    obtain ⟨hid, hkids, hrest⟩ := hold.cons
    obtain ⟨a, la, ka, rfl, -⟩ := hinit.single
    rw [hinit.guards_eq] at ihr
    rw [uncut_new (by simp [withLine]) hpop, uncut_new (by simp) hassign,
      uncut_old (by simp [withKind]) hid, ihi hkids, ihr hrest]
    simp [keptDecls]

end Lowered

/-! ## What deletions and switches tell -/

/-- Something is collected from a forest in preorder, from deletions and switches alone. A deletion
of a property tells no more than its label, and a switch tells neither where it ends nor what stands
below it. -/
structure Collects {β : Type} (g : Forest → List β) (own : NodeId → Node → Forest → List β) :
    Prop where
  nil : g .nil = []
  cons : ∀ id l kids rest, g (.cons id l kids rest) = own id l kids ++ (g kids ++ g rest)
  quiet : ∀ id l kids, l.kind ≠ .delProp ∧ l.kind ≠ .switch → own id l kids = []
  property : ∀ id l kids below, l.kind = .delProp → ¬ kids.bindsName → ¬ below.bindsName →
    own id l kids = own id l below
  switch : ∀ id l stop kids below, l.kind = .switch →
    own id (l.withStop stop) kids = own id l below

namespace Collects

variable {β : Type} {g : Forest → List β} {own : NodeId → Node → Forest → List β}

private theorem skip (hg : Collects g own) (hkind : l.kind ≠ .delProp ∧ l.kind ≠ .switch) :
    g (.cons id l kids rest) = g kids ++ g rest := by
  rw [hg.cons, hg.quiet id l kids hkind, List.nil_append]

private theorem append (hg : Collects g own) (f h : Forest) : g (f ++ h) = g f ++ g h := by
  induction f with
  | nil => simp [hg.nil]
  | cons id l kids rest _ ih => simp [hg.cons, ih]

private theorem leaves (hg : Collects g own)
    (hsteps : steps.map Prod.snd = inner.filterMap Scope.step?) : g (.leaves steps) = [] := by
  have hkind := Scope.kind_of_steps hsteps
  clear hsteps
  induction steps with
  | nil => exact hg.nil
  | cons step steps ih =>
    have ih := ih fun x hx => hkind x (by simp [hx])
    rcases hkind step (by simp) with hk | hk <;> simp [Forest.leaves, hg.skip, hg.nil, hk, ih]

private theorem labelForest (hg : Collects g own) : g (labelForest labels) = [] := by
  induction labels with
  | nil => exact hg.nil
  | cons a labels ih =>
    simp [ScriptEngine.labelForest, hg.skip, hg.nil, ih]

private theorem front (hg : Collects g own)
    (hopen : LabelsOpen stop continueTo scopes labels inner f events) : g f = [] := by
  induction hopen with
  | nil => exact hg.nil
  | @repeated _ a _ _ _ _ _ _ ih | @fresh _ a _ _ _ _ _ _ _ _ ih =>
    simp [hg.skip, hg.nil, withJump, ih]

/-- Lowering keeps deletions and switches, in their order. -/
theorem lowered_eq (hg : Collects g own)
    (hlow : Lowered site scopes form w past f h events) : g h = g f := by
  induction hlow with
  | @plain E w past id l kids h events hkind _ hdelete _ ih =>
    have hswitch : l.kind ≠ .switch := ne_of_test hkind rfl
    by_cases hdel : l.kind = .delProp
    · have hsame : l.lowered site.inFunction kids = l := by simp [lowered, hdel]
      obtain ⟨hkids, hbelow⟩ := hdelete hdel
      rw [hsame, hg.cons, hg.cons, ih, hg.property id l h kids hdel hbelow hkids]
    · rw [hg.skip ⟨hdel, hswitch⟩, hg.skip, ih]
      exact ⟨fun he => hdel (kind_of_lowered he (by simp) (by simp)),
        fun he => hswitch (kind_of_lowered he (by simp) (by simp))⟩
  | function | deleteName => rfl
  | var hkind _ _ _ ih => simp [hg.skip, hkind, ih]
  | @ret E w past id l steps hkind _ hsteps _ =>
    cases past with
    | true => rw [hg.append, hg.leaves hsteps, List.nil_append]
    | false =>
      obtain rfl : steps = [] := List.map_eq_nil_iff.mp hsteps
      rfl
  | retValue hkind _ _ _ ih => simp [hg.skip, hkind, ih]
  | retLater hkind _ _ _ hsteps _ _ _ _ ih =>
    simp [hg.skip, hg.append, hg.nil, hg.leaves hsteps, withLine, hkind, ih]
  | jump hkind _ hname _ _ _ _ hsteps _ =>
    cases hname <;> rcases hkind with hk | hk <;>
      simp_all [hg.skip, hg.append, hg.nil, hg.leaves hsteps, withJump, withKind]
  | lost hkind _ hname =>
    cases hname <;> rcases hkind with hk | hk <;> simp_all [hg.skip, hg.nil, withKind]
  | @switch E w past id l data selector clauses hs hc stop events events' hkind _ _ _ _ ihs ihc =>
    rw [hg.cons, hg.cons, hg.append, hg.append, ihs, ihc, hg.skip (by simp), hg.nil,
      hg.switch id l (some stop) hs (selector ++ clauses) hkind]
    simp
  | loop hkind _ _ _ _ _ hstop _ ih => simp [hg.skip, hg.append, hkind, hstop, ih]
  | tryCatch hkind _ _ _ ih => simp [hg.skip, hkind, ih]
  | tryFinally hkind _ _ _ hentry _ _ hback hstop _ ihg ihf =>
    simp [hg.skip, hg.append, hkind, hentry, hback, hstop, ihg, ihf]
  | nil | declNil => rfl
  | target hkind _ _ ih => simp [hg.skip, hkind, ih]
  | @labelled E inner w past labels id l kids rest front h stop hr complaints events events'
      hopen _ _ _ iho ihr =>
    have hstop : g (if inner = E then .nil else .leaf stop (.ofKind .target)) = [] := by
      split <;> simp [hg.skip, hg.nil]
    rw [hg.append, hg.append, hg.append, hg.append, hg.front hopen, hg.labelForest,
      hstop, iho, ihr, List.nil_append, List.nil_append, List.nil_append, ← hg.append]
    rfl
  | withScope henter _ hinner _ hleave _ iho ihb ihr =>
    simp [hg.skip, henter, hinner, hleave, iho, ihb, ihr]
  | exit hleave hskip _ _ _ ih => simp [hg.skip, hleave, hskip, ih]
  | decl hkind _ ih => simp [hg.skip, hg.nil, hkind, ih]
  | declInit hkind _ _ _ _ ihi ihr =>
    simp [hg.skip, hg.nil, hkind, withKind, withLine, ihi, ihr]

end Collects

/-! ## Programs -/

/-- The variables of a lowered body that are accessed by their slots. -/
def Body.hasSlot (b : Body) (name : String) : Bool := b.usesSlots && (b.vars.get? name).isSome

/-- What stands below the root of a lowered body, without the nodes that lowering has made. -/
theorem Layout.Done.kept_eq {L : Layout} {config : Config} {s : LoweringState} {j : BodyId}
    {first : Nat} (hs : L.Sound s) (hj : j.index < L.size) (hd : L.Done config s j first) :
    (s.program.statements j).ids.filter (fun q => q.index < L.nodeCount) =
      (L.kids j).kept (s.program.body j).hasSlot false false none := by
  obtain ⟨h, events, changes, cut, hlow, hslotted⟩ := hd.exists_slotted hs
  have hold : (L.kids j).Old (L.site config j).first := ⟨kids_nodup hj, fun q hq => kids_lt hj hq⟩
  have hkept : h.uncut (s.program.body j).hasSlot L.nodeCount =
      (L.kids j).kept (s.program.body j).hasSlot false false none := hlow.kept_eq hold
  refine Eq.trans ?_ hkept
  by_cases huse : (s.program.body j).usesSlots
  · have hslot : (s.program.body j).hasSlot =
        fun name => ((s.program.body j).vars.get? name).isSome := by
      funext name
      simp [Body.hasSlot, huse]
    rw [hslot]
    exact hslotted.uncut_eq huse
  · have hnone : (s.program.body j).hasSlot = fun _ => false := by
      funext name
      simp [Body.hasSlot, huse]
    rw [hslotted.eq_of_not_may huse, hnone, uncut_none]

/-- Lowering the program of a document neither loses, repeats nor reorders code: the arena is still
linked and without cycles, each body stands below its root, and the nodes that it had before are
those that are kept, in the order in which they were. -/
theorem lower_keeps_order {script : Document.Script} {fallback : Option String} {p : Program}
    (hops : script.usesOperators) (hbuild : Document.build script fallback = .ok (.ok p))
    (config : Config) :
    ∃ p' diagnostics, p.lower config = .ok (p', diagnostics) ∧ p'.tree.Linked ∧ p'.tree.Acyclic ∧
      ∀ j : BodyId, j.index < p.bodies.size →
        (∃ l, p'.tree.Stands (.tree (p.body j).root l (p'.statements j))) ∧
        (p'.statements j).ids.filter (fun q => q.index < p.tree.size) =
          (p.statements j).kept (p'.body j).hasSlot false false none ∧
        ((p'.statements j).ids.filter (fun q => q.index < p.tree.size)).Sublist
          (p.statements j).ids := by
  obtain ⟨L, rfl⟩ := (Document.build_framed hops hbuild).1.exists_layout
  obtain ⟨s, hlower, hs, hdone, -⟩ := L.lower_eq config
  refine ⟨s.program, s.diagnostics, hlower, hs.linked, hs.acyclic, fun j hj => ?_⟩
  have hkept := (hdone j hj).kept_eq hs hj
  rw [← L.statements_eq hj] at hkept
  have hst := (hdone j hj).stands hs
  exact ⟨⟨_, hst⟩, hkept, hkept ▸ (Forest.kept_sublist_ids _).1 ..⟩

/-- A function that declares two variables, deletes one and returns it out of a try with a finally
block. -/
theorem lower_keeps_order_of_function :
    let script : Document.Script := ⟨none, [.function (.mk "f" [] [
      .var [.mk "x" (some .null), .mk "y" none] 1, .expr (.delete (.name "x")) 2,
      .tryCatch [.ret (some (.name "x")) 3] [] (some []) 3] 1 4 none)], 4⟩
    ∃ p p' diagnostics, script.usesOperators = true ∧ Document.build script none = .ok (.ok p) ∧
      p.lower {} = .ok (p', diagnostics) ∧
      (p'.statements ⟨1⟩).ids.filter (fun q => q.index < p.tree.size) =
        (p.statements ⟨1⟩).kept (p'.body ⟨1⟩).hasSlot false false none := by
  intro script
  have hops : script.usesOperators = true := by decide
  have hmade : Document.buildsTo script none (1 < ·.bodies.size) := by decide +kernel
  obtain ⟨p, hbuild, hsize⟩ := Document.exists_buildsTo hmade
  obtain ⟨p', diagnostics, hlower, -, -, hall⟩ := lower_keeps_order hops hbuild {}
  exact ⟨p, p', diagnostics, hops, hbuild, hlower, (hall ⟨1⟩ (of_decide_eq_true hsize)).2.1⟩

end ScriptEngine
