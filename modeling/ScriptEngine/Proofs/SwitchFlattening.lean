import ScriptEngine.Proofs.ClauseNotes
import ScriptEngine.Proofs.Determinism

/-!
# Switches are flattened

A switch is built with its selector and its clauses below it. Lowering leaves only the selector
there and puts the clauses behind the switch, with a target for breaks after the last of them. The
clauses are recorded when lowering comes to them, by the innermost switch that is open at that time.
-/

namespace ScriptEngine

open Forest Token

variable {t : Tree} {f cut h k : Forest} {p id : NodeId} {site : Site} {E : List Scope} {w : Nat}
  {past : Bool} {events : List Event} {rules : SlotRules} {changes : List SlotChange}
  {limits : Limits}

/-! ## Switches stay -/

namespace Forest

/-- The switches of a forest, in preorder. -/
def switches : Forest → List NodeId
  | .nil => []
  | .cons id l kids rest =>
    (if l.kind = .switch then [id] else []) ++ (kids.switches ++ rest.switches)

end Forest

private theorem Tree.Spells.switches_eq (h : t.Spells f) :
    f.switches = f.ids.filter (t.kind · = .switch) := by
  induction f with
  | nil => rfl
  | cons id l kids rest ihk ihr =>
    obtain ⟨⟨-, hlabel, -⟩, hkids, hrest⟩ := h
    have hkind : t.kind id = l.kind := by rw [t.kind_eq_label, hlabel]
    rw [switches, ids_cons, List.filter_cons, List.filter_append, ihk hkids, ihr hrest,
      hkind]
    split <;> simp_all

/-- The switches of a forest are told by its nodes. -/
theorem Forest.switches_collects : Collects switches
    fun id l _ => if l.kind = .switch then [id] else [] where
  nil := rfl
  cons _ _ _ _ := rfl
  quiet _ _ _ hkind := if_neg hkind.2
  property _ _ _ _ _ _ _ := rfl
  switch _ _ _ _ _ _ := rfl

/-- There are no switches in accesses. -/
theorem Slotted.switches_eq (hs : Slotted rules p changes cut h k)
    (hready : h.All (Node.Ready limits)) : k.switches = h.switches := by
  induction hs with
  | nil => rfl
  | keep _ _ _ ihk ihr => rw [switches, switches, ihk hready.2.1, ihr hready.2.2]
  | getVar _ hkind _ _ _ ih =>
    simp [switches, Node.withKind, Node.withAttr, hkind, ih hready.2.2]
  | setVar _ hkind _ hbind _ _ _ ihv ihr =>
    simp [switches, Node.withKind, Node.withAttr, hkind, hbind, ihv hready.2.1.2.2,
      ihr hready.2.2]
  | deleted _ hkind hbind _ _ _ ih =>
    -- Nothing but the name is below a deletion of a variable.
    obtain ⟨-, key, lk, rfl, hkey⟩ := hready.1.deletes hkind _ _ _ _ rfl hbind
    simp [switches, hkind, hbind, hkey, ih hready.2.2]

/-! ## Clauses -/

/-- Siblings that are clauses, as they were built and as they are in the end. -/
inductive Forest.ClausesKept : Forest → Forest → Prop
  | nil : ClausesKept .nil .nil
  | cons {id l l' kids kids' rest rest'} (hclause : l.kind.isClause) (hkind : l'.kind = l.kind)
      (hrest : ClausesKept rest rest') :
      ClausesKept (.cons id l kids rest) (.cons id l' kids' rest')

private theorem Token.holdsStatements_of_isClause {kind : Token} (h : kind.isClause) :
    kind.holdsStatements := by
  unfold isClause at h
  split at h <;> first | rfl | cases h

namespace Forest.ClausesKept

variable {g : Forest}

private theorem roots_eq (h : f.ClausesKept g) : g.roots = f.roots := by
  induction h with
  | nil => rfl
  | cons _ _ _ ih => rw [roots_cons, roots_cons, ih]

/-- Clauses are no accesses to variables. -/
theorem slotted (h : f.ClausesKept g) (hs : Slotted rules p changes cut g k) : f.ClausesKept k := by
  induction h generalizing changes cut k with
  | nil =>
    rw [hs.nil_inv.2.2]
    exact .nil
  | cons hclause hkind _ ih =>
    have hfirm := isFirm_of_holdsStatements (holdsStatements_of_isClause hclause)
    obtain ⟨_, _, _, _, kids', rest', rfl, -, hrest⟩ := hs.firm_inv (hkind ▸ hfirm)
    exact .cons hclause hkind (ih hrest)

private theorem kinds (h : f.ClausesKept g) {t' : Tree} (hf : t.Spells f) (hg : t'.Spells g) :
    ∀ c ∈ f.roots, (t.kind c).isClause ∧ t'.kind c = t.kind c := by
  induction h with
  | nil => simp
  | cons hclause hkind _ ih =>
    obtain ⟨⟨-, hlabel, -⟩, -, hrest⟩ := hf
    obtain ⟨⟨-, hlabel', -⟩, -, hrest'⟩ := hg
    rw [roots_cons, List.forall_mem_cons, t.kind_eq_label, t'.kind_eq_label, hlabel, hlabel']
    exact ⟨⟨hclause, hkind⟩, ih hrest hrest'⟩

/-- The clauses can be read off the tree. -/
theorem clauses_eq (h : f.ClausesKept g) (hf : t.Spells f) :
    f.clauses = f.roots.map fun c => (decide (t.kind c = .switchCase), c) := by
  induction h with
  | nil => rfl
  | cons hclause _ _ ih =>
    obtain ⟨⟨-, hlabel, -⟩, -, hrest⟩ := hf
    rw [clauses, if_pos hclause, ih hrest, roots_cons, List.map_cons, t.kind_eq_label, hlabel]

end Forest.ClausesKept

/-- Clauses are lowered to clauses. -/
theorem Lowered.clausesKept (hlow : Lowered site E .list w past f h events)
    (hplaced : f.Placed limits Token.isClause Token.isClause) : f.ClausesKept h := by
  induction f generalizing past h events with
  | nil =>
    rw [hlow.nil_inv.1]
    exact .nil
  | cons id l kids rest _ ih =>
    obtain ⟨hclause, -, -, hrest⟩ := hplaced
    have hkinds : l.kind = .switchCase ∨ l.kind = .switchDefault := by
      revert hclause
      unfold isClause
      split <;> simp_all
    have hkept : l.kind.isKept := by rcases hkinds with hk | hk <;> rw [hk] <;> rfl
    obtain ⟨h1, hr, events1, events2, rfl, -, hone, hrest'⟩ :=
      hlow.node_inv (isSingle_of_isKept hkept)
    obtain ⟨h2, events', rfl, -, -⟩ := hone.plain_inv hkept (by
      rcases hkinds with hk | hk <;> simp [hk])
    refine .cons hclause ?_ (ih hrest' hrest)
    rw [Node.kind_lowered, if_neg]
    rcases hkinds with hk | hk <;> simp [hk]

/-- What becomes of a switch: the selector stays below it, and the clauses are behind it, in front
of a target. -/
theorem Lowered.switch_made {l : Node} {kids : Forest}
    (hlow : Lowered site E .one w past (.tree id l kids) h events) (hkind : l.kind = .switch)
    (hplaced : kids.Placed limits l.kind.headBelow l.kind.tailBelow)
    (hs : Slotted rules p changes cut h k) :
    ∃ selector ls below clauses selector' clauses' stop, kids = .cons selector ls below clauses ∧
      k = .cons id (l.withStop (some stop)) selector' (clauses' ++ .leaf stop (.ofKind .target)) ∧
      Forest.OperandKept rules.first (.tree selector ls below) selector' ∧
      clauses.ClausesKept clauses' := by
  generalize hf : Forest.tree id l kids = f at hlow
  cases hlow with
  | @switch _ _ _ _ _ _ _ clauses _ _ stop _ _ _ _ _ hselector hclauses =>
    obtain ⟨selector, ls, below, rfl, -⟩ := hselector.single
    cases hf
    rw [hkind] at hplaced
    obtain ⟨hoperand, hnests, hbelow, hplaced⟩ := hplaced
    -- Neither the switch nor the target behind it are accesses to variables.
    obtain ⟨_, _, _, _, selector', rest', rfl, hsel, hrest⟩ :=
      hs.firm_inv (by rw [Node.withStop, hkind]; rfl)
    obtain ⟨clauses', last, _, _, _, _, rfl, hcl, hlast⟩ := hrest.append_inv
    rw [hlast.leaf_inv rfl]
    exact ⟨selector, ls, below, clauses, selector', clauses', stop, rfl, rfl,
      hselector.operandKept ⟨hoperand, hnests, hbelow, trivial⟩ hsel,
      (hclauses.clausesKept hplaced).slotted hcl⟩
  | _ =>
    obtain ⟨-, rfl, -⟩ := Forest.cons.inj hf
    simp_all [isKept, isPlain]

/-! ## Programs -/

/-- A switch that was built in the first program, and how it stands in a body of the second one. -/
structure Program.Flattens (p q : Program) (j : BodyId) (id selector : NodeId)
    (clauses : List NodeId) (stop : NodeId) : Prop where
  /-- The switch as it was built. -/
  children_before : p.tree.children id = selector :: clauses
  clause_kind : ∀ c ∈ clauses, (p.tree.kind c).isClause ∧ q.tree.kind c = p.tree.kind c
  /-- The selector is left. If it deletes a variable that has a slot, there is a constant for it. -/
  children_after : ∃ child, q.tree.children id = [child] ∧
    (child = selector ∨ p.tree.kind selector = .delProp ∧ q.tree.kind child = .falseValue)
  /-- The clauses are behind the switch, and a target is behind them. -/
  siblings : ∃ parent ∈ (q.body j).root :: (q.statements j).ids, ∃ before after,
    q.tree.children parent = before ++ id :: (clauses ++ stop :: after)
  stop_kind : q.tree.kind stop = .target
  /-- All the cases are recorded, and the last default. -/
  data_eq : (q.tree.node id).data = .switch
    { target := some stop
      cases := clauses.filter (p.tree.kind · = .switchCase)
      fallback := (clauses.filter (p.tree.kind · = .switchDefault)).getLast? }
  nodup : clauses.Nodup
  /-- No other node records a clause of this switch. -/
  unshared : ∀ other ≠ id, ∀ c ∈ clauses,
    c ∉ (q.tree.clauses other).cases ∧ (q.tree.clauses other).fallback ≠ some c

/-- The data of a switch are its target and the clauses that it has recorded. -/
theorem Tree.data_eq_of_clauses {target : Option NodeId}
    (hlabel : (t.label id).data = .switch { target }) :
    (t.node id).data = .switch { t.clauses id with target } := by
  have hdata : (t.node id).data.withoutClauses = .switch { target } := hlabel
  rw [Tree.clauses]
  cases h : (t.node id).data with
  | switch data =>
    rw [h] at hdata
    cases hdata
    rfl
  | none | jump | function =>
    rw [h] at hdata
    cases hdata

/-- Clauses that are read off a tree, once they are recorded. -/
theorem SwitchData.recordAll_kinds {clauses : List NodeId} {kind : NodeId → Token}
    (hclause : ∀ c ∈ clauses, (kind c).isClause) :
    recordAll {} (clauses.map fun c => (decide (kind c = .switchCase), c)) =
      { cases := clauses.filter (kind · = .switchCase)
        fallback := (clauses.filter (kind · = .switchDefault)).getLast? } := by
  have hcases : ((clauses.map fun c => (decide (kind c = .switchCase), c)).filter (·.1)).map
      Prod.snd = clauses.filter (kind · = .switchCase) := by
    simp [List.filter_map, Function.comp_def]
  have hdefaults : ((clauses.map fun c => (decide (kind c = .switchCase), c)).filter (!·.1)).map
      Prod.snd = clauses.filter (kind · = .switchDefault) := by
    simp only [List.filter_map, List.map_map, Function.comp_def, List.map_id']
    refine List.filter_congr fun c hc => ?_
    have hkind := hclause c hc
    unfold isClause at hkind
    split at hkind <;> simp_all
  rw [recordAll_eq, hcases, hdefaults, List.nil_append, Option.or_none]

namespace Layout

variable {L : Layout} {config : Config} {s : LoweringState} {j : BodyId} {first : Nat}

/-- A body that is lowered has the switches that it had. -/
theorem Done.switches_eq (hs : L.Sound s) (hd : L.Done config s j first) :
    (s.program.statements j).switches = (L.kids j).switches := by
  obtain ⟨h, events, changes, cut, hlow, hslotted⟩ := hd.exists_slotted hs
  rw [hslotted.switches_eq (hlow.ready (L.fits j)), switches_collects.lowered_eq hlow]

/-- The switches of a body that is lowered are flattened. -/
theorem Done.flattens (hframed : L.program.Framed []) (hs : L.Sound s)
    (hd : L.Done config s j first) (hj : j.index < L.size)
    (htells : L.TellsAll config { s.ledger with hasFinally := false }) {place : ScriptEngine.Place}
    (hin : place ∈ (L.program.statements j).places [] none) (hkind : place.label.kind = .switch) :
    ∃ selector clauses stop, L.program.Flattens s.program j place.node selector clauses stop := by
  obtain ⟨id, l, kids, around⟩ := place
  obtain ⟨_, _, _, _, _, _, _, _, made, hlow, -, hslotted, hplace⟩ :=
    hd.exists_inPlace hframed hs hj hin (by rw [hkind]; rfl)
  have hplaced := (hframed.placed hj).place hin
  obtain ⟨selector, ls, below, clauses, selector', clauses', stop, rfl, rfl, hselector, hclauses⟩ :=
    hlow.switch_made hkind hplaced hslotted
  -- The switch as it was built, and as it is in the end.
  obtain ⟨⟨-, -, hchildren⟩, ⟨⟨-, hlabel, -⟩, -, hbuilt⟩, -⟩ := (L.spells_statements hj).place hin
  obtain ⟨⟨⟨-, hlabel', hchildren'⟩, hselected, hrest⟩, parent, hparent, before, after, hsiblings,
    -⟩ := hd.standsFor hframed hs hj hplace
  obtain ⟨hmade, ⟨-, hstop, -⟩, -⟩ := Tree.spells_append.mp hrest
  have hkinds := hclauses.kinds hbuilt hmade
  have hinside {c : NodeId} (hc : c ∈ clauses.roots) : c ∈ L.program.tree.children id := by
    rw [hchildren]
    exact List.mem_cons_of_mem _ hc
  refine ⟨selector, clauses.roots, stop, hchildren, hkinds, ?_, ?_, ?_, ?_, ?_, ?_⟩
  · cases hselector with
    | same => exact ⟨selector, hchildren', .inl rfl⟩
    | @deleted _ _ _ constant _ hdelete =>
      obtain ⟨-, hconstant, -⟩ := hselected.1
      refine ⟨constant, hchildren', .inr ⟨?_, ?_⟩⟩
      · rw [Tree.kind_eq_label, hlabel, hdelete]
      · rw [Tree.kind_eq_label, hconstant]
        rfl
  · rw [hs.root_eq j]
    refine ⟨parent, hparent, before, after, hsiblings.trans ?_⟩
    simp [hclauses.roots_eq]
  · rw [Tree.kind_eq_label, hstop]
    rfl
  · have hrecorded : s.tree.clauses id = _ := clauses_place hframed htells hj hin
    have hread : (Forest.cons selector ls below clauses).clauses =
        clauses.roots.map fun c => (decide (L.program.tree.kind c = .switchCase), c) := by
      rw [← hclauses.clauses_eq hbuilt, Forest.clauses, if_neg]
      rw [hkind] at hplaced
      simpa [isFree] using isFree_of_isOperand hplaced.1
    rw [Tree.data_eq_of_clauses (congrArg Node.data hlabel'), hrecorded, if_pos hkind, hread,
      SwitchData.recordAll_kinds fun c hc => (hkinds c hc).1]
  · have hnodup := L.linked.nodup id
    rw [hchildren] at hnodup
    exact (List.nodup_cons.mp hnodup).2
  · intro other hne c hc
    rw [← not_or]
    intro hrecorded
    have hother : c ∈ L.program.tree.children other :=
      mem_children_of_recorded hframed htells hrecorded
    exact hne (L.linked.unique _ _ c hother (hinside hc))

end Layout

/-- Lowering flattens switches. A body has the switches that it had, in their order. Each one has
its selector below it and its clauses behind it, in their order and with nothing between them, in
front of its target. It has recorded its cases and its last default, which no other switch has. -/
theorem switches_flattened {script : Document.Script} {fallback : Option String} {p : Program}
    (hops : script.usesOperators) (hbuild : Document.build script fallback = .ok (.ok p))
    (config : Config) :
    ∃ q diagnostics, p.lower config = .ok (q, diagnostics) ∧ q.bodies.size = p.bodies.size ∧
      ∀ j : BodyId, j.index < p.bodies.size →
        (q.statements j).ids.filter (q.tree.kind · = .switch) =
          (p.statements j).ids.filter (p.tree.kind · = .switch) ∧
        ∀ id ∈ (q.statements j).ids, q.tree.kind id = .switch →
          ∃ selector clauses stop, p.Flattens q j id selector clauses stop := by
  have hframed := (Document.build_framed hops hbuild).1
  obtain ⟨L, rfl⟩ := hframed.exists_layout
  obtain ⟨s, hlower, hs, hdone, htells⟩ := L.lower_eq config
  refine ⟨s.program, s.diagnostics, hlower, hs.bodies_size, fun j hj => ?_⟩
  have hd := hdone j hj
  have hspells : s.tree.Spells (s.program.statements j) := (hd.stands hs).1.2.1
  have hbuilt := L.spells_statements hj
  have hsame : (s.program.statements j).ids.filter (s.tree.kind · = .switch) =
      (L.program.statements j).ids.filter (L.program.tree.kind · = .switch) := by
    rw [← hspells.switches_eq, ← hbuilt.switches_eq, hd.switches_eq hs, L.statements_eq hj]
  refine ⟨hsame, fun id hid hkind => ?_⟩
  -- The switch was there before.
  have hmem : id ∈ (L.program.statements j).ids.filter (L.program.tree.kind · = .switch) := by
    rw [← hsame]
    exact List.mem_filter.mpr ⟨hid, decide_eq_true hkind⟩
  obtain ⟨hmem, hkind⟩ := List.mem_filter.mp hmem
  rw [← Forest.map_places _ [] none] at hmem
  obtain ⟨place, hin, rfl⟩ := List.mem_map.mp hmem
  obtain ⟨⟨-, hlabel, -⟩, -⟩ := hbuilt.place hin
  rw [decide_eq_true_eq, Tree.kind_eq_label, hlabel] at hkind
  exact hd.flattens hframed hs hj htells hin hkind

/-- A switch with two cases and two defaults, and another one in the first case, in a with
statement. -/
theorem switches_flattened_of_nested :
    let script : Document.Script := ⟨none, [.switch (.name "x") [
      .mk (some (.name "a")) [.withScope (.name "o") (.switch (.name "y") [
        .mk none [.breakTo none 3]] 2) 2],
      .mk none [], .mk (some (.name "b")) [.breakTo none 4], .mk none []] 1], 5⟩
    ∃ p q diagnostics, script.usesOperators = true ∧ Document.build script none = .ok (.ok p) ∧
      p.lower {} = .ok (q, diagnostics) ∧ ∃ outer inner, outer ≠ inner ∧
        (∃ selector clauses stop, clauses.length = 4 ∧
          p.Flattens q ⟨0⟩ outer selector clauses stop) ∧
        ∃ selector clauses stop, clauses.length = 1 ∧
          p.Flattens q ⟨0⟩ inner selector clauses stop := by
  intro script
  have hops : script.usesOperators = true := by decide
  have hmade : Document.buildsTo script none (fun p => (p.lower {}).toOption.any fun r =>
      decide (0 < p.bodies.size ∧ (∃ id ∈ (r.1.statements ⟨0⟩).ids,
        r.1.tree.kind id = .switch ∧ (p.tree.children id).length = 5) ∧
      ∃ id ∈ (r.1.statements ⟨0⟩).ids, r.1.tree.kind id = .switch ∧
        (p.tree.children id).length = 2)) = true := by
    decide +kernel
  obtain ⟨p, hbuild, htest⟩ := Document.exists_buildsTo hmade
  obtain ⟨q, diagnostics, hlower, -, hall⟩ := switches_flattened hops hbuild {}
  rw [hlower] at htest
  obtain ⟨hsize, ⟨outer, houter, hswitch, hfive⟩, inner, hinner, hswitch', htwo⟩ :=
    of_decide_eq_true htest
  have hflat {id : NodeId} (hid : id ∈ (q.statements ⟨0⟩).ids) (hkind : q.tree.kind id = .switch)
      {n : Nat} (hn : (p.tree.children id).length = n + 1) :
      ∃ selector clauses stop, clauses.length = n ∧ p.Flattens q ⟨0⟩ id selector clauses stop := by
    obtain ⟨selector, clauses, stop, hflat⟩ := (hall ⟨0⟩ hsize).2 id hid hkind
    rw [hflat.children_before] at hn
    exact ⟨selector, clauses, stop, Nat.succ.inj hn, hflat⟩
  refine ⟨p, q, diagnostics, hops, hbuild, hlower, outer, inner, ?_, hflat houter hswitch hfive,
    hflat hinner hswitch' htwo⟩
  rintro rfl
  omega

end ScriptEngine
