import ScriptEngine.Proofs.LoweringStates

/-!
# Steps of the walk

The walk stands before siblings in a child list and has a forest in front of it. `Layout.Reaches`
says that it gets past the forest: with so much fuel it goes on behind it in another state, in which
what the forest has become stands in its place. The rules follow the shape of a forest: one after
the other, a node over what is below it, a node that is changed before its children are visited.

A forest comes with a budget, the number of steps that its own nodes take; bodies that are met on
the way are paid for by what waits.

## Key results

- `Layout.Reaches.append`, `Layout.Reaches.followed`: past one forest and then past the next
- `Layout.Reaches.tree`: past a node by way of its children
- `Layout.Reaches.rework`, `Layout.Reaches.pass`: a node is changed first
- `Layout.reaches_close`: a target or the end of a with scope closes the scopes that end there
-/

namespace ScriptEngine

open Lowering Forest ScriptEngine.Tree

variable {s s1 : LoweringState} {α : Type} {config : Config} {p id node q : NodeId}
  {rules : SlotRules}

/-! ## Computations on the state -/

/-- The state with another arena. -/
def LoweringState.withTree (s : LoweringState) (t : Tree) : LoweringState :=
  { s with program := { s.program with tree := t } }

@[simp] theorem LoweringState.tree_withTree (s : LoweringState) (t : Tree) :
    (s.withTree t).tree = t := rfl

/-- Siblings at work. -/
def LoweringState.plot (s : LoweringState) (p : NodeId) (before : List NodeId) (f : Forest)
    (after : List NodeId) : Plot := ⟨s.tree, p, before, f.ids, after⟩

/-- An arena with the same clauses. -/
theorem LoweringState.follows_withTree (s : LoweringState) (i : BodyId) {t : Tree}
    (h : t.clauses = s.tree.clauses) : s.Follows i [] (s.withTree t) :=
  .of_ledger (congrArg (Ledger.mk s.started s.program.bodies s.diagnostics s.body.hasFinally) h)
    rfl rfl

namespace Lowering

variable {β : Type}

theorem runs_tree {g : Tree → LowerM β} {post : β → LoweringState → Prop}
    (h : Runs (g s.tree) s post) : Runs (Lowering.tree >>= g) s post := h

theorem runs_openBody {g : OpenBody → LowerM β} {post : β → LoweringState → Prop}
    (h : Runs (g s.body) s post) : Runs (openBody >>= g) s post := h

/-- A computation on the tree changes nothing else. -/
theorem runs_onTree {m : TreeM α} {r : α → Tree → Prop} (h : Runs m s.tree r) :
    Runs (onTree m) s fun a s1 => ∃ t, s1 = s.withTree t ∧ r a t := by
  obtain ⟨a, t, hrun, hpost⟩ := h
  refine ⟨a, _, ?_, t, rfl, hpost⟩
  have hm : m s.tree = .ok (a, t) := hrun
  simp only [onTree, StateT.run, hm, bind, Except.bind, pure, Except.pure]
  rfl

/-- A computation on the tree, by what it does there. -/
theorem runs_onTree_of {m : TreeM α} {post' : α → LoweringState → Prop} (post : α → Tree → Prop)
    (h : Runs m s.tree post) (hpost : ∀ a t, post a t → post' a (s.withTree t)) :
    Runs (onTree m) s post' := by
  refine (runs_onTree h).mono ?_
  rintro a _ ⟨t, rfl, ht⟩
  exact hpost a t ht

variable {fuel : Nat}

/-- What is left to do after a node has been changed: its children, and what is behind it. -/
def below (config : Config) (p id : NodeId) (fuel : Nat) : LowerM Unit := do
  walk config fuel id ((← Lowering.tree).firstChild? id)
  walk config fuel p ((← Lowering.tree).next? id)

/-- What is done with a node depends on its kind. -/
theorem lowerNode_run {kind : Token} (hk : s.tree.kind node = kind) :
    (lowerNode config p node).run s = (lowerKind config p node kind).run s := by
  subst hk
  rfl

theorem walk_none : (walk config fuel p none).run s = .ok ((), s) := by
  cases fuel <;> rfl

private theorem walk_children (h : (lowerNode config p node).run s = .ok (.children id, s1)) :
    (walk config (fuel + 1) p (some node)).run s = (below config p id fuel).run s1 := by
  rw [walk, StateT.run_bind, h]
  rfl

/-- Past a node at which all is done. -/
theorem walk_done (h : (lowerNode config p node).run s = .ok (.done id, s1)) :
    (walk config (fuel + 1) p (some node)).run s =
      (walk config fuel p (s1.tree.next? id)).run s1 := by
  rw [walk, StateT.run_bind, h]
  rfl

/-- Past a node without children. -/
theorem walk_childless (h : (lowerNode config p node).run s = .ok (.children id, s1))
    (hfirst : s1.tree.firstChild? id = none) :
    (walk config (fuel + 1) p (some node)).run s =
      (walk config fuel p (s1.tree.next? id)).run s1 := by
  rw [walk_children h]
  show (do walk config fuel id (s1.tree.firstChild? id); _ : LowerM Unit).run s1 = _
  rw [StateT.run_bind, hfirst, walk_none]
  rfl

end Lowering

/-- Kinds at which lowering does nothing. -/
def Token.isQuiet : Token → Bool
  | .function | .label | .switch | .switchCase | .switchDefault | .loop | .withBody | .tryStmt
  | .target | .leaveWith | .ret | .breakStmt | .continueStmt | .call | .new | .getProp | .exprStmt
  | .var | .name | .setName | .delProp => false
  | _ => true

namespace Layout

/-- How many steps one node may cost: a few, and one for each scope that a jump leaves. -/
def weight (L : Layout) : Nat := L.nodeCount + 4

/-! ## Places -/

/-- The body is a function that may do without an activation record. -/
def Eager (L : Layout) (i : BodyId) (s : LoweringState) : Prop :=
  (L.program.body i).isFunction = true ∧ (s.program.body i).requiresActivation = false

/-- What is known while a scope is open. -/
structure Opens (L : Layout) (s : LoweringState) (i : BodyId) (scope : Scope) : Prop where
  targets : scope.Open s.tree
  exit_lt : scope.exit.index < s.tree.size
  final : scope.kind = .tryStmt → s.body.hasFinally = true
  active : scope.kind = .withBody → ¬ L.Eager i s

/-- The walk is in a body, inside scopes. -/
structure Place (L : Layout) (s : LoweringState) (i : BodyId) (scopes : List Scope) : Prop where
  sound : L.Sound s
  body_lt : i.index < L.size
  taken : ¬ s.Waits i
  body_id : s.body.id = i
  inFunction : s.body.inFunction = (L.program.body i).isFunction
  regions : s.body.regions = scopes.map Scope.region
  opens : ∀ scope ∈ scopes, L.Opens s i scope
  scope_lt : ∀ scope ∈ scopes, scope.node.index < s.tree.size
  scope_clear : ∀ scope ∈ scopes, L.Clear s scope.node

/-- A forest of the current body below a node, apart from the scopes around it. -/
structure Held (L : Layout) (s : LoweringState) (scopes : List Scope) (p : NodeId) (f : Forest) :
    Prop where
  parent_lt : p.index < s.tree.size
  parent_clear : L.Clear s p
  spells : s.tree.Spells f
  clear : ∀ q ∈ f.ids, L.Clear s q
  nodup : f.ids.Nodup
  parent_not : p ∉ f.ids
  apart : ∀ scope ∈ scopes, scope.node ∉ f.ids ∧ scope.exit ∉ f.ids

/-- In the place of a forest stands what it has become. -/
structure Landing (L : Layout) (config : Config) (i : BodyId) (p : NodeId)
    (before after : List NodeId) (f h k : Forest) (changes : List SlotChange) (cut : Forest)
    (events : List Event) (s s' : LoweringState) : Prop where
  stretch : L.Stretch config i events f.ids p s s'
  list_eq : s'.tree.children p = before ++ k.roots ++ after
  spells : s'.tree.Spells k
  ids : ∀ q ∈ k.ids, q ∈ f.ids ∨ s.tree.size ≤ q.index
  slotted : Slotted (L.slotRules i (L.Eager i s')) p changes cut h k
  cut_stands : s'.tree.Stands cut
  cut_ids : ∀ q ∈ cut.ids, q ∈ f.ids ∨ s.tree.size ≤ q.index
  cut_nodup : cut.ids.Nodup
  changes_eq : s'.body.changes = changes ++ s.body.changes

/-- What is known of a forest that has been passed: of the flag before it, of the events, and of the
forest that it has become. -/
abbrev Outcome := Bool → List Event → Forest → Prop

/-- One forest and then the next. -/
def Outcome.append (r r' : Outcome) : Outcome := fun past events h =>
  ∃ events1 events2 h1 h2, events = events1 ++ events2 ∧ h = h1 ++ h2 ∧ r past events1 h1 ∧
    r' (met past events1) events2 h2

/-- A node over a forest. -/
def Outcome.tree (id : NodeId) (l : Node) (r : Outcome) : Outcome := fun past events h =>
  ∃ hk, h = .tree id l hk ∧ r past events hk

/-- Some events and then others. -/
def Outcome.behind (first : List Event) (r : Outcome) : Outcome := fun past events h =>
  ∃ events', events = first ++ events' ∧ r (met past first) events' h

/-- The forest is known, and nothing is noted. -/
def Outcome.just (f : Forest) : Outcome := fun _ events h => events = [] ∧ h = f

/-- The walk gets past a forest. -/
def Reaches (L : Layout) (config : Config) (m : Nat → LowerM Unit) (s : LoweringState) (i : BodyId)
    (scopes : List Scope) (p : NodeId) (before : List NodeId) (f : Forest) (after : List NodeId)
    (result : Outcome) (budget : Nat) : Prop :=
  ∃ s' h k changes cut events need cost,
    (∀ fuel, need ≤ fuel →
      (m (fuel + cost)).run s = (walk config fuel p after.head?).run s') ∧
    cost ≤ budget ∧ need + cost ≤ budget + L.weight * L.pending s ∧
    L.Landing config i p before after f h k changes cut events s s' ∧
    s'.body.regions = scopes.map Scope.region ∧ result s.body.hasFinally events h

/-- The walk gets past a forest that is in front of it. -/
abbrev Walks (L : Layout) (config : Config) (s : LoweringState) (i : BodyId) (scopes : List Scope)
    (p : NodeId) (before : List NodeId) (f : Forest) (after : List NodeId) (result : Outcome)
    (budget : Nat) : Prop :=
  L.Reaches config (fun fuel => walk config fuel p (f.roots ++ after).head?) s i scopes p before f
    after result budget

variable {L : Layout} {s' : LoweringState} {i : BodyId}
  {scopes scopes' scopes1 scopes2 : List Scope}
  {before after own : List NodeId} {f g h k kids : Forest} {l : Node}
  {changes : List SlotChange} {cut loose : Forest} {m : Nat → LowerM Unit} {budget budget' : Nat}
  {events events' : List Event} {result result' : Outcome} {clauses : NodeId → SwitchData}

/-- A body that may do without an activation record could do so before. -/
theorem Stretch.eager (h : L.Stretch config i events own p s s') (he : L.Eager i s') :
    L.Eager i s := by
  refine ⟨he.1, Bool.eq_false_iff.mpr fun hs => ?_⟩
  have : (s'.program.body i).requiresActivation = true := h.tells.activation_mono hs
  rw [he.2] at this
  cases this

namespace Held

/-- A part of a forest that is held, below its own parent. -/
theorem focus {p' : NodeId} (hh : L.Held s scopes p f) (hsub : ∀ q ∈ g.ids, q ∈ f.ids)
    (hlt : p'.index < s.tree.size) (hclear : L.Clear s p') (hspells : s.tree.Spells g)
    (hnodup : g.ids.Nodup) (hnot : p' ∉ g.ids) : L.Held s scopes p' g :=
  ⟨hlt, hclear, hspells, fun q hq => hh.clear q (hsub q hq), hnodup, hnot, fun scope hs =>
    ⟨fun hin => (hh.apart scope hs).1 (hsub _ hin), fun hin => (hh.apart scope hs).2 (hsub _ hin)⟩⟩

/-- The front of a forest that is held. -/
theorem left (hh : L.Held s scopes p (f ++ g)) : L.Held s scopes p f := by
  have hsub : ∀ q ∈ f.ids, q ∈ (f ++ g).ids := fun q hq => by simp [hq]
  have hnd := hh.nodup
  rw [ids_append] at hnd
  exact hh.focus hsub hh.parent_lt hh.parent_clear (spells_append.mp hh.spells).1
    (List.nodup_append.mp hnd).1 fun hp => hh.parent_not (hsub p hp)

/-- The back of a forest that is held. -/
theorem right (hh : L.Held s scopes p (f ++ g)) : L.Held s scopes p g := by
  have hsub : ∀ q ∈ g.ids, q ∈ (f ++ g).ids := fun q hq => by simp [hq]
  have hnd := hh.nodup
  rw [ids_append] at hnd
  exact hh.focus hsub hh.parent_lt hh.parent_clear (spells_append.mp hh.spells).2
    (List.nodup_append.mp hnd).2.1 fun hp => hh.parent_not (hsub p hp)

/-- The front shares no nodes with the back. -/
theorem disjoint (hh : L.Held s scopes p (f ++ g)) : ∀ q ∈ f.ids, q ∉ g.ids := by
  have hnd := hh.nodup
  rw [ids_append] at hnd
  exact fun q hq hq' => (List.nodup_append.mp hnd).2.2 q hq q hq' rfl

/-- What is below a node is held by that node. -/
theorem below (hh : L.Held s scopes p (.tree id l kids)) : L.Held s scopes id kids := by
  obtain ⟨⟨hb, hl, hc⟩, hk, -⟩ := hh.spells
  have hnd := hh.nodup
  simp only [ids_cons, ids_nil, List.append_nil, List.nodup_cons] at hnd
  exact hh.focus (by simp +contextual) hb (hh.clear id (by simp)) hk hnd.2 hnd.1

/-- A scope that a node opens is apart from what is below the node, if its end is. -/
theorem open_scope {scope : Scope} (hh : L.Held s scopes p f) (hnode : scope.node ∉ f.ids)
    (hexit : scope.exit ∉ f.ids) : L.Held s (scope :: scopes) p f :=
  { hh with apart := by rintro c (_ | ⟨_, hc⟩); exacts [⟨hnode, hexit⟩, hh.apart c hc] }

/-- What is done with the first node depends on its kind. -/
theorem lowered_by {m : LowerM α} {v : α → Visit} {rest : Forest} {post : α → LoweringState → Prop}
    (config : Config) (hh : L.Held s scopes p (.cons id l kids rest))
    (hkind : lowerKind config p id l.kind = m >>= fun a => pure (v a)) (h : Runs m s post) :
    ∃ a s1, (lowerNode config p id).run s = .ok (v a, s1) ∧ post a s1 := by
  obtain ⟨a, s1, hrun, hpost⟩ := h
  refine ⟨a, s1, ?_, hpost⟩
  rw [lowerNode_run (by rw [kind_eq_label, hh.spells.1.2.1]), hkind, StateT.run_bind, hrun]
  rfl

/-- Work elsewhere leaves a forest where it is. -/
theorem stretch (hh : L.Held s scopes p f) {p1 : NodeId}
    (hst : L.Stretch config i events own p1 s s')
    (hown : ∀ q ∈ f.ids, q ∉ own) (hp : p1 ∉ f.ids) : L.Held s' scopes p f :=
  ⟨Nat.lt_of_lt_of_le hh.parent_lt hst.size_le, hh.parent_clear.mono hst.waits,
    hst.spells hh.spells (fun q hq => ⟨hown q hq, hh.clear q hq⟩) hp,
    fun q hq => (hh.clear q hq).mono hst.waits, hh.nodup, hh.parent_not, hh.apart⟩

/-- Edits of a forest that is held. -/
theorem stretch_of_edits (hh : L.Held s scopes p f) (hs : L.Sound s)
    (he : s.tree.Edits f.ids p s'.tree) (hf : s.Follows i events s') :
    L.Stretch config i events f.ids p s s' :=
  .of_edits hs he (by rintro q (_ | ⟨_, hq⟩); exacts [hh.parent_clear, hh.clear q hq]) hf

end Held

/-- After work in other places, some of the scopes are still open, and perhaps new ones. -/
theorem Place.stretch (hp : L.Place s i scopes) (hst : L.Stretch config i events own p s s')
    (hregions : s'.body.regions = scopes'.map Scope.region)
    (hscopes : ∀ scope ∈ scopes', (scope ∈ scopes ∧ scope.node ∉ own) ∨
      (L.Opens s' i scope ∧ scope.node.index < s'.tree.size ∧ L.Clear s' scope.node)) :
    L.Place s' i scopes' := by
  have hle := hst.size_le
  refine ⟨hst.sound, hp.body_lt, fun h => hp.taken (hst.waits _ h), hst.id_eq.trans hp.body_id,
    hst.inFunction_eq.trans hp.inFunction, hregions, fun scope hs => ?_, fun scope hs => ?_,
    fun scope hs => ?_⟩ <;>
    rcases hscopes scope hs with ⟨hold, hnot⟩ | ⟨hopen, hlt, hclear⟩
  · obtain ⟨htargets, hexit, hfinal, hactive⟩ := hp.opens scope hold
    refine ⟨htargets.congr (hst.label_eq _ (hp.scope_lt scope hold) hnot
      (hp.scope_clear scope hold)), by omega, fun hk => ?_, fun hk he => hactive hk (hst.eager he)⟩
    rw [hst.hasFinally_eq, hfinal hk, met_true]
  · exact hopen
  · have := hp.scope_lt scope hold
    omega
  · exact hlt
  · exact (hp.scope_clear scope hold).mono hst.waits
  · exact hclear

namespace Landing

private theorem place (hl : L.Landing config i p before after f h k changes cut events s s')
    (hp : L.Place s i scopes) (hh : L.Held s scopes p f)
    (hregions : s'.body.regions = scopes'.map Scope.region)
    (hsub : ∀ scope ∈ scopes', scope ∈ scopes) : L.Place s' i scopes' :=
  hp.stretch hl.stretch hregions fun scope hs =>
    .inl ⟨hsub scope hs, (hh.apart scope (hsub scope hs)).1⟩

/-- What stands in the new forest or has been cut away is in no body that waits, nor among other
nodes that were there before. -/
theorem clear_of_ids (hl : L.Landing config i p before after f h k changes cut events s s')
    (hs : L.Sound s) (hh : L.Held s scopes p f)
    (hq : q ∈ f.ids ∨ s.tree.size ≤ q.index) : L.Clear s' q := by
  rcases hq with hq | hq
  · exact (hh.clear q hq).mono hl.stretch.waits
  · exact hl.stretch.sound.clear_of_le (Nat.le_trans hs.size_le hq)

end Landing

private theorem Held.not_mem_of_ids (hg : L.Held s scopes p g) (hdis : ∀ q ∈ f.ids, q ∉ g.ids)
    (hq : q ∈ f.ids ∨ s.tree.size ≤ q.index) : q ∉ g.ids := by
  intro hin
  rcases hq with hq | hq
  · exact hdis q hq hin
  · have := hg.spells.bound hin
    omega

private theorem Held.parent_not_of_ids (hh : L.Held s scopes p f)
    (hq : q ∈ f.ids ∨ s.tree.size ≤ q.index) : q ≠ p := by
  rintro rfl
  rcases hq with hq | hq
  · exact hh.parent_not hq
  · have := hh.parent_lt
    omega

/-- What one forest has become, and then what the next has become. -/
theorem Landing.append {s2 : LoweringState} {h' k' cut' : Forest} {changes' : List SlotChange}
    (hl : L.Landing config i p before (g.roots ++ after) f h k changes cut events s s1)
    (hl' : L.Landing config i p (before ++ k.roots) after g h' k' changes' cut' events' s1 s2)
    (hs : L.Sound s) (htaken : ¬ s.Waits i) (hhf : L.Held s scopes p f) (hhg : L.Held s scopes' p g)
    (hdis : ∀ q ∈ f.ids, q ∉ g.ids) :
    L.Landing config i p before after (f ++ g) (h ++ h') (k ++ k')
    (changes' ++ changes) (cut ++ cut')
      (events ++ events') s s2 := by
  -- The nodes of the first part are as the first stretch left them.
  have hkeep : ∀ q, q ∈ f.ids ∨ s.tree.size ≤ q.index → q ∉ g.ids ∧ L.Clear s1 q :=
    fun q hq => ⟨hhg.not_mem_of_ids hdis hq, hl.clear_of_ids hs hhf hq⟩
  have hle := hl.stretch.size_le
  refine ⟨hl.stretch.trans hl'.stretch hs htaken (by simp +contextual) (.inl rfl)
      (by simp +contextual) (fun _ => .inl rfl) ?_ (.inr ?_), ?_, ?_, ?_,
    (hl.slotted.relax hl'.stretch.eager).append hl'.slotted, ?_, ?_, ?_, ?_⟩
  · rintro q (_ | ⟨_, hq⟩)
    exacts [hhf.parent_clear, hhg.clear q hq]
  · rintro q (_ | ⟨_, hq⟩)
    exacts [hhf.parent_lt, hhg.spells.bound hq]
  · rw [hl'.list_eq]
    simp
  · rw [spells_append]
    refine ⟨hl'.stretch.spells hl.spells (fun q hq => hkeep q (hl.ids q hq)) fun hin => ?_,
      hl'.spells⟩
    exact hhf.parent_not_of_ids (hl.ids p hin) rfl
  · intro q hq
    rw [ids_append, List.mem_append] at hq
    rw [ids_append, List.mem_append]
    rcases hq with hq | hq
    · exact (hl.ids q hq).imp_left .inl
    · exact (hl'.ids q hq).imp .inr fun h => by omega
  · rw [stands_append]
    refine ⟨hl'.stretch.stands hl.cut_stands (fun q hq => hkeep q (hl.cut_ids q hq))
      fun hin => ?_, hl'.cut_stands⟩
    exact hhf.parent_not_of_ids (hl.cut_ids p hin) rfl
  · intro q hq
    rw [ids_append, List.mem_append] at hq
    rw [ids_append, List.mem_append]
    rcases hq with hq | hq
    · exact (hl.cut_ids q hq).imp_left .inl
    · exact (hl'.cut_ids q hq).imp .inr fun h => by omega
  · rw [ids_append]
    refine List.nodup_append.mpr ⟨hl.cut_nodup, hl'.cut_nodup, ?_⟩
    rintro q hq _ hq' rfl
    have hb := hl.cut_stands.1.bound hq
    rcases hl'.cut_ids q hq' with hg' | hge
    · exact (hkeep q (hl.cut_ids q hq)).1 hg'
    · omega
  · rw [hl'.changes_eq, hl.changes_eq, List.append_assoc]

/-- Scopes that a node has opened are still open behind it. -/
theorem Landing.place_open {opened : List Scope} {hk : Forest}
    (hl : L.Landing config i p before after (.tree id l kids)
    (.tree id l hk) k changes cut events s s')
    (hp : L.Place s i (opened ++ scopes)) (hh : L.Held s scopes' p (.tree id l kids))
    (hnodes : ∀ scope ∈ scopes, scope.node ∉ (Forest.tree id l kids).ids)
    (hkind : l.kind.isAccess = false)
    (hopened : ∀ scope ∈ opened, scope.node = id)
    (hregions : s'.body.regions = (opened ++ scopes).map Scope.region) :
    L.Place s' i (opened ++ scopes) := by
  have hlabel : s'.tree.label id = s.tree.label id := by
    obtain ⟨_, _, _, _, _, _, -, -, rfl, -, -⟩ := hl.slotted.cons_inv hkind
    rw [hl.spells.1.2.1, hh.spells.1.2.1]
  have hle := hl.stretch.size_le
  refine hp.stretch hl.stretch hregions fun scope hs => ?_
  rcases List.mem_append.mp hs with hs' | hs'
  · obtain ⟨htargets, hexit, hfinal, hactive⟩ := hp.opens scope hs
    have hlt := hp.scope_lt scope hs
    rw [← hopened scope hs'] at hlabel
    refine .inr ⟨⟨htargets.congr hlabel, by omega, fun hk => ?_,
      fun hk he => hactive hk (hl.stretch.eager he)⟩, by omega,
      (hp.scope_clear scope hs).mono hl.stretch.waits⟩
    rw [hl.stretch.hasFinally_eq, hfinal hk, met_true]
  · exact .inl ⟨hs, hnodes scope hs'⟩

/-- Work on a forest that is held. -/
theorem Held.has (hh : L.Held s scopes p f) (hs : L.Sound s)
    (hlist : s.tree.children p = before ++ f.roots ++ after) :
    (s.plot p before f after).Has s.tree.clauses s.tree f .nil :=
  .start hs.linked hh.spells hh.nodup hh.parent_lt hh.parent_not hlist

/-- After work on a forest, what stands in its place is held. -/
theorem Held.reworked_within (hh : L.Held s scopes' p f) (hs : L.Sound s)
    (hbound : ∀ scope ∈ scopes',
      scope.node.index < s.tree.size ∧ scope.exit.index < s.tree.size)
    (H : (s.plot p before f after).Has clauses s1.tree g loose) (hf : s.Follows i events s1) :
    L.Held s1 scopes' p g := by
  have hst : L.Stretch {} i events f.ids p s s1 := hh.stretch_of_edits hs H.edits hf
  have hids : ∀ q ∈ g.ids, q ∈ f.ids ∨ s.tree.size ≤ q.index := fun q hq => H.ids q (by simp [hq])
  have hnodup := H.nodup
  rw [ids_append] at hnodup
  refine ⟨Nat.lt_of_lt_of_le hh.parent_lt hst.size_le, hh.parent_clear.mono hst.waits, H.spells,
    fun q hq => ?_, (List.nodup_append.mp hnodup).1,
    fun hin => hh.parent_not_of_ids (hids p hin) rfl,
    fun scope hscope => ⟨fun hin => ?_, fun hin => ?_⟩⟩
  · rcases hids q hq with hq | hq
    · exact (hh.clear q hq).mono hst.waits
    · exact hst.sound.clear_of_le (Nat.le_trans hs.size_le hq)
  · have hlt := (hbound scope hscope).1
    exact (hids _ hin).elim (hh.apart scope hscope).1 fun h => by omega
  · have hlt := (hbound scope hscope).2
    exact (hids _ hin).elim (hh.apart scope hscope).2 fun h => by omega

private theorem Held.reworked (hh : L.Held s scopes p f) (hp : L.Place s i scopes)
    (H : (s.plot p before f after).Has clauses s1.tree g loose) (hf : s.Follows i events s1) :
    L.Held s1 scopes p g :=
  hh.reworked_within hp.sound
    (fun scope hs => ⟨hp.scope_lt scope hs, (hp.opens scope hs).exit_lt⟩) H hf

/-- After work on a forest, scopes apart from it are still open, and perhaps new ones. -/
theorem Place.reworked_apart (opened : List Scope) (hp : L.Place s i scopes)
    (hh : L.Held s scopes' p f) (hnodes : ∀ scope ∈ scopes, scope.node ∉ f.ids)
    (he : s.tree.Edits f.ids p s1.tree) (hf : s.Follows i events s1)
    (hregions : s1.body.regions = (opened ++ scopes).map Scope.region)
    (hopened : ∀ scope ∈ opened, scope.node ∈ f.ids ∧ L.Opens s1 i scope) :
    L.Place s1 i (opened ++ scopes) := by
  have hst : L.Stretch {} i events f.ids p s s1 := hh.stretch_of_edits hp.sound he hf
  refine hp.stretch hst hregions fun scope hs => ?_
  rcases List.mem_append.mp hs with hs | hs
  · obtain ⟨hnode, hopen⟩ := hopened scope hs
    exact .inr ⟨hopen, Nat.lt_of_lt_of_le (hh.spells.bound hnode) hst.size_le,
      (hh.clear _ hnode).mono hst.waits⟩
  · exact .inl ⟨hs, hnodes scope hs⟩

/-- Where no children are visited, the forest has landed after the work on it. -/
theorem Landing.of_has (hp : L.Place s i scopes) (hh : L.Held s scopes p f)
    (H : (s.plot p before f after).Has clauses s1.tree k (cut ++ loose))
    (hf : s.Follows i events s1)
    (hslotted : Slotted (L.slotRules i (L.Eager i s1)) p changes cut h k)
    (hchanges : s1.body.changes = changes ++ s.body.changes) :
    L.Landing config i p before after f h k changes cut events s s1 := by
  have hnodup := H.nodup
  simp only [ids_append, List.nodup_append] at hnodup
  exact ⟨hh.stretch_of_edits hp.sound H.edits hf, H.list_eq, H.spells,
    fun q hq => H.ids q (by simp [hq]), hslotted, (stands_append.mp H.stands).1,
    fun q hq => H.ids q (by simp [hq]), hnodup.2.1.1, hchanges⟩

/-! ## Rules -/

/-- Changes to local slots that have been noted before a forest is passed come to another result. -/
def Absorbs (L : Layout) (i : BodyId) (p : NodeId) (noted : List SlotChange) (events : List Event)
    (result result' : Outcome) : Prop :=
  ∀ must past events' h k changes cut, result (met past events) events' h →
    Slotted (L.slotRules i must) p changes cut h k →
      ∃ h', Slotted (L.slotRules i must) p (changes ++ noted) cut h' k ∧
        result' past (events ++ events') h'

/-- Where none have been noted, nothing else is different. -/
theorem absorbs_nil : L.Absorbs i p [] events result (result.behind events) :=
  fun _ _ events' h _ _ _ hres hslotted => ⟨h, by rwa [List.append_nil], events', rfl, hres⟩

namespace Reaches

/-- What is known of the result may be put in other words. -/
theorem mono (hr : L.Reaches config m s i scopes p before f after result budget)
    (hres : ∀ past events h, result past events h → result' past events h)
    (hle : budget ≤ budget') : L.Reaches config m s i scopes p before f after result' budget' := by
  obtain ⟨s', h, k, changes, cut, events, need, cost, hrun, hcost, hneed, hland,
      hreg, hresult⟩ := hr
  exact ⟨s', h, k, changes, cut, events, need, cost, hrun, by omega, by omega, hland, hreg,
    hres _ _ _ hresult⟩

/-- Past one forest and then past the next, which may use what the first has become. -/
theorem followed
    (hf : L.Reaches config m s i scopes1 p before f (g.roots ++ after) result budget)
    (hs : L.Sound s) (htaken : ¬ s.Waits i) (hhf : L.Held s scopes p f) (hhg : L.Held s scopes' p g)
    (hdis : ∀ q ∈ f.ids, q ∉ g.ids)
    (hg : ∀ s1 h k changes cut events,
      L.Landing config i p before (g.roots ++ after) f h k changes cut events s s1 →
      result s.body.hasFinally events h → s1.body.regions = scopes1.map Scope.region →
      L.Held s1 scopes' p g → L.pending s1 ≤ L.pending s →
      s1.tree.children p = before ++ k.roots ++ g.roots ++ after →
      L.Walks config s1 i scopes2 p (before ++ k.roots) g after result' budget') :
    L.Reaches config m s i scopes2 p before (f ++ g) after (result.append result')
      (budget + budget') := by
  obtain ⟨s1, h1, k1, changes1, cut1, events1, need1, cost1, hrun1, hcost1, hneed1, hl1, hreg1,
    hres1⟩ := hf
  have hpend : L.pending s1 ≤ L.pending s := pending_mono hl1.stretch.waits
  have hhg1 : L.Held s1 scopes' p g :=
    hhg.stretch hl1.stretch (fun q hq hq' => hdis q hq' hq) hhg.parent_not
  obtain ⟨s2, h2, k2, changes2, cut2, events2, need2, cost2, hrun2, hcost2, hneed2, hl2, hreg2,
    hres2⟩ := hg s1 h1 k1 changes1 cut1 events1 hl1 hres1 hreg1 hhg1 hpend
      (by rw [hl1.list_eq]; simp)
  rw [hl1.stretch.hasFinally_eq] at hres2
  have hmul := Nat.mul_le_mul_left L.weight hpend
  refine ⟨s2, h1 ++ h2, k1 ++ k2, changes2 ++ changes1, cut1 ++ cut2, events1 ++ events2,
    max need1 need2, cost1 + cost2, fun fuel hfuel => ?_, by omega, by omega,
    hl1.append hl2 hs htaken hhf hhg hdis, hreg2, events1, events2, h1, h2, rfl, rfl, hres1, hres2⟩
  rw [show fuel + (cost1 + cost2) = fuel + cost2 + cost1 by omega, hrun1 _ (by omega),
    hrun2 _ (by omega)]

/-- Past one forest and then past the next. -/
theorem append
    (hf : L.Reaches config m s i scopes1 p before f (g.roots ++ after) result budget)
    (hp : L.Place s i scopes) (hhf : L.Held s scopes p f) (hhg : L.Held s scopes' p g)
    (hsub : ∀ scope ∈ scopes1, scope ∈ scopes) (hdis : ∀ q ∈ f.ids, q ∉ g.ids)
    (hg : ∀ s1 before', L.Place s1 i scopes1 → L.Held s1 scopes' p g →
      L.pending s1 ≤ L.pending s → s1.tree.children p = before' ++ g.roots ++ after →
      L.Walks config s1 i scopes2 p before' g after result' budget') :
    L.Reaches config m s i scopes2 p before (f ++ g) after (result.append result')
      (budget + budget') :=
  hf.followed hp.sound hp.taken hhf hhg hdis fun s1 _ k _ _ _ hl _ hreg hhg1 hpend hlist =>
    hg s1 (before ++ k.roots) (hl.place hp hhf hreg hsub) hhg1 hpend hlist

/-- Past a node by way of its children. -/
theorem tree (hp : L.Place s i scopes) (hh : L.Held s scopes' p (.tree id l kids))
    (hlist : s.tree.children p = before ++ id :: after)
    (hkeep : ∀ past events hk, result past events hk → (L.slotRules i (L.Eager i s)).Keeps l hk)
    (hkids : L.Walks config s i scopes1 id [] kids [] result budget) :
    L.Reaches config (below config p id) s i scopes1 p before (.tree id l kids) after
      (result.tree id l) budget := by
  obtain ⟨s1, h, k, changes, cut, events, need, cost, hrun, hcost, hneed, hl, hreg, hres⟩ := hkids
  obtain ⟨⟨hb, hlab, hc⟩, hk, -⟩ := hh.spells
  have hhk := hh.below
  have hpid : p ≠ id := fun he => hh.parent_not (by simp [he])
  have hids : ∀ q, q ∈ kids.ids ∨ s.tree.size ≤ q.index →
      q ∈ (Forest.tree id l kids).ids ∨ s.tree.size ≤ q.index := fun q hq => by
    simp only [ids_cons, ids_nil, List.append_nil, List.mem_cons]
    exact hq.imp_left .inr
  have hpk : p ∉ kids.ids := fun hin => hh.parent_not (by simp [hin])
  have hlist1 : s1.tree.children p = before ++ id :: after := by
    rw [hl.stretch.children_eq p hh.parent_lt hpk hh.parent_clear hpid, hlist]
  refine ⟨s1, .tree id l h, .tree id l k, changes, cut, events, need + cost, 0,
    fun fuel hfuel => ?_, by omega, by omega, ?_, hreg, h, rfl, hres⟩
  · obtain ⟨extra, rfl⟩ := Nat.exists_eq_add_of_le hfuel
    have hfirst : s.tree.firstChild? id = (kids.roots ++ []).head? := by
      rw [hp.sound.linked.firstChild?_eq, hc, List.append_nil]
    have hin : (walk config (need + cost + extra) id (s.tree.firstChild? id)).run s =
        .ok ((), s1) := by
      rw [hfirst, show need + cost + extra = need + extra + cost by omega, hrun _ (by omega)]
      exact walk_none
    have hnext := hl.stretch.sound.linked.next?_of_children hlist1
    rw [Nat.add_zero]
    show (do walk config _ id (s.tree.firstChild? id); _ : LowerM Unit).run s = _
    rw [StateT.run_bind, hin]
    show (walk config _ p (s1.tree.next? id)).run s1 = _
    rw [hnext]
  · refine ⟨hl.stretch.mono (by simp +contextual) (.inr (by simp)), by simpa using hlist1, ?_,
      fun q hq => ?_, hl.slotted.tree fun he => hkeep _ _ h hres (hl.stretch.eager he),
      hl.cut_stands, fun q hq => hids q (hl.cut_ids q hq), hl.cut_nodup, hl.changes_eq⟩
    · refine ⟨⟨Nat.lt_of_lt_of_le hb hl.stretch.size_le, ?_, by simpa using hl.list_eq⟩, hl.spells,
        trivial⟩
      rw [hl.stretch.label_eq id hb hhk.parent_not hhk.parent_clear, hlab]
    · simp only [ids_cons, ids_nil, List.append_nil, List.mem_cons] at hq
      rcases hq with rfl | hq
      · exact .inl (by simp)
      · exact hids q (hl.ids q hq)

/-- A node is changed first, and what is then in its place is passed. A change to local slots may be
noted with it. -/
theorem enter (noted : List SlotChange) (hp : L.Place s i scopes)
    (hh : L.Held s scopes' p f) (hhead : (f.roots ++ after).head? = some node)
    (hrun : (lowerNode config p node).run s = .ok (.children id, s1))
    (he : s.tree.Edits f.ids p s1.tree) (hf : s.Follows i events s1)
    (hchanges : s1.body.changes = noted ++ s.body.changes)
    (hids : ∀ q ∈ g.ids, q ∈ f.ids ∨ s.tree.size ≤ q.index)
    (hr : L.Reaches config (below config p id) s1 i scopes1 p before g after result budget)
    (hslots : L.Absorbs i p noted events result result') :
    L.Walks config s i scopes1 p before f after result' (budget + 1) := by
  obtain ⟨s2, h, k, changes, cut, events', need, cost, hrun1, hcost, hneed, hl, hreg, hres⟩ := hr
  have hst : L.Stretch config i events f.ids p s s1 := hh.stretch_of_edits hp.sound he hf
  rw [hst.hasFinally_eq] at hres
  obtain ⟨h', hslotted, hres'⟩ := hslots _ _ _ h k changes cut hres hl.slotted
  have hpend : L.pending s1 ≤ L.pending s := pending_mono hst.waits
  have hmul := Nat.mul_le_mul_left L.weight hpend
  have hle := hst.size_le
  have hclear : ∀ q, q ∈ f.ids ∨ s.tree.size ≤ q.index → L.Clear s q := fun q hq =>
    hq.elim (hh.clear q) fun h => hp.sound.clear_of_le (Nat.le_trans hp.sound.size_le h)
  refine ⟨s2, h', k, changes ++ noted, cut, events ++ events', need, cost + 1,
    fun fuel hfuel => ?_, by omega, by omega, ?_, hreg, hres'⟩
  · simp only [hhead]
    rw [← Nat.add_assoc, walk_children hrun, hrun1 fuel hfuel]
  · have hmem : ∀ q, q ∈ g.ids ∨ s1.tree.size ≤ q.index → q ∈ f.ids ∨ s.tree.size ≤ q.index :=
      fun q hq => hq.elim (hids q) fun h => .inr (by omega)
    refine ⟨hst.trans hl.stretch hp.sound hp.taken (fun _ hq => hq) (.inl rfl)
        (fun q hq hlt => (hids q hq).resolve_right (by omega)) (fun _ => .inl rfl) ?_
        (.inl fun j hj => by rwa [LoweringState.Waits, hf.started_eq]), hl.list_eq, hl.spells,
      fun q hq => hmem q (hl.ids q hq), hslotted, hl.cut_stands,
      fun q hq => hmem q (hl.cut_ids q hq), hl.cut_nodup,
      by rw [hl.changes_eq, hchanges, List.append_assoc]⟩
    rintro q (_ | ⟨_, hq⟩)
    exacts [hh.parent_clear, hclear q (hids q hq)]

/-- Nothing to pass. -/
theorem nil (hp : L.Place s i scopes) (hlist : s.tree.children p = before ++ after) :
    L.Walks config s i scopes p before .nil after (.just .nil) 0 :=
  ⟨s, .nil, .nil, [], .nil, [], 0, 0, fun _ _ => rfl, Nat.le_refl _, Nat.zero_le _,
    ⟨.refl hp.sound, by simpa using hlist, trivial, by simp, .nil, stands_nil _, by simp,
      by simp, rfl⟩, hp.regions, rfl, rfl⟩

/-- What is in the place of a forest after the work on it is passed. Scopes may have been opened,
and changes to local slots noted. -/
theorem rework (opened : List Scope) (noted : List SlotChange) (hp : L.Place s i scopes)
    (hh : L.Held s scopes p f) (hhead : (f.roots ++ after).head? = some node)
    (hrun : (lowerNode config p node).run s = .ok (.children id, s1))
    (H : (s.plot p before f after).Has clauses s1.tree g loose) (hf : s.Follows i events s1)
    (hchanges : s1.body.changes = noted ++ s.body.changes)
    (hregions : s1.body.regions = (opened ++ scopes).map Scope.region)
    (hopened : ∀ scope ∈ opened, scope.node ∈ f.ids ∧ L.Opens s1 i scope)
    (hr : L.Place s1 i (opened ++ scopes) → L.Held s1 scopes p g → L.pending s1 ≤ L.pending s →
      s1.tree.children p = before ++ g.roots ++ after →
      L.Reaches config (below config p id) s1 i scopes1 p before g after result budget)
    (hslots : L.Absorbs i p noted events result result') :
    L.Walks config s i scopes1 p before f after result' (budget + 1) := by
  have hst : L.Stretch {} i events f.ids p s s1 := hh.stretch_of_edits hp.sound H.edits hf
  exact enter noted hp hh hhead hrun H.edits hf hchanges (fun q hq => H.ids q (by simp [hq]))
    (hr (hp.reworked_apart opened hh (fun scope hs => (hh.apart scope hs).1) H.edits hf hregions
      hopened) (hh.reworked hp H hf) (pending_mono hst.waits) H.list_eq) hslots

/-- Past the one node that stands there after the work, by way of its children. -/
theorem pass {l' : Node} {kids' : Forest} (opened : List Scope) (hp : L.Place s i scopes)
    (hh : L.Held s scopes p f) (hhead : (f.roots ++ after).head? = some node)
    (hrun : (lowerNode config p node).run s = .ok (.children id, s1))
    (H : (s.plot p before f after).Has clauses s1.tree (.tree id l' kids') loose)
    (hf : s.Follows i events s1) (hchanges : s1.body.changes = s.body.changes)
    (hregions : s1.body.regions = (opened ++ scopes).map Scope.region)
    (hopened : ∀ scope ∈ opened, scope.node ∈ f.ids ∧ L.Opens s1 i scope)
    (hkeep : ∀ past events hk, result past events hk → (L.slotRules i (L.Eager i s1)).Keeps l' hk)
    (hkids : L.Place s1 i (opened ++ scopes) → L.Held s1 scopes id kids' →
      L.pending s1 ≤ L.pending s → s1.tree.children id = [] ++ kids'.roots ++ [] →
      L.Walks config s1 i scopes1 id [] kids' [] result budget) :
    L.Walks config s i scopes1 p before f after ((result.tree id l').behind events) (budget + 1) :=
  rework opened [] hp hh hhead hrun H hf hchanges hregions hopened (fun hp1 hh1 hpend hlist1 =>
    tree hp1 hh1 (by simpa using hlist1) hkeep
      (hkids hp1 hh1.below hpend (by simpa using hh1.spells.1.2.2))) absorbs_nil

/-- Past a node of which no children are visited. -/
theorem of_landing (xs : List NodeId) (hhead : (f.roots ++ after).head? = some node)
    (hrun : ∀ fuel, (walk config (fuel + 1) p (some node)).run s =
      (walk config fuel p (s1.tree.next? id)).run s1)
    (hl : L.Landing config i p before after f h k changes cut events s s1)
    (hk : k.roots = xs ++ [id]) (hregions : s1.body.regions = scopes.map Scope.region)
    (hresult : result s.body.hasFinally events h) :
    L.Walks config s i scopes p before f after result 1 := by
  have hlist : s1.tree.children p = (before ++ xs) ++ id :: after := by
    rw [hl.list_eq, hk]
    simp
  refine ⟨s1, h, k, changes, cut, events, 0, 1, fun fuel _ => ?_, Nat.le_refl _, by omega, hl,
    hregions, hresult⟩
  simp only [hhead]
  rw [hrun, hl.stretch.sound.linked.next?_of_children hlist]

end Reaches

/-! ## Nodes that stay as they are -/

/-- At a quiet node nothing is done. -/
theorem lowerNode_quiet (h : (s.tree.kind node).isQuiet) :
    (lowerNode config p node).run s = .ok (.children node, s) := by
  rw [lowerNode_run rfl]
  generalize s.tree.kind node = kind at h ⊢
  unfold lowerKind
  split <;> first | rfl | simp [Token.isQuiet] at h

/-- Nodes of most kinds access no variable. -/
theorem keeps_of_kind (h : Forest) (hkind : l.kind.isAccess = false) : rules.Keeps l h := by
  intro _ name haccess
  rw [Node.accessed?_eq_none h hkind] at haccess
  cases haccess

/-- Past a node at which nothing is done, by way of its children. -/
theorem reaches_quiet (hp : L.Place s i scopes) (hh : L.Held s scopes p (.tree id l kids))
    (hlist : s.tree.children p = before ++ id :: after) (hkind : l.kind.isQuiet)
    (hkids : L.Held s scopes id kids → s.tree.children id = [] ++ kids.roots ++ [] →
      L.Walks config s i scopes1 id [] kids [] result budget) :
    L.Walks config s i scopes1 p
      before (.tree id l kids) after (result.tree id l) (budget + 1) := by
  have hrun : (lowerNode config p id).run s = .ok (.children id, s) :=
    lowerNode_quiet (by rwa [kind_eq_label, hh.spells.1.2.1])
  refine (Reaches.pass [] hp hh (by simp) hrun
    (hh.has hp.sound (by simpa using hlist)) (.refl s) rfl hp.regions (by simp)
    (fun _ _ hk _ => keeps_of_kind hk (Token.isAccess_eq_false hkind rfl rfl rfl))
    fun _ hhk _ hc => hkids hhk hc).mono ?_ (Nat.le_refl _)
  rintro past _ h ⟨events, rfl, hres⟩
  rwa [met_nil] at hres

/-- A target or the end of a with scope closes the scopes that end there. -/
theorem reaches_close {stop : NodeId} {ls : Node} {closed : List Scope}
    (hp : L.Place s i (closed ++ scopes)) (hh : L.Held s scopes p (.leaf stop ls))
    (hkind : ls.kind = .target ∨ ls.kind = .leaveWith) (hclosed : ∀ c ∈ closed, c.exit = stop)
    (hlist : s.tree.children p = before ++ stop :: after) :
    L.Walks config s i scopes p before (.leaf stop ls) after (.just (.leaf stop ls)) 1 := by
  have hl : s.tree.label stop = ls := hh.spells.1.2.1
  have hregions : s.body.regions.dropWhile (·.exit = stop) = scopes.map Scope.region := by
    rw [hp.regions, List.map_append, List.dropWhile_append_of_pos
      (by simpa [Scope.region] using hclosed)]
    cases scopes with
    | nil => rfl
    | cons scope rest =>
      have hne : ¬ scope.exit = stop := by simpa using (hh.apart scope (by simp)).2
      exact List.dropWhile_cons_of_neg (fun h => hne (of_decide_eq_true h))
  -- The scopes are closed first; then there is nothing below the node.
  let s1 : LoweringState := { s with body := { s.body with regions := scopes.map Scope.region } }
  have hrun : (lowerNode config p stop).run s = .ok (.children stop, s1) := by
    have hk : s.tree.kind stop = ls.kind := by rw [kind_eq_label, hl]
    rcases hkind with hkind | hkind <;>
    · rw [lowerNode_run (hk.trans hkind)]
      show Except.ok (Visit.children stop, { s with body := { s.body with
        regions := s.body.regions.dropWhile (·.exit = stop) } }) = _
      rw [hregions]
  have hf : s.Follows i [] s1 := .of_ledger rfl rfl rfl
  have hst : L.Stretch config i [] [] p s s1 := .of_edits hp.sound (.refl hp.sound.linked)
    (by simpa using hh.parent_clear) hf
  have hplace : L.Place s1 i scopes :=
    hp.stretch hst rfl fun scope hs => .inl ⟨by simp [hs], by simp⟩
  have haccess : ls.kind.isAccess = false := by
    rcases hkind with hk | hk <;> rw [hk] <;> rfl
  have htree : L.Reaches config (below config p stop) s1 i scopes p before (.leaf stop ls) after
      (Outcome.tree stop ls (.just .nil)) 0 :=
    Reaches.tree hplace (hh.stretch hst (by simp) (by simpa using hh.parent_not)) hlist
      (fun _ _ hk _ => keeps_of_kind hk haccess) (.nil hplace (by simpa using hh.spells.1.2.2))
  refine (Reaches.enter [] hp hh (by simp) hrun (.refl hp.sound.linked) hf rfl
    (fun q hq => .inl hq) htree absorbs_nil).mono ?_ (Nat.le_refl _)
  rintro past _ _ ⟨_, rfl, _, rfl, rfl, rfl⟩
  exact ⟨rfl, rfl⟩

/-! ## Forests wherever they stand -/

/-- The walk passes a forest inside scopes, wherever it stands, if so much waits at most and what is
behind it is of some kind. -/
def Passes (L : Layout) (config : Config) (room : Nat) (i : BodyId) (scopes : List Scope)
    (fits : List NodeId → Prop) (f : Forest) (result : Outcome) (budget : Nat) : Prop :=
  ∀ s p before after, L.Place s i scopes → L.Held s scopes p f → L.pending s ≤ room → fits after →
    s.tree.children p = before ++ f.roots ++ after →
    L.Walks config s i scopes p before f after result budget

/-- Behind the forest is not the end of a label around it. -/
def Unlabelled (scopes : List Scope) (after : List NodeId) : Prop :=
  ∀ scope ∈ scopes, scope.kind = .label → after.head? ≠ some scope.exit

theorem unlabelled_nil (scopes : List Scope) : Unlabelled scopes [] := by simp [Unlabelled]

namespace Passes

variable {room : Nat} {fits fits' : List NodeId → Prop}

/-- What is known may be put in other words. -/
theorem mono (hf : L.Passes config room i scopes fits f result budget)
    (hfits : ∀ after, fits' after → fits after)
    (hres : ∀ past events h, result past events h → result' past events h)
    (hle : budget ≤ budget') : L.Passes config room i scopes fits' f result' budget' :=
  fun s p before after hp hh hroom hafter hlist =>
    (hf s p before after hp hh hroom (hfits after hafter) hlist).mono hres hle

theorem nil : L.Passes config room i scopes fits .nil (.just .nil) 0 :=
  fun _ _ _ _ hp _ _ _ hlist => .nil hp (by simpa using hlist)

/-- One forest and then the next. -/
theorem append (hf : L.Passes config room i scopes (fun _ => True) f result budget)
    (hg : L.Passes config room i scopes fits g result' budget') :
    L.Passes config room i scopes fits (f ++ g) (result.append result') (budget + budget') := by
  intro s p before after hp hh hroom hafter hlist
  have hfirst := hf s p before (g.roots ++ after) hp hh.left hroom trivial (by rw [hlist]; simp)
  rw [Walks, roots_append, List.append_assoc]
  exact hfirst.append hp hh.left hh.right (fun _ h => h) hh.disjoint
    fun s1 before' hp1 hh1 hpend hlist1 =>
      hg s1 p before' after hp1 hh1 (Nat.le_trans hpend hroom) hafter hlist1

/-- A node that gets another label, over what is below it. -/
theorem relabel (l' : Node) (events : List Event)
    (hlower : ∀ s p before after, L.Place s i scopes → L.Held s scopes p (.tree id l kids) →
      (s.plot p before (.tree id l kids) after).Has s.tree.clauses s.tree (.tree id l kids) .nil →
      Runs (lowerKind config p id l.kind) s fun visit s1 => visit = .children id ∧
        s.Follows i events s1 ∧ s1.body = s.body ∧
          (s.plot p before (.tree id l kids) after).Has s1.tree.clauses s1.tree (.tree id l' kids)
            .nil)
    (hkeep : ∀ s past events hk, result past events hk →
      (L.slotRules i (L.Eager i s)).Keeps l' hk)
    (hkids : L.Passes config room i scopes fits kids result budget) (hfits : fits []) :
    L.Passes config room i scopes fits' (.tree id l kids) ((result.tree id l').behind events)
      (budget + 1) := by
  intro s p before after hp hh hroom _ hlist
  obtain ⟨_, s1, hrun, rfl, hf, hbody, H⟩ :=
    hh.lowered_by config (bind_pure _).symm (hlower s p before after hp hh (hh.has hp.sound hlist))
  exact Reaches.pass [] hp hh (by simp) hrun H hf (by rw [hbody]) (hbody ▸ hp.regions) (by simp)
    (hkeep s1) fun hp1 hhk hpend hc => hkids s1 id [] [] hp1 hhk (Nat.le_trans hpend hroom) hfits hc

/-- A node at which nothing is done, over what is below it. -/
theorem quiet (hkind : l.kind.isQuiet)
    (hkids : L.Passes config room i scopes fits kids result budget) (hfits : fits []) :
    L.Passes config room i scopes fits' (.tree id l kids) (result.tree id l) (budget + 1) :=
  fun s _ _ _ hp hh hroom _ hlist => reaches_quiet hp hh (by simpa using hlist) hkind
    fun hhk hc => hkids s id [] [] hp hhk hroom hfits hc

/-- A node at which nothing is done and that has no children. -/
theorem leaf (hkind : l.kind.isQuiet) :
    L.Passes config room i scopes fits (.leaf id l) (.just (.leaf id l)) 1 :=
  (quiet hkind (nil : L.Passes config room i scopes (fun _ => True) .nil _ 0) trivial).mono
    (fun _ h => h) (by rintro _ _ _ ⟨_, rfl, rfl, rfl⟩; exact ⟨rfl, rfl⟩) (Nat.le_refl _)

end Passes

end Layout

end ScriptEngine
