import ScriptEngine.Proofs.WalkSteps

/-!
# Calls and names are lowered

What the walk does at expressions and other nodes that keep their children: it marks calls, records
clauses, turns expression statements into drops, and accesses variables by their slots where it may.
-/

namespace ScriptEngine

open Site Node TreeM ScriptEngine.Tree

variable {s s1 : LoweringState} {i : BodyId} {events : List Event} {value : Forest} {bind : NodeId}
  {lb : Node}

open Lowering

private theorem Token.isQuiet_of_isPlain {kind : Token} (h : kind.isPlain) :
    kind = .exprStmt ∨ kind = .switchCase ∨ kind = .switchDefault ∨ kind = .call ∨ kind = .new ∨
      kind = .getProp ∨ kind.isQuiet := by
  cases kind <;> simp_all [Token.isPlain, Token.isQuiet]

/-! ## Flags -/

/-- Only the ledger has changed, by some events. -/
structure LoweringState.Still (s : LoweringState) (i : BodyId) (events : List Event)
    (s1 : LoweringState) : Prop where
  follows : s.Follows i events s1
  tree_eq : s1.tree = s.tree
  body_eq : s1.body = s.body

private theorem LoweringState.Still.refl (s : LoweringState) (i : BodyId) : s.Still i [] s :=
  ⟨.refl s, rfl, rfl⟩

/-- A change to local slots has been noted in the body, besides some events. -/
structure LoweringState.Noted (s : LoweringState) (i : BodyId) (events : List Event)
    (change : SlotChange) (s1 : LoweringState) : Prop where
  follows : s.Follows i events s1
  changes_eq : s1.body.changes = [change] ++ s.body.changes
  regions_eq : s1.body.regions = s.body.regions

private theorem LoweringState.Still.noted
    (h : s.Still i events s1) {t : Tree} (ht : t.clauses = s.tree.clauses) (change : SlotChange) :
    s.Noted i events change { s1.withTree t with
      body :=
      { (s1.withTree t).body with changes := change :: (s1.withTree t).body.changes } } := by
  refine ⟨(h.follows.trans_nil (s1.follows_withTree i ?_)).trans_nil
    (.of_ledger rfl rfl rfl), ?_, ?_⟩
  · rw [h.tree_eq, ht]
  · simp [LoweringState.withTree, h.body_eq]
  · simp [LoweringState.withTree, h.body_eq]

namespace Layout

variable {L : Layout} {config : Config} {scopes : List Scope}
  {p id : NodeId} {before after : List NodeId} {f g kids : Forest} {l : Node}
  {room budget budget' : Nat}
  {fits fits' : List NodeId → Prop} {result result' : Outcome} {P : Plot}

private theorem Place.vars_eq (hp : L.Place s i scopes) :
    (s.program.body i).vars = (L.program.body i).vars :=
  Body.congr_frozen Body.vars (hp.sound.body_eq i) fun _ => rfl

/-- A function that asks for an activation record cannot do without. -/
theorem not_eager_of_activation (hs : L.Sound s) (hi : i.index < L.size)
    (hf : s.Follows i [.activation] s1) : ¬ L.Eager i s1 := by
  rintro ⟨-, hflag⟩
  have hbodies : s1.program.bodies = s.program.bodies.modify i.index
      ({ · with requiresActivation := true }) := congrArg Ledger.bodies hf.ledger_eq
  have hlt : i.index < s.program.bodies.size := hs.bodies_size ▸ hi
  simp [Program.body, hbodies, Array.getD_eq_getD_getElem?, hlt, Array.getElem_modify] at hflag

/-- A function is told to have a record, unless the code is that of a script. -/
theorem runs_requireActivation (L : Layout) (config : Config) (hid : s.body.id = i)
    (hin : s.body.inFunction = (L.program.body i).isFunction) :
    Runs requireActivation s fun _ s1 => s.Still i (L.site config i).activations s1 := by
  refine runs_openBody ?_
  rw [activations, show (L.site config i).inFunction = s.body.inFunction from hin.symm]
  split
  · refine Runs.modify ⟨⟨by simp, ?_, rfl, rfl⟩, rfl, rfl⟩
    subst hid
    rfl
  · exact Runs.pure (.refl s i)

/-- A script is not asked for an activation record, and a function that is has to have one. -/
theorem not_eager_of_activations (hp : L.Place s i scopes)
    (hf : s.Follows i (L.site config i).activations s1) : ¬ L.Eager i s1 := by
  intro he
  refine not_eager_of_activation hp.sound hp.body_lt ?_ he
  rwa [Site.activations, if_pos (show (L.site config i).inFunction = true from he.1)] at hf

/-- A name has a slot if it is a variable of a function that may do without activation record. -/
theorem runs_localSlot (hp : L.Place s i scopes) (name : String) :
    Runs (localSlot? config name) s fun slot s1 =>
      s.Still i ((L.site config i).nameEvents scopes name) s1 ∧
      (∀ n, slot = some n → (L.program.body i).isFunction = true ∧
        (L.program.body i).vars.get? name = some n) ∧
      (slot = none → L.Eager i s1 → (L.program.body i).vars.get? name = none) := by
  refine runs_openBody ?_
  have hwith : s.body.inWith = true ↔ ∃ scope ∈ scopes, scope.kind = .withBody := by
    rw [OpenBody.inWith, hp.regions, List.any_map, List.any_eq_true]
    exact exists_congr fun scope => and_congr_right fun _ => decide_eq_true_iff
  split
  · next hcond =>
    -- In a script or inside a with statement the name is looked up.
    have hno : (L.site config i).nameEvents scopes name = [] := by
      rw [nameEvents, if_neg]
      rintro ⟨hfun, hnone, -⟩
      have hfun' : s.body.inFunction = true := hp.inFunction.trans hfun
      rw [hfun'] at hcond
      obtain ⟨scope, hs, hk⟩ := hwith.mp (by simpa using hcond)
      exact hnone scope hs hk
    rw [hno]
    refine Runs.pure ⟨.refl s i, by simp, fun _ he => absurd he fun he => ?_⟩
    have hfun' : s.body.inFunction = true := hp.inFunction.trans he.1
    rw [hfun'] at hcond
    obtain ⟨scope, hs, hk⟩ := hwith.mp (by simpa using hcond)
    exact (hp.opens scope hs).active hk he
  · next hcond =>
    simp only [Bool.or_eq_true, Bool.not_eq_true', not_or, Bool.not_eq_false] at hcond
    have hfun : (L.program.body i).isFunction = true := hp.inFunction ▸ hcond.1
    have hnone : ∀ scope ∈ scopes, scope.kind ≠ .withBody := fun scope hs hk =>
      hcond.2 (hwith.mpr ⟨scope, hs, hk⟩)
    refine Runs.ite_bind (p := fun _ s1 =>
      s.Still i ((L.site config i).nameEvents scopes name) s1) ?_ fun s1 hs1 => ?_
    · split
      · next hname =>
        have hall : (L.site config i).nameEvents scopes name = (L.site config i).activations := by
          rw [nameEvents, if_pos ⟨hfun, hnone, hname⟩, activations,
            if_pos (show (L.site config i).inFunction = true from hfun)]
        rw [hall]
        exact runs_requireActivation L config hp.body_id hp.inFunction
      · next hname =>
        have hall : (L.site config i).nameEvents scopes name = [] := by
          rw [nameEvents, if_neg fun h => hname h.2.2]
        rw [hall]
        exact Runs.pure (.refl s i)
    · have hvars : (s1.program.body s.body.id).vars = (L.program.body i).vars := by
        rw [hp.body_id, ← hp.vars_eq]
        exact Body.congr_frozen Body.vars ((hs1.follows.tells L config).frozen_eq i) fun _ => rfl
      refine Runs.get_bind (Runs.pure ⟨hs1, fun n hn => ?_, fun hn he => ?_⟩)
      · split at hn
        · cases hn
        · exact ⟨hfun, hvars ▸ hn⟩
      · rw [hp.body_id, if_neg (by simp [he.2]), ← hp.body_id, hvars] at hn
        exact hn

/-! ## What is seen below a node -/

/-- The second child of a node. -/
theorem propertyNode?_eq (hs : L.Sound s) (hf : s.tree.Spells (.tree id l kids)) :
    (propertyNode? s.tree id).map s.tree.label = kids.second? := by
  obtain ⟨⟨-, -, hc⟩, hk, -⟩ := hf
  rw [propertyNode?, hs.linked.firstChild?_eq, hc]
  cases kids with
  | nil => rfl
  | cons a la ka rest =>
    have hcs : s.tree.children id = [] ++ a :: rest.roots := hc
    have hnext := hs.linked.next?_of_children hcs
    cases rest with
    | nil => simp [hnext, Forest.second?]
    | cons b lb kb more => simp [hnext, Forest.second?, hk.2.2.1.2.1]

private theorem property_string?_eq (hs : L.Sound s) (hf : s.tree.Spells (.tree id l kids)) :
    (propertyNode? s.tree id).bind s.tree.string? = kids.second?.bind Node.string? := by
  rw [← propertyNode?_eq hs hf, Option.bind_map]
  rfl

/-- The class of a call, told by what is below it. -/
theorem specialCall?_eq (hs : L.Sound s) (hf : s.tree.Spells (.tree id l kids)) :
    Lowering.specialCall? s.tree id = kids.specialCall? := by
  obtain ⟨⟨-, -, hc⟩, hk, -⟩ := hf
  rw [Lowering.specialCall?, hs.linked.firstChild?_eq, hc]
  cases kids with
  | nil => rfl
  | cons a la ka rest =>
    obtain ⟨⟨hb, hl, hca⟩, hka, -⟩ := hk
    have hspells : s.tree.Spells (.tree a la ka) := ⟨⟨hb, hl, hca⟩, hka, trivial⟩
    have hprop := propertyNode?_eq hs hspells
    simp only [Forest.roots_cons, List.head?_cons, Option.bind_some, Forest.specialCall?,
      kind_eq_label, string?_eq_label, hl, ← hprop]
    by_cases hname : la.kind = .name
    · simp only [hname]
    · by_cases hget : la.kind = .getProp
      · simp only [hget]
        cases hp : propertyNode? s.tree a with
        | none => rfl
        | some c =>
          show (if decide ((s.tree.label c).kind = .string) then some c else none).bind _ =
            (if decide ((s.tree.label c).kind = .string) then some (s.tree.label c)
            else none).bind _
          cases decide ((s.tree.label c).kind = .string) <;> rfl
      · simp

/-! ## Nodes that keep their children -/

/-- A clause is recorded with its switch, which is not seen in labels. -/
theorem runs_recordClause (hp : L.Place s i scopes) {node : NodeId} {isCase : Bool}
    (hcase : isCase = decide (s.tree.kind node = .switchCase))
    (H : P.Has s.tree.clauses s.tree f g) :
    Runs (recordClause node) s fun _ s1 => s.Follows i (clauseEvents scopes isCase node) s1 ∧
      s1.body = s.body ∧ P.Has s1.tree.clauses s1.tree f g := by
  refine runs_openBody ?_
  have hnearest : s.body.nearest? .switch =
      (scopes.find? (·.kind = .switch)).map Scope.region := by
    rw [OpenBody.nearest?, hp.regions, List.find?_map]
    rfl
  rw [hnearest, clauseEvents]
  cases hfind : scopes.find? (·.kind = .switch) with
  | none => exact Runs.pure ⟨.refl s, rfl, H⟩
  | some scope =>
    -- The scope is that of a switch, so its node is one.
    obtain ⟨stop, hopen, hlt⟩ : ∃ stop,
        (s.tree.label scope.node).data = .switch { target := some stop } ∧
          scope.node.index < s.tree.size := by
      have hkind := List.find?_some hfind
      have hs := List.mem_of_find?_eq_some hfind
      cases scope with
      | switch node stop =>
        exact ⟨stop, (hp.opens _ hs).targets, hp.scope_lt _ hs⟩
      | _ => simp [Scope.kind] at hkind
    refine runs_tree (Runs.mono (runs_onTree (runs_modifySwitch hp.sound.linked hlt rfl
      (g := fun target => target) (k := SwitchData.record isCase node) hopen ?_ ?_)) ?_)
    · intro data
      split <;> rfl
    · intro data
      subst hcase
      simp only [SwitchData.record, decide_eq_true_eq]
      split <;> rfl
    · rintro _ _ ⟨t, rfl, hre, hclauses⟩
      have hsame : (s.tree.label scope.node).withStop (some stop) = s.tree.label scope.node := by
        rw [withStop, ← hopen]
      refine ⟨⟨by simp, ?_, rfl, rfl⟩, rfl, H.congr hre.linked hre.size_eq (fun q => ?_)
        hre.children_eq⟩
      · exact congrArg (Ledger.mk s.started s.program.bodies s.diagnostics s.body.hasFinally)
          hclauses
      · refine (hre.label_eq q).trans ?_
        split
        · next hq =>
          subst hq
          exact hsame
        · rfl

/-- A call is marked if it can see its caller's scope. -/
theorem runs_lowerCall (config : Config) (hcall : l.kind = .call ∨ l.kind = .new)
    (hp : L.Place s i scopes) (H : P.Has s.tree.clauses s.tree (.tree id l kids) .nil) :
    Runs (lowerCall id) s fun _ s1 => s.Follows i ((L.site config i).callEvents kids) s1 ∧
      s1.body = s.body ∧ P.Has s1.tree.clauses s1.tree
        (.tree id (l.lowered (L.program.body i).isFunction kids) kids) .nil := by
  have hlowered : l.lowered (L.program.body i).isFunction kids =
      kids.specialCall?.elim l (l.withAttr .specialCall <| .int ·.code) := by
    rcases hcall with hcall | hcall <;> simp only [lowered, hcall] <;>
      cases kids.specialCall? <;> rfl
  refine runs_tree ?_
  rw [specialCall?_eq hp.sound H.spells, hlowered, callEvents]
  cases kids.specialCall? with
  | some special =>
    refine Runs.bind (runs_onTree (H.relabelAt .nil .nil relabels_setAttr)) ?_
    rintro _ _ ⟨t, rfl, H'⟩
    refine Runs.mono (runs_requireActivation L config (s := s.withTree t) hp.body_id
      hp.inFunction) fun _ s1 hs1 => ⟨(s.follows_withTree i H'.clauses_eq).trans hs1.follows,
        hs1.body_eq, ?_⟩
    rw [hs1.tree_eq]
    exact { H' with clauses_eq := rfl }
  | none => exact Runs.pure ⟨.refl s, rfl, H⟩

/-- What the walk does at a node that keeps its place and its children. -/
theorem runs_lowerKind_plain (hkind : l.kind.isPlain) (hp : L.Place s i scopes)
    (H : P.Has s.tree.clauses s.tree (.tree id l kids) .nil) :
    Runs (lowerKind config p id l.kind) s fun visit s1 =>
      visit = .children id ∧ s.Follows i ((L.site config i).plainEvents scopes id l kids) s1 ∧
        s1.body = s.body ∧ P.Has s1.tree.clauses s1.tree
          (.tree id (l.lowered (L.program.body i).isFunction kids) kids) .nil := by
  have hkl : s.tree.kind id = l.kind := by rw [kind_eq_label, H.spells.1.2.1]
  rcases Token.isQuiet_of_isPlain hkind with hk | hk | hk | hk | hk | hk | hk
  · rw [plainEvents, lowered, hk]
    refine runs_openBody (Runs.bind (runs_onTree (H.relabelAt .nil .nil relabels_setKind)) ?_)
    rintro _ _ ⟨t, rfl, H'⟩
    rw [hp.inFunction] at H'
    exact Runs.pure ⟨rfl, s.follows_withTree i H'.clauses_eq, rfl, { H' with clauses_eq := rfl }⟩
  · have hcase := runs_recordClause hp (by rw [hkl, hk]; rfl : true = _) H
    rw [plainEvents, lowered, hk]
    exact hcase.bind fun _ s1 h1 => Runs.pure ⟨rfl, h1⟩
  · have hdefault := runs_recordClause hp (by rw [hkl, hk]; rfl : false = _) H
    rw [plainEvents, lowered, hk]
    exact hdefault.bind fun _ s1 h1 => Runs.pure ⟨rfl, h1⟩
  · have hcall := runs_lowerCall config (.inl hk) hp H
    rw [plainEvents, hk]
    exact hcall.bind fun _ s1 h1 => Runs.pure ⟨rfl, h1⟩
  · have hcall := runs_lowerCall config (.inr hk) hp H
    rw [plainEvents, hk]
    exact hcall.bind fun _ s1 h1 => Runs.pure ⟨rfl, h1⟩
  · rw [plainEvents, lowered, hk]
    refine Runs.bind (p := fun _ s1 => s.Still i ((L.site config i).accessEvents l kids) s1)
      (runs_tree ?_) fun _ s1 hs1 => Runs.pure ⟨rfl, hs1.follows, hs1.body_eq, hs1.tree_eq ▸ H⟩
    rw [property_string?_eq hp.sound H.spells, accessEvents]
    extract_lets name
    split
    · next hname =>
      rw [if_pos ⟨hk, hname⟩]
      exact runs_requireActivation L config hp.body_id hp.inFunction
    · next hname =>
      rw [if_neg fun h => hname h.2]
      exact Runs.pure (.refl s i)
  · have hquiet : (lowerKind config p id l.kind).run s = .ok (.children id, s) := by
      rw [← lowerNode_run hkl]
      exact lowerNode_quiet (by rwa [hkl])
    have hno : (L.site config i).plainEvents scopes id l kids = [] := by
      unfold plainEvents
      split <;> simp_all [Token.isQuiet, Token.isPlain]
    have hsame : l.lowered (L.program.body i).isFunction kids = l := by
      unfold lowered
      split <;> simp_all [Token.isQuiet]
    rw [hno, hsame]
    exact ⟨_, s, hquiet, rfl, .refl s, rfl, H⟩

/-- A node that keeps its place and its children accesses no variable. -/
theorem keeps_lowered {rules : SlotRules} {inFunction : Bool} (hkind : l.kind.isPlain)
    (h : Forest) : rules.Keeps (l.lowered inFunction kids) h := by
  refine keeps_of_kind h ?_
  rw [kind_lowered]
  split
  · cases inFunction <;> rfl
  · exact Token.isAccess_eq_false hkind rfl rfl rfl

/-- Nodes of the kinds that keep their place and children. -/
theorem Passes.plain (hkind : l.kind.isPlain)
    (hkids : L.Passes config room i scopes fits kids result budget) (hfits : fits []) :
    L.Passes config room i scopes fits' (.tree id l kids)
      ((result.tree id (l.lowered (L.program.body i).isFunction kids)).behind
        ((L.site config i).plainEvents scopes id l kids)) (budget + 1) :=
  .relabel _ _ (fun _ _ _ _ hp _ H => runs_lowerKind_plain hkind hp H)
    (fun _ _ _ hk _ => keeps_lowered hkind hk) hkids hfits

/-! ## Names -/

/-- Past a node at which only the ledger has changed. -/
theorem reaches_still (hp : L.Place s i scopes) (hh : L.Held s scopes p (.tree id l kids))
    (hlist : s.tree.children p = before ++ (Forest.tree id l kids).roots ++ after)
    (hrun : (lowerNode config p id).run s = .ok (.children id, s1)) (hs1 : s.Still i events s1)
    (hkeep : ∀ past events hk, result past events hk → (L.slotRules i (L.Eager i s1)).Keeps l hk)
    (hkids : L.Place s1 i scopes → L.Held s1 scopes id kids → L.pending s1 ≤ L.pending s →
      s1.tree.children id = [] ++ kids.roots ++ [] →
      L.Walks config s1 i scopes id [] kids [] result budget) :
    L.Walks config s i scopes p
      before (.tree id l kids) after ((result.tree id l).behind events) (budget + 1) :=
  Reaches.pass [] hp hh (by simp) hrun (hs1.tree_eq ▸ hh.has hp.sound hlist) hs1.follows
    (by rw [hs1.body_eq]) (hs1.body_eq ▸ hp.regions) (by simp) hkeep hkids

/-- A name keeps its kind or is turned into a read of its slot. -/
theorem runs_lowerName (config : Config) (hp : L.Place s i scopes)
    (H : P.Has s.tree.clauses s.tree (.leaf id l) .nil) :
    Runs (lowerName config id) s fun _ s1 =>
      (s.Still i ((L.site config i).nameEvents scopes (l.string?.getD "")) s1 ∧
        (L.Eager i s1 → (L.program.body i).vars.get? (l.string?.getD "") = none)) ∨
      ∃ slot, (L.program.body i).isFunction = true ∧
        (L.program.body i).vars.get? (l.string?.getD "") = some slot ∧
        s.Noted i ((L.site config i).nameEvents scopes (l.string?.getD "")) (.getVar id) s1 ∧
        P.Has s.tree.clauses s1.tree
        (.leaf id ((l.withKind .getVar).withAttr .varIndex (.int slot)))
          .nil := by
  refine runs_tree ?_
  rw [string?_eq_label, H.spells.1.2.1]
  refine Runs.bind (runs_localSlot hp _) ?_
  rintro slot s1 ⟨hs1, hslot, hnone⟩
  cases slot with
  | none => exact Runs.pure (.inl ⟨hs1, hnone rfl⟩)
  | some slot =>
    rw [← hs1.tree_eq] at H
    refine Runs.bind (runs_onTree
      (Runs.bind (H.relabelAt .nil .nil relabels_setKind) fun _ _ H1 =>
        H1.relabelAt .nil .nil relabels_setAttr)) ?_
    rintro _ _ ⟨t, rfl, H2⟩
    rw [hs1.tree_eq] at H2
    exact Runs.modify (.inr ⟨slot, (hslot slot rfl).1, (hslot slot rfl).2,
      hs1.noted H2.clauses_eq _, H2⟩)

/-- Reading a variable: by its slot, or by its name as before. -/
theorem Passes.name (hkind : l.kind = .name) (hfree : l.attrs.get? .varIndex = none) :
    L.Passes config room i scopes fits (.leaf id l) (fun _ events h =>
      events = (L.site config i).nameEvents scopes (l.string?.getD "") ∧ h = .leaf id l) 1 := by
  intro s p before after hp hh hroom _ hlist
  obtain ⟨_, s1, hrun, hcases⟩ :=
    hh.lowered_by config (v := fun _ => .children id) (by rw [hkind]; rfl)
    (runs_lowerName config hp (hh.has hp.sound hlist))
  rcases hcases with ⟨hs1, hnone⟩ | ⟨slot, hfun, hslot, hnoted, H⟩
  · refine (reaches_still hp hh hlist hrun hs1 (fun past events hk _ he name haccess => ?_)
      fun hp1 _ _ hc1 => .nil hp1 (by simpa using hc1)).mono ?_ (Nat.le_refl _)
    · have hname : some (l.string?.getD "") = some name := by
        simpa [accessed?, hkind] using haccess
      cases hname
      exact hnone he
    · rintro past _ _ ⟨_, rfl, _, rfl, rfl, rfl⟩
      exact ⟨by simp, rfl⟩
  · exact .of_landing [] (by simp) (fun fuel => walk_childless hrun H.firstChild?_leaf)
      (.of_has hp hh H hnoted.follows (.getVar hfun hkind hfree hslot .nil) hnoted.changes_eq) rfl
      (hnoted.regions_eq.trans hp.regions) ⟨rfl, rfl⟩

/-- The node below an assignment to a name, or below its deletion. -/
theorem boundName?_eq (hs : L.Sound s) (hf : s.tree.Spells (.tree id l (.cons bind lb .nil value)))
    (hbind : lb.kind = .bindName) : boundName? s.tree id = some bind := by
  obtain ⟨⟨-, -, hc⟩, ⟨⟨-, hlb, -⟩, -, -⟩, -⟩ := hf
  rw [boundName?, hs.linked.firstChild?_eq, hc]
  simp [kind_eq_label, hlb, hbind]

/-- An assignment keeps its kind or is turned into a write of a slot. -/
theorem runs_lowerSetName (config : Config) (hp : L.Place s i scopes) (hbind : lb.kind = .bindName)
    (H : P.Has s.tree.clauses s.tree (.tree id l (.cons bind lb .nil value)) .nil) :
    Runs (lowerSetName config id) s fun _ s1 =>
      (s.Still i ((L.site config i).nameEvents scopes (lb.string?.getD "")) s1 ∧
        (L.Eager i s1 → (L.program.body i).vars.get? (lb.string?.getD "") = none)) ∨
      ∃ slot, (L.program.body i).isFunction = true ∧
        (L.program.body i).vars.get? (lb.string?.getD "") = some slot ∧
        s.Noted i ((L.site config i).nameEvents scopes (lb.string?.getD "")) (.setVar id bind) s1 ∧
        P.Has s.tree.clauses s1.tree (.tree id ((l.withKind .setVar).withAttr .varIndex (.int slot))
          (.cons bind (lb.withKind .string) .nil value)) .nil := by
  refine runs_tree ?_
  rw [boundName?_eq hp.sound H.spells hbind]
  refine Runs.bind (runs_localSlot hp _) ?_
  rintro slot s1 ⟨hs1, hslot, hnone⟩
  rw [string?_eq_label, H.spells.2.1.1.2.1] at hslot hnone hs1
  cases slot with
  | none => exact Runs.pure (.inl ⟨hs1, hnone rfl⟩)
  | some slot =>
    rw [← hs1.tree_eq] at H
    refine Runs.bind (runs_onTree
      (Runs.bind (H.relabelAt .nil .nil relabels_setKind) fun _ _ H1 =>
        Runs.bind (H1.relabelChild .nil .nil relabels_setKind) fun _ _ H2 =>
          H2.relabelAt .nil .nil relabels_setAttr)) ?_
    rintro _ _ ⟨t, rfl, H3⟩
    rw [hs1.tree_eq] at H3
    exact Runs.modify (.inr ⟨slot, (hslot slot rfl).1, (hslot slot rfl).2,
      hs1.noted H3.clauses_eq _, H3⟩)

/-- Writing a variable: by its slot, or by its name as before. -/
theorem Passes.setName (hkind : l.kind = .setName)
    (hfree : l.attrs.get? .varIndex = none) (hbind : lb.kind = .bindName)
    (hvalue : L.Passes config room i scopes fits value result budget) (hfits : fits []) :
    L.Passes config room i scopes fits' (.tree id l (.cons bind lb .nil value))
      (Outcome.behind ((L.site config i).nameEvents scopes (lb.string?.getD ""))
      fun past events h =>
        ∃ hv, h = .tree id l (.cons bind lb .nil hv) ∧ result past events hv) (budget + 2) := by
  intro s p before after hp hh hroom _ hlist
  -- Below the assignment come the node of the name, at which nothing is done, and the value.
  have hbelow : ∀ lb', lb'.kind.isQuiet → L.Passes config room i scopes fits
      (.cons bind lb' .nil value) ((Outcome.just (.leaf bind lb')).append result) (1 + budget) :=
    fun lb' hq => (Passes.leaf hq).append hvalue
  obtain ⟨_, s1, hrun, hcases⟩ :=
    hh.lowered_by config (v := fun _ => .children id) (by rw [hkind]; rfl)
    (runs_lowerSetName config hp hbind (hh.has hp.sound hlist))
  rcases hcases with ⟨hs1, hnone⟩ | ⟨slot, hfun, hslot, hnoted, H⟩
  · refine (reaches_still hp hh hlist hrun hs1 (fun past events hk hres he name haccess => ?_)
      fun hp1 hhk hpend hc1 => hbelow lb (by rw [hbind]; rfl) s1 id [] [] hp1 hhk
        (Nat.le_trans hpend hroom) hfits hc1).mono ?_ (by omega)
    · obtain ⟨_, _, _, hv, rfl, rfl, ⟨rfl, rfl⟩, -⟩ := hres
      have hname : some (lb.string?.getD "") = some name := by
        simp [← haccess, accessed?, hkind, hbind]
      cases hname
      exact hnone he
    · rintro past _ _ ⟨_, rfl, _, rfl, _, events, _, hv, rfl, rfl, ⟨rfl, rfl⟩, hres⟩
      exact ⟨events, rfl, hv, rfl, by simpa using hres⟩
  · refine (Reaches.rework [] [.setVar id bind] hp hh (by simp) hrun H hnoted.follows
      hnoted.changes_eq (hnoted.regions_eq.trans hp.regions) (by simp)
      (fun hp1 hh1 hpend hlist1 => .tree hp1 hh1 (by simpa using hlist1)
        (fun _ _ hk _ => keeps_of_kind hk rfl) (hbelow _ rfl s1 id [] [] hp1 hh1.below
          (Nat.le_trans hpend hroom) hfits (by simpa using hh1.spells.1.2.2))) ?_).mono (fun _ _ _ h => h) (by omega)
    rintro must past _ h k changes cut ⟨_, rfl, _, events, _, hv, rfl, rfl,
      ⟨rfl, rfl⟩, hres⟩ hslotted
    obtain ⟨_, _, _, _, _, _, rfl, rfl, rfl, hk, hrest⟩ := hslotted.cons_inv rfl
    obtain ⟨rfl, rfl, rfl⟩ := hrest.nil_inv
    obtain ⟨_, _, _, _, _, _, rfl, rfl, rfl, hkb, hkv⟩ := hk.cons_inv rfl
    obtain ⟨rfl, rfl, rfl⟩ := hkb.nil_inv
    change Slotted _ _ _ _ hv _ at hkv
    refine ⟨.tree id l (.cons bind lb .nil hv), ?_, events, rfl, hv, rfl, by simpa using hres⟩
    have hset : Slotted (L.slotRules i must) p _ _ (.tree id l (.cons bind lb .nil hv)) _ :=
      .setVar hfun hkind hfree hbind hslot hkv .nil
    simpa using hset

/-! ## Deletions -/

/-- A deletion of a variable stays or is cut away. -/
theorem runs_lowerDelete (config : Config) {more : Forest} (hp : L.Place s i scopes)
    (hbind : lb.kind = .bindName)
    (H : P.Has s.tree.clauses s.tree (.tree id l (.cons bind lb .nil more)) .nil) :
    Runs (lowerDelete config P.parent id) s fun node s1 =>
      (node = id ∧ s.Still i ((L.site config i).nameEvents scopes (lb.string?.getD "")) s1 ∧
        (L.Eager i s1 → (L.program.body i).vars.get? (lb.string?.getD "") = none)) ∨
      ∃ slot, P.tree.size ≤ node.index ∧ (L.program.body i).isFunction = true ∧
        (L.program.body i).vars.get? (lb.string?.getD "") = some slot ∧
        s.Noted i ((L.site config i).nameEvents scopes (lb.string?.getD ""))
          (.deleteLocal P.parent id node) s1 ∧
        P.Has s.tree.clauses s1.tree (.leaf node (.ofKindAt .falseValue l.line))
          (.tree id l (.cons bind lb .nil more)) := by
  refine runs_tree ?_
  rw [boundName?_eq hp.sound H.spells hbind]
  refine Runs.bind (runs_localSlot hp _) ?_
  rintro slot s1 ⟨hs1, hslot, hnone⟩
  rw [string?_eq_label, H.spells.2.1.1.2.1] at hslot hnone hs1
  cases slot with
  | none => exact Runs.pure (.inl ⟨rfl, hs1, hnone rfl⟩)
  | some slot =>
    rw [line_eq_label, H.spells.1.2.1]
    rw [← hs1.tree_eq] at H
    refine Runs.bind (runs_onTree (r := fun node t => P.tree.size ≤ node.index ∧
      P.Has s1.tree.clauses t (.leaf node (.ofKindAt .falseValue l.line))
        (.tree id l (.cons bind lb .nil more))) ?_) ?_
    · exact H.newNodeAt.bind fun node t ⟨hnew, H1⟩ => (H1.replaceChild .nil .nil).bind
        fun _ _ H2 => Runs.pure ⟨hnew, H2⟩
    · rintro node _ ⟨t, rfl, hnew, H2⟩
      rw [hs1.tree_eq] at H2
      exact Runs.modify_bind (Runs.pure (.inr ⟨slot, hnew, (hslot slot rfl).1, (hslot slot rfl).2,
        hs1.noted H2.clauses_eq _, H2⟩))

/-- Deleting a property, or what is no reference at all. -/
theorem Passes.deleteProp {c : NodeId} {lc : Node} {kc rest : Forest} (hkind : l.kind = .delProp)
    (hnot : lc.kind ≠ .bindName)
    (hkids : L.Passes config room i scopes fits (.cons c lc kc rest) result budget)
    (hresult : ∀ past events h, result past events h → ∃ id l kids more,
      h = .cons id l kids more ∧ l.kind ≠ .bindName) (hfits : fits []) :
    L.Passes config room i scopes fits' (.tree id l (.cons c lc kc rest)) (result.tree id l)
      (budget + 1) := by
  refine (Passes.relabel l [] (fun s p before after hp hh H => ?_)
    (fun _ past events hk hres _ name haccess => ?_) hkids hfits).mono (fun _ h => h) ?_
    (Nat.le_refl _)
  · have hnone : boundName? s.tree id = none := by
      obtain ⟨⟨-, -, hc⟩, ⟨⟨-, hlc, -⟩, -, -⟩, -⟩ := hh.spells
      rw [boundName?, hp.sound.linked.firstChild?_eq, hc]
      simp [kind_eq_label, hlc, hnot]
    rw [hkind]
    refine Runs.bind (p := fun node s1 => node = id ∧ s1 = s) (runs_tree ?_) ?_
    · rw [hnone]
      exact Runs.pure ⟨rfl, rfl⟩
    · rintro _ _ ⟨rfl, rfl⟩
      exact Runs.pure ⟨rfl, .refl _, rfl, H⟩
  · obtain ⟨_, lr, _, _, rfl, hlr⟩ := hresult past events hk hres
    simp [accessed?, hkind, hlr] at haccess
  · rintro past _ h ⟨events, rfl, hres⟩
    rwa [met_nil] at hres

/-- Deleting a variable: not at all, or by its name as before. -/
theorem Passes.deleteName {key : NodeId} {lk : Node} (hkind : l.kind = .delProp)
    (hbind : lb.kind = .bindName) (hkey : lk.kind = .string) :
    L.Passes config room i scopes fits (.tree id l (.cons bind lb .nil (.leaf key lk)))
      (fun _ events h => events = (L.site config i).nameEvents scopes (lb.string?.getD "") ∧
        h = .tree id l (.cons bind lb .nil (.leaf key lk))) 3 := by
  intro s p before after hp hh hroom _ hlist
  obtain ⟨node, s1, hrun, hcases⟩ := hh.lowered_by config (v := .children) (by rw [hkind]; rfl)
    (runs_lowerDelete config hp hbind (hh.has hp.sound hlist))
  rcases hcases with ⟨rfl, hs1, hnone⟩ | ⟨slot, hnew, hfun, hslot, hnoted, H⟩
  · have hbelow : L.Passes config room i scopes (fun _ => True) (.cons bind lb .nil (.leaf key lk))
        ((Outcome.just (.leaf bind lb)).append (.just (.leaf key lk))) (1 + 1) :=
      (Passes.leaf (by rw [hbind]; rfl)).append (Passes.leaf (by rw [hkey]; rfl))
    refine (reaches_still hp hh hlist hrun hs1 (fun past events hk hres he name haccess => ?_)
      fun hp1 hhk hpend hc1 => hbelow s1 node [] [] hp1 hhk (Nat.le_trans hpend hroom) trivial
        hc1).mono ?_ (Nat.le_refl _)
    · obtain ⟨_, _, _, _, rfl, rfl, ⟨rfl, rfl⟩, rfl, rfl⟩ := hres
      have hname : some (lb.string?.getD "") = some name := by
        simp [← haccess, accessed?, hkind, hbind]
      cases hname
      exact hnone he
    · rintro past _ _ ⟨_, rfl, _, rfl, _, _, _, _, rfl, rfl, ⟨rfl, rfl⟩, rfl, rfl⟩
      exact ⟨by simp, rfl⟩
  · -- The deletion stands by itself now, and a constant without children is in its place.
    rw [← Forest.append_nil (.tree id l _)] at H
    exact (Reaches.of_landing [] (by simp) (fun fuel => walk_childless hrun H.firstChild?_leaf)
      (.of_has hp hh H hnoted.follows (.deleted hfun hkind hbind hslot
        (Nat.le_trans hp.sound.size_le hnew) .nil) hnoted.changes_eq) rfl
      (hnoted.regions_eq.trans hp.regions) ⟨rfl, rfl⟩).mono (fun _ _ _ h => h) (by omega)

end Layout

end ScriptEngine
