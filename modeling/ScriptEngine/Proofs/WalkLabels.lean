import ScriptEngine.Proofs.WalkScopes

/-!
# Labels are lowered

The labels in front of a statement are passed one after the other. The first one whose name is not
taken places a target behind the statement, and those after it share this target: each opens a scope
that ends there. A label whose name is taken is reported and opens none.
-/

namespace ScriptEngine

open Forest ScriptEngine.Tree

variable {t : Tree} {f h : Forest} {stop : NodeId} {events : List Event} {past : Bool}
  {continueTo : Option NodeId}

open Lowering

/-- The label with its targets. -/
def LabelNode.placed (a : LabelNode) (j : JumpData) (stop : NodeId) (continueTo : Option NodeId) :
    Node :=
  a.node.withJump
    { j with label := some a.name, target := some stop, continueTarget := continueTo }

/-! ## What a label stands on -/

namespace Tree.Spells

variable {kind : Token}

/-- The first of the siblings with a given kind. -/
theorem find?_roots (h : t.Spells f) :
    (f.roots.find? (t.kind · = kind)).map t.label = (f.rootsOf kind).head? := by
  induction f with
  | nil => rfl
  | cons id l kids rest _ ih =>
    obtain ⟨⟨-, hl, -⟩, -, hrest⟩ := h
    have hk : t.kind id = l.kind := by rw [kind_eq_label, hl]
    rw [roots_cons, rootsOf]
    by_cases hkind : l.kind = kind
    · rw [List.find?_cons_of_pos (by simp [hk, hkind]), if_pos hkind, Option.map_some, hl]
      rfl
    · rw [List.find?_cons_of_neg (by simp [hk, hkind]), if_neg hkind, ih hrest]

private theorem any_roots (h : t.Spells f) :
    f.roots.any (t.kind · = kind) = true ↔ f.rootsOf kind ≠ [] := by
  rw [List.any_eq_true, ← List.find?_isSome, ← Option.isSome_map, find?_roots h]
  cases f.rootsOf kind <;> simp

end Tree.Spells

namespace Layout

variable {L : Layout} {config : Config} {s s1 : LoweringState} {i : BodyId}
  {scopes scopes' scopes2 : List Scope} {p id : NodeId} {before after ys : List NodeId}
  {g kids rest : Forest} {l ls : Node} {j : JumpData} {a : LabelNode}
  {labels : List LabelNode}
  {room budget budget' : Nat} {fits : List NodeId → Prop} {P : Plot}
  {result : List Scope → Outcome} {result' : Outcome}

/-- The continue target of the loop that a label stands on. -/
theorem continueOf_eq (h : t.Spells (.tree id l kids)) :
    ((loopOf? t id).bind fun loop => (t.jump? loop).bind (·.continueTarget)) =
      kids.continueOf l := by
  obtain ⟨⟨-, hl, hc⟩, hk, -⟩ := h
  have hjump (q : NodeId) : (t.jump? q).bind (·.continueTarget) = (t.label q).continueTarget? := by
    rw [jump?_eq_label, Node.continueTarget?]
  have hblock : ((if kids.roots.any (t.kind · = .enumInit) then kids.roots.find? (t.kind · = .loop)
      else none).bind fun loop => (t.jump? loop).bind (·.continueTarget)) =
        if kids.rootsOf .enumInit = [] then none
        else (kids.rootsOf .loop).head?.bind Node.continueTarget? := by
    by_cases hsome : kids.rootsOf .enumInit = []
    · rw [if_pos hsome, if_neg (by rw [hk.any_roots]; simp [hsome])]
      rfl
    · rw [if_neg hsome, if_pos (hk.any_roots.mpr hsome), ← hk.find?_roots, Option.bind_map]
      exact congrArg _ (funext hjump)
  unfold loopOf? continueOf
  rw [kind_eq_label, hl, hc]
  by_cases hloop : l.kind = .loop
  · simp only [hloop]
    rw [Option.bind_some, hjump, hl]
  · by_cases hplain : l.kind = .block
    · simp only [hplain]
      exact hblock
    · by_cases hlocal : l.kind = .localBlock
      · simp only [hlocal]
        exact hblock
      · simp

/-- A label stands on the first sibling behind it that is no label. -/
theorem labelledStatement?_eq {q : NodeId} {xs : List NodeId} (h : t.Linked)
    (hlist : t.children p = before ++ q :: (xs ++ id :: ys)) (hxs : ∀ x ∈ xs, t.kind x = .label)
    (hid : t.kind id ≠ .label ∧ t.kind id ≠ .target) : labelledStatement? t q = some id := by
  rw [labelledStatement?, h.run_next?_of_children hlist, List.find?_append,
    List.find?_eq_none.mpr fun x hx => by simp [hxs x hx], Option.none_or,
    List.find?_cons_of_pos (by simp [hid])]

/-- No target behind the statement is that of a label around it. -/
theorem sharedTarget?_eq_none (h : t.Linked) (hlist : t.children p = before ++ id :: ys)
    (hys : Unlabelled scopes ys) : sharedTarget? t (scopes.map Scope.region) id = none := by
  rw [sharedTarget?, h.next?_of_children hlist]
  cases hhead : ys.head? with
  | none => rfl
  | some n =>
    rw [Option.filter_eq_none_iff]
    rintro _ ⟨⟩ hboth
    simp only [Bool.and_eq_true, List.any_map, List.any_eq_true, Function.comp_apply,
      decide_eq_true_eq] at hboth
    obtain ⟨-, scope, hs, hkind, hexit⟩ := hboth
    exact hys scope hs hkind (by rw [hhead, ← hexit]; rfl)

/-- The target behind the statement is that of a label around it. -/
theorem sharedTarget?_eq_some (h : t.Linked) (hlist : t.children p = before ++ id :: stop :: ys)
    (hstop : t.kind stop = .target)
    (hscope : ∃ scope ∈ scopes, scope.kind = .label ∧ scope.exit = stop) :
    sharedTarget? t (scopes.map Scope.region) id = some stop := by
  obtain ⟨scope, hs, hkind, hexit⟩ := hscope
  rw [sharedTarget?, h.next?_of_children hlist, List.head?_cons, Option.filter_some, if_pos]
  simp only [hstop, decide_true, Bool.true_and, List.any_map, List.any_eq_true, Function.comp_apply,
    Bool.and_eq_true, decide_eq_true_eq]
  exact ⟨scope, hs, hkind, hexit⟩

/-! ## One label -/

private theorem roots_labelForest : (labelForest labels).roots = labels.map LabelNode.id := by
  induction labels with
  | nil => rfl
  | cons a labels ih => simp [labelForest, ih]

/-- The labels of a statement are labels in the arena. -/
theorem kind_of_labelForest (h : t.Spells (labelForest labels)) :
    ∀ x ∈ labels.map LabelNode.id, t.kind x = .label := by
  induction labels with
  | nil => simp
  | cons a labels ih =>
    obtain ⟨⟨-, hl, -⟩, -, hrest⟩ := h
    rintro x (_ | ⟨_, hx⟩)
    · rw [kind_eq_label, hl, a.kind_eq]
    · exact ih hrest x hx

/-- The name of a label is taken off, and then it is compared with those of the labels around. -/
theorem runs_lowerLabel {post : Unit → LoweringState → Prop} (hp : L.Place s i scopes)
    (hapart : ∀ scope ∈ scopes, scope.node.index < P.tree.size ∧ scope.node ∉ P.own)
    (H : P.Has s.tree.clauses s.tree (.cons a.id a.node (.leaf a.nameId a.nameNode) f) .nil)
    (h : ∀ t, P.Has s.tree.clauses t (.cons a.id a.node .nil f) (.leaf a.nameId a.nameNode) →
      Runs (if scopes.any (Scope.isLabelled a.name) then report a.id (.duplicateLabel a.name)
        else do
          onTree (TreeM.modifyJump a.id ({ · with label := some a.name }))
          let t ← Lowering.tree
          if let some statement := labelledStatement? t a.id then
            let target ← match sharedTarget? t (scopes.map Scope.region) statement with
              | some target => pure target
              | none => onTree do
                let target ← TreeM.newNode .target
                TreeM.addChildAfter P.parent target statement
                return target
            let t ← Lowering.tree
            let continueTarget := (loopOf? t statement).bind fun loop =>
              (t.jump? loop).bind (·.continueTarget)
            onTree (TreeM.modifyJump a.id ({ · with target := some target, continueTarget }))
            openRegion a.id target) (s.withTree t) post) :
    Runs (lowerLabel P.parent a.id) s post := by
  obtain ⟨⟨hb, hl, hc⟩, ⟨⟨-, hln, -⟩, -, -⟩, -⟩ := H.spells
  have hfirst : s.tree.firstChild? a.id = some a.nameId := by
    rw [hp.sound.linked.firstChild?_eq, hc]
    rfl
  have hname : (s.tree.string? a.nameId).getD "" = a.name := by
    rw [string?_eq_label, hln]
    rfl
  refine runs_tree ?_
  rw [hfirst]
  simp only [hname]
  refine Runs.bind (runs_onTree (H.removeChild .nil f .nil .nil)) ?_
  rintro _ _ ⟨t, rfl, H1⟩
  refine runs_openBody (runs_tree ?_)
  have hregions : (s.withTree t).body.regions = scopes.map Scope.region := hp.regions
  -- The labels around are apart from the name that has gone.
  have hany : (scopes.map Scope.region).any (isLabelled t a.name) =
      scopes.any (Scope.isLabelled a.name) := by
    rw [Bool.eq_iff_iff, List.any_map, List.any_eq_true, List.any_eq_true]
    refine exists_congr fun scope => and_congr_right fun hs => ?_
    obtain ⟨hlt, hnot⟩ := hapart scope hs
    rw [Function.comp_apply, Scope.isLabelled_region ((hp.opens scope hs).targets.congr
      (by rw [H1.edits.label_eq _ hlt hnot, H.edits.label_eq _ hlt hnot]))]
  rw [hregions, LoweringState.tree_withTree, hany]
  exact h t H1

/-- A label whose name is taken is reported. -/
theorem runs_lowerLabel_repeated (hp : L.Place s i scopes)
    (hapart : ∀ scope ∈ scopes, scope.node.index < P.tree.size ∧ scope.node ∉ P.own)
    (H : P.Has s.tree.clauses s.tree (.cons a.id a.node (.leaf a.nameId a.nameNode) f) .nil)
    (hname : scopes.any (Scope.isLabelled a.name)) :
    Runs (lowerLabel P.parent a.id) s fun _ s1 =>
      s.Follows i [.complaint a.node.line (.duplicateLabel a.name)] s1 ∧ s1.body = s.body ∧
        P.Has s.tree.clauses s1.tree (.cons a.id a.node .nil f) (.leaf a.nameId a.nameNode) := by
  refine runs_lowerLabel hp hapart H fun t H1 => ?_
  rw [if_pos hname]
  refine (runs_report (s := s.withTree t) hp.body_id (show (t.label a.id).line = a.node.line by
    rw [H1.spells.1.2.1])).mono ?_
  rintro _ s1 ⟨hf, htree, hbody⟩
  exact ⟨(s.follows_withTree i H1.clauses_eq).trans hf, hbody, htree ▸ H1⟩

/-- A label has got its targets and opened a scope. -/
structure LabelPlaced (P : Plot) (s : LoweringState) (i : BodyId) (a : LabelNode) (j : JumpData)
    (stop : NodeId) (continueTo : Option NodeId) (f : Forest) (s1 : LoweringState) : Prop where
  follows : s.Follows i [] s1
  changes_eq : s1.body.changes = s.body.changes
  regions_eq : s1.body.regions = (Scope.label a.id a.name stop continueTo).region :: s.body.regions
  has : P.Has s.tree.clauses s1.tree (.cons a.id (a.placed j stop continueTo) .nil f)
    (.leaf a.nameId a.nameNode)

/-- Once the target behind its statement is known, a label gets its targets and opens a scope. -/
theorem runs_placeLabel (hkind : a.node.kind = .label)
    (H : P.Has s.tree.clauses t (.cons a.id (a.node.withJump { j with label := some a.name }) .nil
      (f ++ .cons id l kids rest)) (.leaf a.nameId a.nameNode)) :
    Runs (do
      let t ← Lowering.tree
      onTree (TreeM.modifyJump a.id ({ · with
        target := some stop
        continueTarget := (loopOf? t id).bind fun loop => (t.jump? loop).bind (·.continueTarget) }))
      openRegion a.id stop) (s.withTree t) fun _ s1 =>
        LabelPlaced P s i a j stop (kids.continueOf l) (f ++ .cons id l kids rest) s1 := by
  obtain ⟨hstmt, hk, -⟩ := (spells_append.mp H.spells.2.2).2
  refine runs_tree ?_
  rw [LoweringState.tree_withTree, continueOf_eq ⟨hstmt, hk, trivial⟩]
  refine Runs.bind (runs_onTree (H.relabelAt .nil _
    (TreeM.relabels_modifyJump (j := { j with label := some a.name }) rfl))) ?_
  rintro _ _ ⟨t1, rfl, H1⟩
  have hregion : (Scope.label a.id a.name stop (kids.continueOf l)).region =
      ⟨a.id, t1.kind a.id, stop⟩ := by
    rw [kind_eq_label, H1.spells.1.2.1]
    show _ = Region.mk a.id a.node.kind stop
    rw [hkind]
    rfl
  exact ⟨(), _, openRegion_run _ hregion, (s.follows_withTree i H1.clauses_eq).trans_nil
    (LoweringState.follows_opening ..), rfl, rfl, H1⟩

/-- The target behind a labelled statement, once one of its labels has placed it. -/
def labelTarget : Option NodeId → Forest
  | none => .nil
  | some stop => .leaf stop (.ofKind .target)

/-- A label whose name is not taken gets its targets and opens a scope. The first such label places
the target behind the statement, and those after it share it. -/
theorem runs_lowerLabel_fresh (target : Option NodeId) (hp : L.Place s i scopes)
    (hapart : ∀ scope ∈ scopes, scope.node.index < P.tree.size ∧ scope.node ∉ P.own)
    (H : P.Has s.tree.clauses s.tree (.cons a.id a.node (.leaf a.nameId a.nameNode)
      (labelForest labels ++ .cons id l kids (labelTarget target ++ rest))) .nil)
    (hl : l.kind ≠ .label ∧ l.kind ≠ .target) (hdata : a.node.data = .jump j)
    (hname : ¬ scopes.any (Scope.isLabelled a.name))
    (hfirst : target = none → Unlabelled scopes (rest.roots ++ P.after))
    (hshared : ∀ stop, target = some stop →
      ∃ scope ∈ scopes, scope.kind = .label ∧ scope.exit = stop) :
    Runs (lowerLabel P.parent a.id) s fun _ s1 => ∃ stop,
      (target = none ∧ P.tree.size ≤ stop.index ∨ target = some stop) ∧
        LabelPlaced P s i a j stop (kids.continueOf l)
          (labelForest labels ++ .cons id l kids (labelTarget (some stop) ++ rest)) s1 := by
  refine runs_lowerLabel hp hapart H fun t H1 => ?_
  rw [if_neg hname]
  refine Runs.bind (runs_onTree (H1.relabelAt .nil _ (TreeM.relabels_modifyJump hdata))) ?_
  rintro _ _ ⟨t1, rfl, H2⟩
  refine runs_tree ?_
  show Runs (match labelledStatement? t1 a.id with | some _ => _ | _ => _) (s.withTree t1) _
  -- The statement is where it was.
  obtain ⟨hlabels, ⟨-, hstmt, -⟩, -, hbehind⟩ := spells_append.mp H2.spells.2.2
  have hlist : t1.children P.parent = P.before ++ a.id :: (labels.map LabelNode.id ++
      id :: ((labelTarget target ++ rest).roots ++ P.after)) := by
    rw [H2.list_eq]
    simp [roots_labelForest]
  have hlist' := hlist
  rw [← List.cons_append, ← List.append_assoc] at hlist'
  have hkind : t1.kind id = l.kind := by rw [kind_eq_label, hstmt]
  rw [labelledStatement?_eq H2.edits.linked hlist
    (kind_of_labelForest hlabels) (by rwa [hkind])]
  dsimp only
  cases target with
  | none =>
    have hnone : sharedTarget? ((s.withTree t).withTree t1).tree (scopes.map Scope.region) id =
        none := sharedTarget?_eq_none H2.edits.linked hlist' (hfirst rfl)
    rw [hnone]
    have htarget : Runs (do
        let target ← TreeM.newNode .target
        TreeM.addChildAfter P.parent target id
        return target) t1 fun stop t' => P.tree.size ≤ stop.index ∧ P.Has s.tree.clauses t'
          (.cons a.id (a.node.withJump { j with label := some a.name }) .nil
            (labelForest labels ++ .cons id l kids (labelTarget (some stop) ++ rest)))
          (.leaf a.nameId a.nameNode) :=
      H2.newNode.bind fun stop t2 ⟨hnew, H3⟩ =>
        (H3.addChildAfter (.cons a.id _ .nil (labelForest labels)) rest).bind fun _ t3 H4 =>
          Runs.pure ⟨hnew, H4⟩
    refine Runs.bind (runs_onTree htarget) ?_
    rintro stop _ ⟨t2, rfl, hnew, H3⟩
    exact (runs_placeLabel a.kind_eq H3).mono fun _ _ h => ⟨stop, .inl ⟨rfl, hnew⟩, h⟩
  | some stop =>
    obtain ⟨⟨-, hls, -⟩, -, -⟩ := hbehind
    have hstop : t1.kind stop = .target := by rw [kind_eq_label, hls, Node.kind_ofKind]
    have hsome : sharedTarget? ((s.withTree t).withTree t1).tree (scopes.map Scope.region) id =
        some stop := sharedTarget?_eq_some H2.edits.linked hlist' hstop (hshared stop rfl)
    rw [hsome]
    exact (runs_placeLabel a.kind_eq H2).mono fun _ _ h => ⟨stop, .inr rfl, h⟩

/-- The scope of a label that has its targets. -/
theorem opens_label (hlabel : s.tree.label a.id = a.placed j stop continueTo)
    (hlt : stop.index < s.tree.size) : L.Opens s i (.label a.id a.name stop continueTo) :=
  ⟨⟨{ j with label := some a.name, target := some stop, continueTarget := continueTo },
    by rw [hlabel]; rfl, rfl, rfl, rfl⟩, hlt, by simp [Scope.kind], by simp [Scope.kind]⟩

/-- Past one label. -/
theorem reaches_label (opened : List Scope) (hp : L.Place s i scopes)
    (hh : L.Held s scopes' p (.tree a.id a.node (.leaf a.nameId a.nameNode) ++ f))
    (hnodes : ∀ scope ∈ scopes,
      scope.node ∉ (Forest.tree a.id a.node (.leaf a.nameId a.nameNode) ++ f).ids)
    (hsub : ∀ scope ∈ scopes', scope ∈ scopes) (hkind : l.kind = .label)
    (hrun : (lowerNode config p a.id).run s = .ok (.children a.id, s1))
    (hf : s.Follows i events s1) (hchanges : s1.body.changes = s.body.changes)
    (hregions : s1.body.regions = (opened ++ scopes).map Scope.region)
    (hopened : ∀ scope ∈ opened, scope.node = a.id ∧ L.Opens s1 i scope)
    (H : (s.plot p before (.tree a.id a.node (.leaf a.nameId a.nameNode) ++ f) after).Has
      s.tree.clauses s1.tree (.leaf a.id l ++ g) (.leaf a.nameId a.nameNode))
    (hg : ∀ s2 before', L.Place s2 i (opened ++ scopes) → L.Held s2 scopes' p g →
      L.pending s2 ≤ L.pending s → s2.tree.children p = before' ++ g.roots ++ after →
      L.Walks config s2 i scopes2 p before' g after result' budget) :
    L.Walks config s i scopes2 p before (.tree a.id a.node (.leaf a.nameId a.nameNode) ++ f) after
      (((Outcome.just (.leaf a.id l)).append result').behind events) (budget + 1) := by
  have hplace : L.Place s1 i (opened ++ scopes) := hp.reworked_apart opened hh hnodes H.edits hf
    hregions fun scope hs => ⟨by simp [(hopened scope hs).1], (hopened scope hs).2⟩
  have hh1 := hh.reworked_within hp.sound (fun c hc =>
    ⟨hp.scope_lt c (hsub c hc), (hp.opens c (hsub c hc)).exit_lt⟩) H hf
  have hst : L.Stretch config i events _ p s s1 := hh.stretch_of_edits hp.sound H.edits hf
  have hlist1 : s1.tree.children p = before ++ (Forest.leaf a.id l ++ g).roots ++ after := H.list_eq
  have hnodes1 : ∀ scope ∈ scopes, scope.node ∉ (Forest.tree a.id l .nil).ids := by
    intro scope hs hin
    have hid : scope.node = a.id := by simpa using hin
    exact hnodes scope hs (by simp [hid])
  have hnil : L.Walks config s1 i (opened ++ scopes) a.id [] .nil [] (.just .nil) 0 :=
    .nil hplace (by simpa using H.spells.1.2.2)
  refine (Reaches.enter [] hp hh (by simp) hrun H.edits hf hchanges
    (fun q hq => H.ids q (by rw [ids_append]; exact List.mem_append_left _ hq))
    (reaches_open hplace hh1 hnodes1 (by simpa using hlist1) (by simp [hkind])
      (fun c hc => (hopened c hc).1) hnil fun s2 before' hp2 hh2 hpend hlist2 =>
        hg s2 before' hp2 hh2 (Nat.le_trans hpend (pending_mono hst.waits))
        hlist2) absorbs_nil).mono ?_ (by omega)
  rintro past _ _ ⟨events', rfl, _, events2, _, h2, rfl, rfl, ⟨_, rfl, rfl, rfl⟩, hres⟩
  exact ⟨_, rfl, _, events2, _, h2, rfl, rfl, ⟨rfl, rfl⟩, hres⟩

/-! ## All labels of a statement -/

/-- Labels have opened their scopes, and what is inside them is known. -/
def Outcome.labelled (stop : NodeId) (continueTo : Option NodeId) (scopes : List Scope)
    (labels : List LabelNode) (result : List Scope → Outcome) : Outcome := fun past events h =>
  ∃ inner front complaints events' h', LabelsOpen stop continueTo scopes labels inner
    front complaints ∧
    events = complaints ++ events' ∧ h = front ++ h' ∧ result inner past events' h'

private theorem Outcome.labelled_repeated (hname : scopes.any (Scope.isLabelled a.name))
    (hrest : (((Outcome.just (.leaf a.id a.node)).append
      (.labelled stop continueTo scopes labels result)).behind
        [.complaint a.node.line (.duplicateLabel a.name)]) past events h) :
    Outcome.labelled stop continueTo scopes (a :: labels) result past events h := by
  obtain ⟨_, rfl, _, _, _, _, rfl, rfl, ⟨rfl, rfl⟩, inner, front, complaints,
      events', h', hopen, rfl,
    rfl, hres⟩ := hrest
  exact ⟨inner, _, _, events', h', .repeated hname hopen, rfl, rfl, by simpa [met] using hres⟩

private theorem Outcome.labelled_fresh
    (hname : ¬ scopes.any (Scope.isLabelled a.name)) (hdata : a.node.data = .jump j)
    (hrest : (((Outcome.just (.leaf a.id (a.placed j stop continueTo))).append
      (.labelled stop continueTo (.label a.id a.name stop continueTo :: scopes)
      labels result)).behind
        []) past events h) :
    Outcome.labelled stop continueTo scopes (a :: labels) result past events h := by
  obtain ⟨_, rfl, _, _, _, _, rfl, rfl, ⟨rfl, rfl⟩, inner, front, complaints,
      events', h', hopen, rfl,
    rfl, hres⟩ := hrest
  exact ⟨inner, _, _, events', h', .fresh hname hdata hopen, rfl, rfl, by simpa [met] using hres⟩

/-- Labels, their statement and what is behind it, where some labels in front of them (`closed`) may
have been passed and one of these may have placed the target. -/
theorem reaches_labelled (target : Option NodeId) (closed : List Scope)
    (hl : l.kind ≠ .label ∧ l.kind ≠ .target)
    (hone : ∀ stop inner front complaints, target = none ∨ target = some stop →
      LabelsOpen stop (kids.continueOf l) (closed ++ scopes) labels inner front complaints →
      L.Passes config room i inner (fun _ => True) (.tree id l kids) (result inner) budget)
    (hrest : L.Passes config room i scopes (Unlabelled scopes) rest result' budget')
    (hafter : Unlabelled scopes after) (hp : L.Place s i (closed ++ scopes))
    (hh : L.Held s scopes p (labelForest labels ++
    (.tree id l kids ++ (labelTarget target ++ rest))))
    (hclosed : ∀ c ∈ closed, (target = some c.exit ∧ c.kind = .label) ∧
      c.node ∉ (labelForest labels ++ (.tree id l kids ++ (labelTarget target ++ rest))).ids)
    (htarget : ∀ stop, target = some stop → closed ≠ [] ∧ L.nodeCount ≤ stop.index)
    (hroom : L.pending s ≤ room)
    (hlist : s.tree.children p = before ++
      (labelForest labels ++ (.tree id l kids ++ (labelTarget target ++ rest))).roots ++ after) :
    L.Walks config s i scopes p before
      (labelForest labels ++ (.tree id l kids ++ (labelTarget target ++ rest))) after
      (fun past events h => ∃ stop, (target = none ∨ target = some stop) ∧
        Outcome.labelled stop (kids.continueOf l) (closed ++ scopes) labels
          (fun inner past events h => (inner ≠ scopes → L.nodeCount ≤ stop.index) ∧
            ((result inner).append ((Outcome.just
              (if inner = scopes then .nil else .leaf stop (.ofKind .target))).append result'))
              past events h) past events h)
      (2 * labels.length + (budget + ((labelTarget target).count + budget'))) := by
  -- One label after the other; `closed` are the scopes of those that have been passed.
  induction labels generalizing s target closed before with
  | nil =>
    cases target with
    | none =>
      -- There was no label, and there is no target.
      obtain rfl : closed = [] :=
        List.eq_nil_iff_forall_not_mem.mpr fun c hc => by simpa using (hclosed c hc).1
      have hboth := (hone id _ _ _ (.inl rfl) .nil).append hrest
      refine (hboth s p before after hp hh hroom hafter hlist).mono ?_ (by simp [labelTarget])
      rintro past _ _ ⟨events1, events2, h1, h2, rfl, rfl, hres, hres'⟩
      refine ⟨id, .inl rfl, scopes, _, _, _, _, .nil, rfl, rfl,
        by simp, events1, events2, h1, h2, rfl,
        rfl, hres, [], events2, .nil, h2, rfl, rfl, ⟨rfl, by simp⟩, ?_⟩
      rwa [met_nil]
    | some stop =>
      -- The target behind the statement closes the scopes of all labels.
      obtain ⟨hsome, hnew⟩ := htarget stop rfl
      refine (reaches_scoped hp hh (.inl rfl) (fun c hc => ⟨fun hin => (hclosed c hc).2 ?_,
        (Option.some.inj (hclosed c hc).1.1).symm⟩) hlist
        (hone _ _ _ _ (.inr rfl) .nil) trivial hrest
        hroom hafter).mono ?_ (by simp [labelTarget])
      · rw [labelForest, nil_append, ids_append]
        exact List.mem_append_left _ hin
      · intro past events h hres
        refine ⟨stop, .inr rfl, _, _, _, _, _, .nil, rfl, rfl, fun _ => hnew, ?_⟩
        rwa [if_neg (by simpa using hsome)]
  | cons a labels ih =>
    have hnodes : ∀ scope ∈ closed ++ scopes, scope.node ∉ (labelForest (a :: labels) ++
        (.tree id l kids ++ (labelTarget target ++ rest))).ids := by
      intro scope hs
      rcases List.mem_append.mp hs with hs | hs
      exacts [(hclosed scope hs).2, (hh.apart scope hs).1]
    have hkeep : ∀ q, q ∉ (labelForest (a :: labels) ++
        (.tree id l kids ++ (labelTarget target ++ rest))).ids → q ∉ (labelForest labels ++
          (.tree id l kids ++ (labelTarget target ++ rest))).ids := fun q hq hin => hq <| by
      rw [labelForest, cons_append, ids_cons]
      exact List.mem_cons_of_mem _ (List.mem_append_right _ hin)
    have H := hh.has hp.sound hlist
    have hapart := fun scope hs => And.intro (hp.scope_lt scope hs) (hnodes scope hs)
    by_cases hname : (closed ++ scopes).any (Scope.isLabelled a.name)
    · -- The name is taken: the label is reported and opens nothing.
      obtain ⟨_, s1, hrun, hf, hbody, H1⟩ := hh.lowered_by config (v := fun _ => .children a.id)
        (by rw [a.kind_eq]; rfl) (runs_lowerLabel_repeated hp hapart H hname)
      refine (reaches_label [] hp hh hnodes (by simp +contextual) a.kind_eq hrun hf (by rw [hbody])
        (by rw [hbody, hp.regions]; rfl) (by simp) H1 fun s2 before' hp2 hh2 hpend hlist2 =>
          ih target closed (fun stop inner front complaints hstop hopen =>
            hone stop inner _ _ hstop (.repeated hname hopen)) hp2 hh2
            (fun c hc => ⟨(hclosed c hc).1, hkeep _ (hclosed c hc).2⟩) htarget
            (Nat.le_trans hpend hroom) hlist2).mono ?_ (by simp only [List.length_cons]; omega)
      rintro past _ _ ⟨_, rfl, _, events, _, h, rfl, rfl, hjust, stop, hstop, hres⟩
      exact ⟨stop, hstop,
        Outcome.labelled_repeated hname ⟨_, rfl, _, events, _, h, rfl, rfl, hjust, hres⟩⟩
    · -- The label opens its scope. It places the target unless another has done so.
      obtain ⟨j, hdata⟩ := a.data_eq
      have hfirst : target = none → Unlabelled (closed ++ scopes) (rest.roots ++ after) := by
        rintro rfl
        obtain rfl : closed = [] :=
          List.eq_nil_iff_forall_not_mem.mpr fun c hc => by simpa using (hclosed c hc).1
        cases rest with
        | nil => exact hafter
        | cons => exact (Held.right (f := .tree a.id a.node _) hh).right.right.unlabelled _
      have hshared : ∀ stop, target = some stop →
          ∃ scope ∈ closed ++ scopes, scope.kind = .label ∧ scope.exit = stop := by
        intro stop hstop
        obtain ⟨c, hc⟩ := List.exists_mem_of_ne_nil _ (htarget stop hstop).1
        obtain ⟨⟨hexit, hckind⟩, -⟩ := hclosed c hc
        exact ⟨c, List.mem_append_left _ hc, hckind, Option.some.inj (hexit.symm.trans hstop)⟩
      obtain ⟨_, s1, hrun, stop, hstop, hplaced⟩ := hh.lowered_by config
        (v := fun _ => .children a.id) (by rw [a.kind_eq]; rfl)
        (runs_lowerLabel_fresh target hp hapart H hl hdata hname hfirst hshared)
      have hopens : L.Opens s1 i (.label a.id a.name stop (kids.continueOf l)) :=
        opens_label hplaced.has.spells.1.2.1 (hplaced.has.spells.bound (by simp [labelTarget]))
      have hold : target = none ∨ target = some stop := hstop.imp_left And.left
      have hnew : L.nodeCount ≤ stop.index := hstop.elim
        (fun h => Nat.le_trans hp.sound.size_le h.2) fun h => (htarget stop h).2
      refine (reaches_label (l := a.placed j stop (kids.continueOf l))
        [.label a.id a.name stop (kids.continueOf l)] hp hh hnodes
          (by simp +contextual) a.kind_eq hrun
        hplaced.follows hplaced.changes_eq (by rw [hplaced.regions_eq, hp.regions]; rfl)
        (by simpa [Scope.node] using hopens) hplaced.has fun s2 before' hp2 hh2 hpend hlist2 =>
          ih (some stop) (.label a.id a.name stop (kids.continueOf l) :: closed) ?_ hp2 hh2 ?_ ?_
            (Nat.le_trans hpend hroom) hlist2).mono ?_ ?_
      · rintro _ inner front complaints (hnone | ⟨⟨⟩⟩) hopen
        · cases hnone
        · exact hone stop inner _ _ hold (.fresh hname hdata hopen)
      · rintro d (_ | ⟨_, hd⟩)
        · refine ⟨⟨rfl, rfl⟩, fun hin => (List.nodup_cons.mp hplaced.has.nodup).1
            (List.mem_append_right [] ?_)⟩
          exact (ids_append _ _).symm ▸ List.mem_append_left _ hin
        · obtain ⟨rfl, -⟩ | rfl := hstop
          · exact absurd (hclosed d hd).1.1 (by simp)
          · exact ⟨(hclosed d hd).1, hkeep _ (hclosed d hd).2⟩
      · rintro _ ⟨⟩
        exact ⟨List.cons_ne_nil _ _, hnew⟩
      · rintro past _ _ ⟨_, rfl, _, events, _, h, rfl, rfl, hjust, _, hnone | ⟨⟨⟩⟩, hres⟩
        · cases hnone
        · exact ⟨stop, hold,
            Outcome.labelled_fresh hname hdata ⟨_, rfl, _, events, _, h, rfl, rfl, hjust, hres⟩⟩
      · simp only [List.length_cons, labelTarget, count_cons, count_nil]
        omega

end Layout

end ScriptEngine
