import ScriptEngine.Proofs.WalkJumps

/-!
# Scopes are opened and closed

A loop and a try open a scope that ends below them. The scopes of a with statement and of a switch
are open among the nodes behind, up to the one that closes them; the clauses of a switch are moved
there first.
-/

namespace ScriptEngine

open Lowering Scope LoweringState

variable {s : LoweringState} {P : Plot} {l lv lc : Node} {g rest kc clauses : Forest}
  {entry leave c : NodeId} {data : SwitchData}

/-! ## Opening a scope -/

namespace LoweringState

/-- The state in which a scope has been opened. -/
def opening (s : LoweringState) (scope : Scope) : LoweringState :=
  { s with body := { s.body with regions := scope.region :: s.body.regions } }

@[simp] theorem tree_opening (s : LoweringState) (scope : Scope) :
    (s.opening scope).tree = s.tree :=
  rfl

theorem follows_opening (s : LoweringState) (i : BodyId) (scope : Scope) :
    s.Follows i [] (s.opening scope) := .of_ledger rfl rfl rfl

end LoweringState

/-- Opening a region opens its scope. -/
theorem Lowering.openRegion_run {node exit : NodeId} (scope : Scope)
    (hregion : scope.region = ⟨node, s.tree.kind node, exit⟩) :
    (openRegion node exit).run s = .ok ((), s.opening scope) := by
  show Except.ok ((), { s with body := { s.body with
    regions := ⟨node, s.tree.kind node, exit⟩ :: s.body.regions } }) = _
  rw [← hregion]
  rfl

namespace Plot.Has

variable {recorded : NodeId → SwitchData} {t : Tree} {switch : NodeId}
  {kept : Forest}

/-- Clauses of a switch move behind one that has been moved before. -/
theorem moveClauses_behind (clauses : Forest)
    (moved : Forest) {a : NodeId} {la : Node} {ka : Forest}
    (H : P.Has recorded t (.cons switch l (kept ++ clauses) (moved ++ .cons a la ka rest)) g) :
    Runs (Lowering.moveClauses P.parent switch a clauses.roots) t fun _ t' =>
      P.Has recorded t' (.cons switch l kept (moved ++ .cons a la ka (clauses ++ rest))) g := by
  induction clauses generalizing t moved a la ka with
  | nil => exact Runs.pure (by simpa using H)
  | cons c lc kc clauses _ ih =>
    refine (H.removeChild .nil _ kept clauses).bind fun _ t1 H1 => ?_
    refine (H1.addChildAfter (.cons switch l (kept ++ clauses) moved) rest).bind fun _ t2 H2 => ?_
    refine (ih (moved ++ .tree a la ka) (by simpa using H2)).mono fun _ t3 H3 => ?_
    simpa using H3

/-- Clauses of a switch move behind it, one after the other. -/
theorem moveClauses (clauses : Forest)
    (H : P.Has recorded t (.cons switch l (kept ++ clauses) rest) g) :
    Runs (Lowering.moveClauses P.parent switch switch clauses.roots) t fun _ t' =>
      P.Has recorded t' (.cons switch l kept (clauses ++ rest)) g := by
  cases clauses with
  | nil => exact Runs.pure (by simpa using H)
  | cons c lc kc clauses =>
    exact (H.removeChild .nil _ kept clauses).bind fun _ t1 H1 =>
      (H1.addChildAfter .nil rest).bind fun _ t2 H2 => H2.moveClauses_behind clauses .nil

end Plot.Has

namespace Layout

variable {L : Layout} {config : Config} {s1 : LoweringState} {i : BodyId}
  {scopes scopes' scopes2 closed opened : List Scope} {scope : Scope} {p id stop : NodeId}
  {before after : List NodeId} {f kids body : Forest} {ls : Node} {j : JumpData}
  {room budget budget' : Nat} {fits fits' : List NodeId → Prop} {result result' : Outcome}
  {events : List Event}

/-! ## Closing scopes -/

/-- In front of a node there is no end of a label. -/
theorem Held.unlabelled (hh : L.Held s scopes p (.cons id l kids rest)) (after : List NodeId) :
    Unlabelled scopes (id :: after) := by
  intro scope hs _ he
  have hid : id = scope.exit := by simpa using he
  exact (hh.apart scope hs).2 (by simp [hid])

private theorem Unlabelled.cons (h : Unlabelled scopes after) (hkind : scope.kind ≠ .label) :
    Unlabelled (scope :: scopes) after := by
  rintro c (_ | ⟨_, hc⟩) hk
  exacts [absurd hk hkind, h c hc hk]

/-- The node that ends scopes, and what is behind it. -/
theorem reaches_close_then (hp : L.Place s i (closed ++ scopes))
    (hh : L.Held s scopes p (.leaf stop ls ++ rest))
    (hkind : ls.kind = .target ∨ ls.kind = .leaveWith) (hclosed : ∀ c ∈ closed, c.exit = stop)
    (hlist : s.tree.children p = before ++ stop :: (rest.roots ++ after))
    (hrest : L.Passes config room i scopes fits rest result budget) (hroom : L.pending s ≤ room)
    (hfits : fits after) :
    L.Walks config s i scopes
      p before (.leaf stop ls ++ rest) after ((Outcome.just (.leaf stop ls)).append result)
      (1 + budget) := by
  exact (reaches_close hp hh.left hkind hclosed hlist).followed hp.sound hp.taken hh.left
    hh.right hh.disjoint fun s1 _ k _ _ _ hl _ hreg hh1 hpend hlist1 =>
      hrest s1 p _ after
        (hp.stretch hl.stretch hreg fun c hc => .inl ⟨by simp [hc], (hh.left.apart c hc).1⟩)
        hh1 (Nat.le_trans hpend hroom) hfits hlist1

/-- Siblings inside scopes, the node that ends the scopes, and what is behind it. -/
theorem reaches_scoped (hp : L.Place s i (closed ++ scopes))
    (hh : L.Held s scopes p (body ++ (.leaf stop ls ++ rest)))
    (hkind : ls.kind = .target ∨ ls.kind = .leaveWith)
    (hclosed : ∀ c ∈ closed, c.node ∉ body.ids ∧ c.exit = stop)
    (hlist : s.tree.children p = before ++ (body ++ (Forest.leaf stop ls ++ rest)).roots ++ after)
    (hbody : L.Passes config room i (closed ++ scopes) fits' body result budget)
    (hfits' : fits' (stop :: (rest.roots ++ after)))
    (hrest : L.Passes config room i scopes fits rest result' budget') (hroom : L.pending s ≤ room)
    (hfits : fits after) :
    L.Walks config s i scopes p before (body ++ (.leaf stop ls ++ rest)) after
      (result.append ((Outcome.just (.leaf stop ls)).append result')) (budget + (1 + budget')) := by
  have hopen : L.Held s (closed ++ scopes) p body :=
    { hh.left with
      apart := fun c hc => by
        rcases List.mem_append.mp hc with hc | hc
        · obtain ⟨hnode, hexit⟩ := hclosed c hc
          exact ⟨hnode, fun hin => hh.disjoint _ hin (by simp [hexit])⟩
        · exact hh.left.apart c hc }
  have hfirst := hbody s p before (stop :: (rest.roots ++ after)) hp hopen hroom hfits'
    (by rw [hlist]; simp)
  rw [Walks, Forest.roots_append, List.append_assoc]
  exact hfirst.append hp hopen hh.right (fun _ h => h) hh.disjoint
    fun s1 before' hp1 hh1 hpend hlist1 =>
      reaches_close_then hp1 hh1 hkind (fun c hc => (hclosed c hc).2) (by simpa using hlist1) hrest
        (Nat.le_trans hpend hroom) hfits

/-- Behind a node that opens scopes. -/
theorem reaches_open (hp : L.Place s i (opened ++ scopes))
    (hh : L.Held s scopes' p (.tree id l kids ++ g))
    (hnodes : ∀ scope ∈ scopes, scope.node ∉ (Forest.tree id l kids).ids)
    (hlist : s.tree.children p = before ++ id :: (g.roots ++ after))
    (hkind : l.kind.isAccess = false)
    (hopened : ∀ scope ∈ opened, scope.node = id)
    (hkids : L.Walks config s i (opened ++ scopes) id [] kids [] result budget)
    (hg : ∀ s1 before', L.Place s1 i (opened ++ scopes) → L.Held s1 scopes' p g →
      L.pending s1 ≤ L.pending s → s1.tree.children p = before' ++ g.roots ++ after →
      L.Walks config s1 i scopes2 p before' g after result' budget') :
    L.Reaches config (below config p id) s i scopes2 p before (.tree id l kids ++ g) after
      ((result.tree id l).append result') (budget + budget') := by
  have hfirst := Reaches.tree hp hh.left hlist
    (fun _ _ hk _ => keeps_of_kind hk hkind) hkids
  refine hfirst.followed hp.sound hp.taken hh.left hh.right hh.disjoint ?_
  rintro s1 _ k _ _ _ hl ⟨hk, rfl, -⟩ hreg hh1 hpend hlist1
  exact hg s1 _ (hl.place_open hp hh.left hnodes hkind hopened hreg) hh1 hpend hlist1

/-! ## Scopes that end below their node -/

/-- What is below a node that opens a scope, if the scope ends there. -/
theorem Reaches.pass_scoped (hp : L.Place s i scopes)
    (hh : L.Held s scopes p (.tree id l (body ++ (.leaf stop ls ++ rest))))
    (hlist : s.tree.children p = before ++ [id] ++ after)
    (hrun : (lowerNode config p id).run s = .ok (.children id, s1)) (htree : s1.tree = s.tree)
    (hf : s.Follows i events s1) (hchanges : s1.body.changes = s.body.changes)
    (hregions : s1.body.regions = (scope :: scopes).map Scope.region)
    (hscope : scope.node = id ∧ scope.exit = stop ∧ scope.kind ≠ .label ∧ L.Opens s1 i scope)
    (hkind : l.kind.isAccess = false) (hstop : ls.kind = .target)
    (hbody : L.Passes config room i (scope :: scopes) (Unlabelled (scope :: scopes)) body result
      budget)
    (hrest : L.Passes config room i scopes fits rest result' budget') (hroom : L.pending s ≤ room)
    (hfits : fits []) :
    L.Walks config s i scopes p before (.tree id l (body ++ (.leaf stop ls ++ rest))) after
      (((result.append ((Outcome.just (.leaf stop ls)).append result')).tree id l).behind events)
      (budget + (1 + budget') + 1) := by
  obtain ⟨hnode, hexit, hlabel, hopens⟩ := hscope
  refine Reaches.pass [scope] hp hh (by simp) hrun (htree ▸ hh.has hp.sound hlist) hf hchanges
    hregions (by simpa [hnode] using hopens)
    (fun _ _ hk _ => keeps_of_kind hk hkind) ?_
  intro hp1 hhk hpend hc
  have hbodyids : id ∉ body.ids := fun hin => hhk.parent_not (by simp [hin])
  refine reaches_scoped hp1 hhk (.inl hstop) ?_ hc hbody ?_ hrest
    (Nat.le_trans hpend hroom) hfits
  · simpa [hnode] using ⟨hbodyids, hexit⟩
  · exact (hhk.right.unlabelled _).cons hlabel

/-- Loops. -/
theorem Passes.loop {continueTo : NodeId} (hkind : l.kind = .loop) (hdata : l.data = .jump j)
    (htarget : j.target = some stop) (hcontinue : j.continueTarget = some continueTo)
    (hstop : ls.kind = .target)
    (hbody : L.Passes config room i (.loop id stop continueTo :: scopes)
      (Unlabelled (.loop id stop continueTo :: scopes)) body result budget) :
    L.Passes config room i scopes fits (.tree id l (body ++ .leaf stop ls))
      ((result.append (.just (.leaf stop ls))).tree id l) (budget + 2) := by
  intro s p before after hp hh hroom _ hlist
  obtain ⟨⟨hb, hl, hc⟩, hk, -⟩ := hh.spells
  have hjump : s.tree.jump? id = some j := by rw [Tree.jump?_eq_label, hl, Node.jump?, hdata]
  have hrun : (lowerNode config p id).run s =
      .ok (.children id, s.opening (.loop id stop continueTo)) := by
    have hk : s.tree.kind id = .loop := by rw [Tree.kind_eq_label, hl, hkind]
    have htarget? : s.tree.target? id = some stop := by
      rw [Tree.target?, hjump]
      exact htarget
    rw [lowerNode_run hk]
    unfold lowerKind
    rw [StateT.run_bind, show StateT.run tree s = .ok (s.tree, s) from rfl]
    dsimp only [bind, Except.bind]
    rw [htarget?]
    show (openRegion id stop >>= fun _ => pure (.children id) : LowerM Visit).run s = _
    rw [StateT.run_bind, openRegion_run (.loop id stop continueTo) (by rw [hk]; rfl)]
    rfl
  have hbound : stop.index < s.tree.size := hk.bound (by simp)
  have hopens : L.Opens (s.opening (.loop id stop continueTo)) i (.loop id stop continueTo) :=
    ⟨⟨j, by rw [tree_opening, hl, hdata], htarget, hcontinue⟩, hbound, by simp [kind],
      by simp [kind]⟩
  have hnil : L.Passes config room i scopes (fun _ => True) .nil (.just .nil) 0 := .nil
  have hreach := Reaches.pass_scoped hp hh hlist hrun rfl (s.follows_opening i _) rfl
    (by rw [opening, hp.regions]; rfl) ⟨rfl, rfl, by simp [kind], hopens⟩
    (by simp [hkind]) hstop hbody hnil hroom trivial
  refine hreach.mono ?_ (by omega)
  rintro past _ _ ⟨_, rfl, hk, rfl, events1, _, h1, _, rfl, rfl, hres, _, _, _, _, rfl,
    rfl, ⟨rfl, rfl⟩, rfl, rfl⟩
  rw [met_nil] at hres
  exact ⟨_, rfl, events1, [], h1, _, by simp, rfl, hres, rfl, rfl⟩

/-! ## Tries -/

/-- A try without a finally block needs a temporary. -/
theorem runs_lowerTry_catch (hid : s.body.id = i) (hl : s.tree.label id = l)
    (hdata : l.data = .jump j) (hfinally : j.finallyTarget = none) :
    Runs (lowerTry id) s fun _ s1 => s.Still i [.attempt] s1 := by
  refine runs_tree ?_
  have hjump : (s.tree.jump? id).bind (·.finallyTarget) = none := by
    rw [Tree.jump?_eq_label, hl, Node.jump?, hdata]
    exact hfinally
  rw [hjump]
  refine runs_openBody (Runs.modify ⟨⟨by simp, ?_, rfl, rfl⟩, rfl, rfl⟩)
  subst hid
  rfl

/-- A try with a finally block opens a scope besides. -/
theorem runs_lowerTry_finally (hid : s.body.id = i) (hl : s.tree.label id = l)
    (hkind : l.kind = .tryStmt) (hdata : l.data = .jump j)
    (hfinally : j.finallyTarget = some entry) :
    Runs (lowerTry id) s fun _ s1 => s1.tree = s.tree ∧ s.Follows i [.guard, .attempt] s1 ∧
      s1.body.changes = s.body.changes ∧
      s1.body.regions = (Scope.guarded id entry).region :: s.body.regions := by
  refine runs_tree ?_
  have hjump : (s.tree.jump? id).bind (·.finallyTarget) = some entry := by
    rw [Tree.jump?_eq_label, hl, Node.jump?, hdata]
    exact hfinally
  rw [hjump]
  have hregion : (Scope.guarded id entry).region = ⟨id, s.tree.kind id, entry⟩ := by
    rw [Tree.kind_eq_label, hl, hkind]
    rfl
  refine Runs.modify_bind ?_
  refine Runs.bind (p := fun _ s2 => s2 = LoweringState.opening _ (.guarded id entry))
    ⟨(), _, openRegion_run (.guarded id entry) hregion, rfl⟩ ?_
  rintro _ _ rfl
  refine runs_openBody (Runs.modify ⟨rfl, ⟨by simp, ?_, rfl, rfl⟩, rfl, rfl⟩)
  subst hid
  rfl

/-- A try without a finally block is passed by way of its children. -/
theorem Passes.tryCatch (hkind : l.kind = .tryStmt) (hdata : l.data = .jump j)
    (hfinally : j.finallyTarget = none)
    (hkids : L.Passes config room i scopes fits' kids result budget) (hfits : fits' []) :
    L.Passes config room i scopes fits (.tree id l kids) ((result.tree id l).behind [.attempt])
      (budget + 1) := by
  intro s p before after hp hh hroom _ hlist
  obtain ⟨_, s1, hrun, hs1⟩ := hh.lowered_by config (v := fun _ => .children id)
    (by rw [hkind]; rfl) (runs_lowerTry_catch hp.body_id hh.spells.1.2.1 hdata hfinally)
  exact reaches_still hp hh hlist hrun hs1
    (fun _ _ hk _ => keeps_of_kind hk (by simp [hkind]))
    fun hp1 hhk hpend hc => hkids s1 id [] [] hp1 hhk (Nat.le_trans hpend hroom) hfits hc

/-- A try with a finally block guards what is in front of its entry. -/
theorem Passes.tryFinally {le : Node} (hkind : l.kind = .tryStmt)
    (hdata : l.data = .jump j) (hfinally : j.finallyTarget = some entry)
    (hentry : le.kind = .target)
    (hguarded : L.Passes config room i (.guarded id entry :: scopes)
      (Unlabelled (.guarded id entry :: scopes)) body result budget)
    (hrest : L.Passes config room i scopes fits' rest result' budget') (hfits : fits' []) :
    L.Passes config room i scopes fits (.tree id l (body ++ (.leaf entry le ++ rest)))
      (((result.append ((Outcome.just (.leaf entry le)).append result')).tree id l).behind
        [.guard, .attempt]) (budget + budget' + 2) := by
  intro s p before after hp hh hroom _ hlist
  obtain ⟨⟨hb, hl, hc⟩, hk, -⟩ := hh.spells
  obtain ⟨_, s1, hrun, htree, hf, hchanges, hregions⟩ := hh.lowered_by config
    (v := fun _ => .children id) (by rw [hkind]; rfl)
    (runs_lowerTry_finally hp.body_id hl hkind hdata hfinally)
  have hflag : s1.body.hasFinally = true := congrArg Ledger.hasFinally hf.ledger_eq
  have hbound : entry.index < s1.tree.size := by
    rw [htree]
    exact hk.bound (by simp)
  have hopens : L.Opens s1 i (.guarded id entry) :=
    ⟨trivial, hbound, fun _ => hflag, by simp [kind]⟩
  exact (Reaches.pass_scoped hp hh hlist hrun htree hf hchanges (by rw [hregions, hp.regions]; rfl)
    ⟨rfl, rfl, by simp [kind], hopens⟩ (by simp [hkind]) hentry hguarded hrest hroom
    hfits).mono (fun _ _ _ h => h) (by omega)

/-! ## With statements -/

/-- A with statement asks for an activation record and opens a scope. -/
theorem runs_lowerWith (config : Config) {ys : List NodeId}
    (hp : L.Place s i scopes) (hl : s.tree.label id = l) (hkind : l.kind = .withBody)
    (hlist : s.tree.children p = before ++ id :: leave :: ys) (hlv : s.tree.label leave = lv)
    (hleave : lv.kind = .leaveWith) :
    Runs (lowerWith id) s fun _ s1 => s1.tree = s.tree ∧
      s.Follows i (L.site config i).activations s1 ∧ s1.body.changes = s.body.changes ∧
      s1.body.regions = (Scope.withBody id leave).region :: s.body.regions := by
  refine Runs.bind (runs_requireActivation L config hp.body_id hp.inFunction) ?_
  intro _ s1 hs1
  refine runs_tree ?_
  have hnext : (s1.tree.next? id).filter (s1.tree.kind · = .leaveWith) = some leave := by
    rw [hs1.tree_eq, hp.sound.linked.next?_of_children hlist]
    simp [Tree.kind_eq_label, hlv, hleave]
  rw [hnext]
  have hregion : (Scope.withBody id leave).region = ⟨id, s1.tree.kind id, leave⟩ := by
    rw [hs1.tree_eq, Tree.kind_eq_label, hl, hkind]
    rfl
  refine ⟨(), _, openRegion_run (.withBody id leave) hregion, hs1.tree_eq, ?_, ?_, ?_⟩
  · have := hs1.follows.trans (s1.follows_opening i (.withBody id leave))
    rwa [List.append_nil] at this
  · rw [opening, hs1.body_eq]
  · rw [opening, hs1.body_eq]

/-- A with statement encloses its body, up to the node that leaves it. -/
theorem Passes.withScope (hkind : l.kind = .withBody)
    (hleave : lv.kind = .leaveWith)
    (hbody : L.Passes config room i (.withBody id leave :: scopes)
      (Unlabelled (.withBody id leave :: scopes)) body result budget)
    (hrest : L.Passes config room i scopes fits rest result' budget') :
    L.Passes config room i scopes fits (.tree id l body ++ (.leaf leave lv ++ rest))
      (((result.tree id l).append ((Outcome.just (.leaf leave lv)).append result')).behind
        (L.site config i).activations) (budget + budget' + 2) := by
  intro s p before after hp hh hroom hfits hlist
  obtain ⟨⟨hb, hl, hc⟩, hk, ⟨hbv, hlv, -⟩, -, -⟩ := hh.spells
  have hlist' : s.tree.children p = before ++ id :: leave :: (rest.roots ++ after) := by
    rw [hlist]
    simp
  obtain ⟨_, s1, hrun, htree, hf, hchanges, hregions⟩ := hh.lowered_by config
    (v := fun _ => .children id) (by rw [hkind]; rfl)
    (runs_lowerWith config hp hl hkind hlist' hlv hleave)
  have hopens : L.Opens s1 i (.withBody id leave) :=
    ⟨trivial, by rw [htree]; exact hbv, by simp [kind], fun _ => not_eager_of_activations hp hf⟩
  refine (Reaches.rework [.withBody id leave] [] hp hh (by simp) hrun
    (htree ▸ hh.has hp.sound hlist) hf hchanges (by rw [hregions, hp.regions]; rfl)
    (by simpa [node] using hopens) (fun hp1 hh1 hpend1 hlist1 => ?_) absorbs_nil).mono
    (fun _ _ _ h => h) (show budget + (1 + budget') + 1 ≤ _ by omega)
  -- The scope is open below the node and is closed right behind it.
  have hbelow : L.Held s1 (.withBody id leave :: scopes) id body :=
    hh1.left.below.open_scope hh1.left.below.parent_not fun hin =>
      hh1.disjoint leave (by simp [show leave ∈ body.ids from hin]) (by simp)
  have hroom1 := Nat.le_trans hpend1 hroom
  have hkids := hbody s1 id [] [] hp1 hbelow hroom1 (unlabelled_nil _) (by rw [htree, hc]; simp)
  exact reaches_open hp1 hh1 (fun c hc => (hh1.left.apart c hc).1) (by rw [htree, hlist']; rfl)
    (by simp [hkind]) (by simp [node]) hkids fun s2 before' hp2 hh2 hpend hlist2 =>
      reaches_close_then hp2 hh2 (.inr hleave) (by simp [exit]) (by simpa using hlist2) hrest
        (Nat.le_trans hpend hroom1) hfits

/-! ## Switches -/

/-- The clauses of a switch move behind it, a target ends them, and a scope is opened. -/
theorem runs_lowerSwitch
    (H : P.Has s.tree.clauses s.tree (.tree id l (.tree c lc kc ++ clauses)) .nil)
    (hkind : l.kind = .switch) (hdata : l.data = .switch data) :
    Runs (lowerSwitch P.parent id) s fun _ s1 => ∃ stop, P.tree.size ≤ stop.index ∧
      s.Follows i [] s1 ∧ s1.body.changes = s.body.changes ∧
      s1.body.regions = (Scope.switch id stop).region :: s.body.regions ∧
      P.Has s.tree.clauses s1.tree (.tree id (l.withStop (some stop)) (.tree c lc kc) ++
        (clauses ++ .leaf stop (.ofKind .target))) .nil := by
  refine Runs.bind (runs_onTree (r := fun stop t => P.tree.size ≤ stop.index ∧
    P.Has s.tree.clauses t (.tree id (l.withStop (some stop)) (.tree c lc kc) ++
      (clauses ++ .leaf stop (.ofKind .target))) .nil) ?_) ?_
  · refine H.newNode.bind fun stop t1 ⟨hnew, H1⟩ => ?_
    refine (H1.addChildAfter .nil .nil).bind fun _ t2 H2 => Runs.get_bind ?_
    rw [H2.spells.1.2.2]
    refine (H2.moveClauses clauses).bind fun _ t3 H3 => ?_
    exact (H3.relabelAt .nil _ (TreeM.relabels_setStop hdata)).bind fun _ t4 H4 =>
      Runs.pure ⟨hnew, H4⟩
  · rintro stop _ ⟨t, rfl, hnew, H'⟩
    have hregion : (Scope.switch id stop).region = ⟨id, (s.withTree t).tree.kind id, stop⟩ := by
      rw [tree_withTree, Tree.kind_eq_label, H'.spells.1.2.1]
      show _ = Region.mk id l.kind _
      rw [hkind]
      rfl
    exact ⟨(), _, openRegion_run _ hregion, stop, hnew,
      (s.follows_withTree i H'.clauses_eq).trans_nil (follows_opening ..), rfl, rfl, H'⟩

/-- Switches. -/
theorem Passes.switch
    {result result' : NodeId → Outcome} (hkind : l.kind = .switch) (hdata : l.data = .switch data)
    (hselector : ∀ stop, L.Passes config room i (.switch id stop :: scopes) (fun _ => True)
      (.tree c lc kc) (result stop) budget)
    (hclauses : ∀ stop, L.Passes config room i (.switch id stop :: scopes)
      (Unlabelled (.switch id stop :: scopes)) clauses (result' stop) budget') :
    L.Passes config room i scopes fits (.tree id l (.tree c lc kc ++ clauses))
      (fun past events h => ∃ stop, L.nodeCount ≤ stop.index ∧
        (((result stop).tree id (l.withStop (some stop))).append
          ((result' stop).append (.just (.leaf stop (.ofKind .target))))) past events h)
      (budget + budget' + 2) := by
  intro s p before after hp hh hroom _ hlist
  obtain ⟨_, s1, hrun, stop, hnew, hf, hchanges, hregions, H⟩ := hh.lowered_by config
    (v := fun _ => .children id) (by rw [hkind]; rfl)
    (runs_lowerSwitch (hh.has hp.sound hlist) hkind hdata)
  have hopens : L.Opens s1 i (.switch id stop) := by
    refine ⟨?_, H.spells.bound (by simp [exit]), by simp [kind], by simp [kind]⟩
    show (s1.tree.label id).data = _
    rw [H.spells.1.2.1]
    rfl
  have hnil : L.Passes config room i scopes (fun _ => True) .nil (.just .nil) 0 := .nil
  -- The selector is below the switch; the clauses and the target are behind it.
  have hreach := Reaches.rework [.switch id stop] [] hp hh (by simp) hrun H hf hchanges
    (by rw [hregions, hp.regions]; rfl) (by simpa [node] using hopens)
    (fun hp1 hh1 hpend1 hlist1 =>
      have hbelow : L.Held s1 (.switch id stop :: scopes) id (.tree c lc kc) :=
        hh1.left.below.open_scope hh1.left.below.parent_not fun hin =>
          hh1.disjoint stop (List.mem_cons_of_mem _ (List.mem_append_left _ hin)) (by simp)
      have hroom1 := Nat.le_trans hpend1 hroom
      have hbehind : id ∉ clauses.ids := fun hin => hh1.disjoint id (by simp) (by simp [hin])
      reaches_open hp1 hh1 (fun c hc => (hh1.left.apart c hc).1) (by simpa using hlist1)
        (by simp [Node.withStop, hkind]) (by simp [node])
        (hselector stop s1 id [] [] hp1 hbelow hroom1 trivial (by rw [hh1.spells.1.2.2]; simp))
        fun s2 before' hp2 hh2 hpend hlist2 =>
          reaches_scoped hp2 hh2 (.inl rfl) (by simpa [node, exit] using hbehind) hlist2
            (hclauses stop) ((hh2.right.unlabelled _).cons (by simp [kind])) hnil
            (Nat.le_trans hpend hroom1) trivial) absorbs_nil
  refine hreach.mono ?_ (by omega)
  rintro past _ _ ⟨events, rfl, events1, _, _, _, rfl, rfl, hres, events2, _, _, _, rfl, rfl, hres',
    _, _, _, _, rfl, rfl, ⟨rfl, rfl⟩, rfl, rfl⟩
  rw [met_nil] at hres hres'
  exact ⟨stop, Nat.le_trans hp.sound.size_le hnew, events1, events2 ++ [], _, _, by simp, rfl, hres,
    events2, [], _, _, rfl, rfl, hres', rfl, rfl⟩

end Layout

end ScriptEngine
