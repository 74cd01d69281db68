import ScriptEngine.Proofs.WalkNames

/-!
# Returns and jumps are lowered

A jump looks for its destination among the open regions, which are those of the scopes around it; in
front of it come the steps that leave the scopes inside that one. A return past a finally block
takes the steps for all scopes. If it has a value, a block takes its place that stores the value
first.
-/

namespace ScriptEngine

variable {label : Option String} {t : Tree} {scopes : List Scope} {P : Plot}
  {clauses : NodeId → SwitchData} {f kc name : Forest} {id c p : NodeId} {l lc : Node}
  {line : Option Nat} {xs steps : List (NodeId × Node)} {j : JumpData}

open Lowering

/-! ## Leaves -/

namespace Forest

@[simp] theorem roots_leaves (xs : List (NodeId × Node)) : (leaves xs).roots = xs.map Prod.fst := by
  induction xs with
  | nil => rfl
  | cons x xs ih => simp [leaves, ih]

@[simp] theorem ids_leaves (xs : List (NodeId × Node)) : (leaves xs).ids = xs.map Prod.fst := by
  induction xs with
  | nil => rfl
  | cons x xs ih => simp [leaves, ih]

end Forest

/-! ## Scopes and regions -/

namespace Scope

variable {scope : Scope} {isBreak : Bool}

/-- The region of a scope tells its label. -/
theorem isLabelled_region (h : scope.Open t) (name : String) :
    Lowering.isLabelled t name scope.region = scope.isLabelled name := by
  cases scope with
  | label node n stop continueTo =>
    obtain ⟨j, hj, hname, -⟩ := h
    have hjump : t.jump? node = some j := by rw [Tree.jump?_eq_label, Node.jump?, hj]
    show (decide (Token.label = .label) &&
      decide ((t.jump? node).bind (·.label) = some name)) = decide (n = name)
    simp [hjump, hname]
  | _ => rfl

private theorem isDestination_region (h : scope.Open t) :
    Lowering.isDestination t isBreak label scope.region = scope.isDestination isBreak label := by
  cases label with
  | none => cases scope <;> cases isBreak <;> rfl
  | some name =>
    show Lowering.isLabelled t name scope.region = _
    rw [isLabelled_region h]
    cases scope <;> rfl

private theorem destinationTarget?_region (h : scope.Open t)
    (hdest : scope.isDestination isBreak label) :
    destinationTarget? t isBreak scope.region = scope.target? isBreak := by
  cases scope with
  | withBody | guarded => cases label <;> simp [isDestination, isLabelled] at hdest
  | loop node stop continueTo =>
    obtain ⟨j, hj, htarget, hcontinue⟩ := h
    have hjump : t.jump? node = some j := by rw [Tree.jump?_eq_label, Node.jump?, hj]
    have htarget? : t.target? node = some stop := by rw [Tree.target?, hjump]; exact htarget
    show (if Token.loop = .switch then _ else if isBreak then t.target? node else
      (t.jump? node).bind (·.continueTarget)) = some (if isBreak then stop else continueTo)
    rw [if_neg (by decide), htarget?, hjump]
    cases isBreak <;> simp [hcontinue]
  | switch node stop =>
    have hswitch := t.switch?_label node
    rw [Node.switch?, show (t.label node).data = .switch { target := some stop } from h] at hswitch
    show (if Token.switch = .switch then (t.switch? node).bind (·.target) else _) = some stop
    rw [if_pos rfl]
    cases hs : t.switch? node with
    | none => simp [hs] at hswitch
    | some data =>
      rw [hs] at hswitch
      simp only [Option.map_some, Option.some.injEq, SwitchData.mk.injEq] at hswitch
      exact hswitch.1.symm
  | label node name stop continueTo =>
    obtain ⟨j, hj, -, htarget, hcontinue⟩ := h
    have hjump : t.jump? node = some j := by rw [Tree.jump?_eq_label, Node.jump?, hj]
    have htarget? : t.target? node = some stop := by rw [Tree.target?, hjump]; exact htarget
    show (if Token.label = .switch then _ else if isBreak then t.target? node else
      (t.jump? node).bind (·.continueTarget)) = if isBreak then some stop else continueTo
    rw [if_neg (by decide), htarget?, hjump]
    cases isBreak <;> simp [hcontinue]

/-- The scopes in front of the nearest destination, and this destination if there is one. -/
theorem exists_split (isBreak : Bool) (label : Option String) (scopes : List Scope)
    (hopen : ∀ scope ∈ scopes, scope.Open t) :
    ∃ inner, (scopes.map region).takeWhile (fun r => !Lowering.isDestination t isBreak label r) =
        inner.map region ∧ (∀ scope ∈ inner, ¬ scope.isDestination isBreak label) ∧
      ((∃ dest outer, scopes = inner ++ dest :: outer ∧ dest.isDestination isBreak label ∧
          scopes.find? (isDestination isBreak label) = some dest) ∨
        scopes = inner ∧ scopes.find? (isDestination isBreak label) = none) := by
  induction scopes with
  | nil => exact ⟨[], rfl, by simp, .inr ⟨rfl, rfl⟩⟩
  | cons scope rest ih =>
    have hregion : Lowering.isDestination t isBreak label scope.region =
        scope.isDestination isBreak label := isDestination_region (hopen scope (by simp))
    by_cases hdest : scope.isDestination isBreak label
    · refine ⟨[], ?_, by simp, .inl ⟨scope, rest, rfl, hdest, ?_⟩⟩
      · rw [List.map_cons, List.takeWhile_cons_of_neg (by simp [hregion, hdest])]
        rfl
      · rw [List.find?_cons_of_pos hdest]
    · obtain ⟨inner, htake, hinner, hcases⟩ := ih fun c hc => hopen c (by simp [hc])
      refine ⟨scope :: inner, ?_, ?_, ?_⟩
      · rw [List.map_cons, List.takeWhile_cons_of_pos (by simpa [hregion] using hdest), htake]
        rfl
      · rintro c (_ | ⟨_, hc⟩)
        exacts [hdest, hinner c hc]
      · rw [List.find?_cons_of_neg hdest]
        rcases hcases with ⟨dest, outer, rfl, hd, hfind⟩ | ⟨rfl, hfind⟩
        · exact .inl ⟨dest, outer, rfl, hd, hfind⟩
        · exact .inr ⟨rfl, hfind⟩

/-- A step is a jump to a finally block or leaves a with scope. -/
theorem kind_of_steps (hsteps : steps.map Prod.snd = scopes.filterMap step?) :
    ∀ x ∈ steps, x.2.kind = .jsr ∨ x.2.kind = .leaveWith := by
  intro x hx
  have hmem : x.2 ∈ scopes.filterMap step? := hsteps ▸ List.mem_map_of_mem hx
  obtain ⟨scope, -, h⟩ := List.mem_filterMap.mp hmem
  cases scope <;> simp only [step?, Option.some.injEq, reduceCtorEq] at h
  · exact .inr (h ▸ rfl)
  · exact .inl (h ▸ rfl)

end Scope

/-! ## Steps -/

/-- Fresh nodes for the steps that leave scopes. -/
def Plot.Steps (P : Plot) (scopes : List Scope) (steps : List (NodeId × Node)) : Prop :=
  steps.map Prod.snd = scopes.filterMap Scope.step? ∧ ∀ x ∈ steps, P.tree.size ≤ x.1.index

namespace Plot.Has

variable {g : Forest}

private theorem unwindSteps (H : P.Has clauses t f g) (scopes : List Scope) :
    Runs (Lowering.unwindSteps (scopes.map Scope.region)) t fun nodes t' => ∃ steps,
      nodes = steps.map Prod.fst ∧ P.Steps scopes steps ∧
        P.Has clauses t' f (.leaves steps ++ g) := by
  induction scopes generalizing t g with
  | nil => exact Runs.pure ⟨[], rfl, ⟨rfl, by simp⟩, H⟩
  | cons scope rest ih =>
    -- Behind a fresh node come those of the other scopes.
    have hcons : ∀ {id l t nodes}, scope.step? = some l → P.tree.size ≤ id.index →
        (∃ steps, nodes = steps.map Prod.fst ∧ P.Steps rest steps ∧
          P.Has clauses t f (.leaves steps ++ .cons id l .nil g)) →
        ∃ steps, id :: nodes = steps.map Prod.fst ∧ P.Steps (scope :: rest) steps ∧
          P.Has clauses t f (.leaves steps ++ g) := by
      rintro id l t _ hstep hid ⟨steps, rfl, ⟨hlabels, hnew⟩, H'⟩
      refine ⟨(id, l) :: steps, rfl, ⟨?_, ?_⟩, H'.swap (.leaves steps) (.leaf id l)⟩
      · rw [List.filterMap_cons_some hstep, List.map_cons, hlabels]
      · rintro x (_ | ⟨_, hx⟩)
        exacts [hid, hnew x hx]
    cases scope with
    | loop | switch | label => exact ih H
    | withBody node leave =>
      exact H.newNode.bind fun id t1 ⟨hid, H1⟩ => (ih H1).bind fun nodes t2 h2 =>
        Runs.pure (hcons rfl hid h2)
    | guarded node entry =>
      exact H.newNode.bind fun id t1 ⟨hid, H1⟩ =>
        (H1.relabelPiece (TreeM.relabels_setTarget rfl)).bind fun _ t2 H2 =>
          (ih H2).bind fun nodes t3 h3 => Runs.pure (hcons rfl hid h3)

/-- Steps one after the other in front of one of the siblings. -/
theorem addBefore (f1 f2 : Forest) {a : NodeId} {la : Node} {ka : Forest}
    (H : P.Has clauses t (f1 ++ .cons a la ka f2) (.leaves steps ++ g)) :
    Runs ((steps.map Prod.fst).forM fun step => TreeM.addChildBefore P.parent step a) t fun _ t' =>
      P.Has clauses t' (f1 ++ (.leaves steps ++ .cons a la ka f2)) g := by
  induction steps generalizing t f1 with
  | nil => exact Runs.pure H
  | cons x steps ih =>
    rw [List.map_cons, List.forM_eq_forM, List.forM_cons]
    refine (H.addChildBefore f1 f2).bind fun _ t1 H1 => ?_
    have H1' : P.Has clauses t1 ((f1 ++ .leaf x.1 x.2) ++ .cons a la ka f2)
        (.leaves steps ++ g) := by
      rwa [Forest.append_assoc]
    refine (ih _ H1').mono fun _ t2 H2 => ?_
    rwa [Forest.append_assoc] at H2

/-- A block that stores a value, takes steps and returns what is stored, in the place of a
return. -/
theorem storeReturn (H : P.Has clauses t (.tree id l (.tree c lc kc)) (.leaves steps ++ .nil)) :
    Runs (do
      TreeM.removeChild id c
      let store ← TreeM.newWithChildren .popv [c]
      TreeM.setLine store line
      let block ← TreeM.newNodeAt .block line
      TreeM.addChildToBack block store
      TreeM.addChildren block (steps.map Prod.fst)
      let ret ← TreeM.newNodeAt .returnPopv line
      TreeM.addChildToBack block ret
      TreeM.replaceChild P.parent id block
      return block) t fun block t' => ∃ store back, P.tree.size ≤ block.index ∧
        P.tree.size ≤ store.index ∧ P.tree.size ≤ back.index ∧
        P.Has clauses t' (.tree block (.ofKindAt .block line)
          (.cons store ((Node.ofKind .popv).withLine line) (.tree c lc kc)
            (.leaves steps ++ .leaf back (.ofKindAt .returnPopv line)))) (.leaf id l) := by
  rw [← Forest.roots_leaves]
  refine (H.removeChild .nil .nil .nil .nil).bind fun _ t1 H1 => ?_
  refine (H1.newWithChildren (.tree c lc kc) (by simp)).bind fun store t2 ⟨hstore, H2⟩ => ?_
  refine (H2.relabelPiece TreeM.relabels_setLine).bind fun _ t3 H3 => ?_
  refine H3.newNodeAt.bind fun block t4 ⟨hblock, H4⟩ => ?_
  refine H4.addChildToBack.bind fun _ t5 H5 => H5.addChildren.bind fun _ t6 H6 => ?_
  refine H6.newNodeAt.bind fun back t7 ⟨hback, H7⟩ => ?_
  refine (H7.swap (.leaf back _) (.tree block _ _)).addChildToBack.bind fun _ t8 H8 => ?_
  exact (H8.replaceChild .nil .nil).bind fun _ t9 H9 =>
    Runs.pure ⟨store, back, hblock, hstore, hback, H9⟩

end Plot.Has

/-- Leaves that access no variable stay. -/
theorem Slotted.leaves {rules : SlotRules} (h : ∀ x ∈ xs, x.2.kind.isAccess = false) :
    Slotted rules p [] .nil (.leaves xs) (.leaves xs) := by
  induction xs with
  | nil => exact .nil
  | cons x xs ih =>
    exact .keep (Layout.keeps_of_kind _ (h x (by simp))) .nil (ih fun y hy => h y (by simp [hy]))

namespace Layout

variable {L : Layout} {config : Config} {s s1 : LoweringState} {i : BodyId}
  {before after : List NodeId} {loose : Forest} {l' : Node} {room budget w : Nat}
  {fits : List NodeId → Prop} {result : Outcome} {events : List Event}

/-- What lowering makes of a forest of a body. -/
def lowers (L : Layout) (config : Config) (i : BodyId) (scopes : List Scope) (form : Form) (w : Nat)
    (f : Forest) : Outcome :=
  fun past events h => Lowered (L.site config i) scopes form w past f h events

/-- The flag in front of a forest is that of the state. -/
theorem Reaches.at_flag {m : Nat → LowerM Unit} {scopes' : List Scope}
    (hr : L.Reaches config m s i scopes' p before f after result budget) :
    L.Reaches config m s i scopes' p before f after
      (fun past events h => past = s.body.hasFinally ∧ result past events h) budget := by
  obtain ⟨s', h, k, changes, cut, events, need, cost, hrun, hcost, hneed, hland,
      hreg, hresult⟩ := hr
  exact ⟨s', h, k, changes, cut, events, need, cost, hrun, hcost, hneed, hland, hreg, rfl, hresult⟩

/-- A target or a step that leaves a with scope, if no scope ends there. -/
theorem Passes.close (hkind : l.kind = .target ∨ l.kind = .leaveWith) :
    L.Passes config room i scopes fits (.leaf id l) (.just (.leaf id l)) 1 := by
  intro s p before after hp hh _ _ hlist
  have hp' : L.Place s i ([] ++ scopes) := hp
  exact reaches_close hp' hh hkind (by simp) (by simpa using hlist)

/-- Steps that have been put in the tree already. -/
theorem Passes.leaves (hkind : ∀ x ∈ xs, x.2.kind = .jsr ∨ x.2.kind = .leaveWith) :
    L.Passes config room i scopes (fun _ => True) (.leaves xs) (.just (.leaves xs)) xs.length := by
  induction xs with
  | nil => exact .nil
  | cons x xs ih =>
    have hrest := ih fun y hy => hkind y (by simp [hy])
    have hfirst : L.Passes config room i scopes (fun _ => True) (.leaf x.1 x.2)
        (.just (.leaf x.1 x.2)) 1 := by
      rcases hkind x (by simp) with hk | hk
      · exact .leaf (by rw [hk]; rfl)
      · exact .close (.inr hk)
    refine (hfirst.append hrest).mono (fun _ h => h) ?_ (by simp [Nat.add_comm])
    rintro past _ _ ⟨_, _, _, _, rfl, rfl, ⟨rfl, rfl⟩, rfl, rfl⟩
    exact ⟨rfl, rfl⟩

/-- Inside the guarded part of a try, a finally block has been met. -/
theorem Place.not_guarded (hp : L.Place s i scopes) (hflag : s.body.hasFinally = false) :
    ∀ scope ∈ scopes, scope.kind ≠ .tryStmt := by
  intro scope hs hk
  have := (hp.opens scope hs).final hk
  rw [hflag] at this
  cases this

/-- Steps have been put in front of a node, and no children are visited. -/
theorem landing_steps (config : Config) (xs : List (NodeId × Node)) (hp : L.Place s i scopes)
    (hh : L.Held s scopes p f) (hf : s.Follows i events s1)
    (H : (s.plot p before f after).Has clauses s1.tree (.leaves xs ++ .leaf id l') loose)
    (hsteps : ∀ x ∈ xs, x.2.kind = .jsr ∨ x.2.kind = .leaveWith) (hkind : l'.kind.isAccess = false)
    (hchanges : s1.body.changes = s.body.changes) :
    L.Landing config i p before after f (.leaves xs ++ .leaf id l') (.leaves xs ++ .leaf id l') []
      .nil events s s1 := by
  refine .of_has hp hh H hf ((Slotted.leaves fun x hx => ?_).append
    (.keep (keeps_of_kind _ hkind) .nil .nil)) hchanges
  rcases hsteps x hx with hk | hk <;> simp [hk]

/-! ## Returns -/

/-- A return without a value stays where it is, behind the steps. -/
theorem runs_lowerReturn_leaf (hp : L.Place s i scopes)
    (H : P.Has s.tree.clauses s.tree (.leaf id l) .nil) :
    Runs (lowerReturn P.parent id) s fun node s1 => node = id ∧ ∃ t steps, s1 = s.withTree t ∧
      P.Steps (if s.body.hasFinally then scopes else []) steps ∧
      P.Has s.tree.clauses t (.leaves steps ++ .leaf id l) .nil := by
  refine runs_openBody ?_
  cases hflag : s.body.hasFinally with
  | false => exact Runs.pure ⟨rfl, s.tree, [], rfl, ⟨rfl, by simp⟩, H⟩
  | true =>
    rw [hp.regions]
    refine runs_onTree_of (fun node t => node = id ∧ ∃ steps, P.Steps scopes steps ∧
      P.Has s.tree.clauses t (.leaves steps ++ .leaf id l) .nil)
      (Runs.bind (H.unwindSteps scopes) ?_) fun node t ⟨hnode, steps, hsteps, H'⟩ =>
        ⟨hnode, t, steps, rfl, hsteps, H'⟩
    rintro _ t ⟨steps, rfl, hsteps, H1⟩
    cases steps with
    | nil => exact Runs.pure ⟨rfl, [], hsteps, H1⟩
    | cons x xs =>
      refine Runs.get_bind ?_
      rw [H1.firstChild?_leaf]
      exact (H1.addBefore .nil .nil).bind fun _ t' H2 => Runs.pure ⟨rfl, _, hsteps, H2⟩

/-- Returns without a value. -/
theorem Passes.ret (hkind : l.kind = .ret) :
    L.Passes config room i scopes fits (.leaf id l) (L.lowers config i scopes .one w (.leaf id l))
      1 := by
  intro s p before after hp hh _ _ hlist
  obtain ⟨node, _, hrun, rfl, t, steps, rfl, hsteps, H⟩ := hh.lowered_by config (v := .children)
    (by rw [hkind]; rfl) (runs_lowerReturn_leaf hp (hh.has hp.sound hlist))
  have hfirst : t.firstChild? node = none := by
    rw [H.edits.linked.firstChild?_eq, (Tree.spells_append.mp H.spells).2.1.2.2]
    rfl
  have hland := landing_steps config steps hp hh (s.follows_withTree i H.clauses_eq) H
    (Scope.kind_of_steps hsteps.1) (by simp [hkind]) rfl
  refine .of_landing (steps.map Prod.fst) (by simp) (fun fuel => walk_childless hrun hfirst) hland
    (by simp) hp.regions (Lowered.ret hkind hp.not_guarded ?_ fun x hx =>
      Nat.le_trans hp.sound.size_le (hsteps.2 x hx))
  rw [hsteps.1]
  split <;> rfl

/-- A return with a value stays as it is, or a block takes its place. -/
theorem runs_lowerReturn_value (hp : L.Place s i scopes)
    (H : P.Has s.tree.clauses s.tree (.tree id l (.tree c lc kc)) .nil) :
    Runs (lowerReturn P.parent id) s fun node s1 => ∃ t, s1 = s.withTree t ∧
      ((node = id ∧ (s.body.hasFinally = false ∨ scopes.filterMap Scope.step? = []) ∧
          P.Has s.tree.clauses t (.tree id l (.tree c lc kc)) .nil) ∨
        (s.body.hasFinally = true ∧ scopes.filterMap Scope.step? ≠ [] ∧ ∃ steps store back,
          P.Steps scopes steps ∧ P.tree.size ≤ node.index ∧ P.tree.size ≤ store.index ∧
          P.tree.size ≤ back.index ∧ P.Has s.tree.clauses t (.tree node (.ofKindAt .block l.line)
            (.cons store ((Node.ofKind .popv).withLine l.line) (.tree c lc kc)
              (.leaves steps ++ .leaf back (.ofKindAt .returnPopv l.line)))) (.leaf id l))) := by
  refine runs_openBody ?_
  cases hflag : s.body.hasFinally with
  | false => exact Runs.pure ⟨s.tree, rfl, .inl ⟨rfl, .inl rfl, H⟩⟩
  | true =>
    rw [hp.regions]
    obtain ⟨_, t1, hrun1, steps, rfl, hsteps, H1⟩ := H.unwindSteps scopes
    have hunwind : Runs (unwindSteps (scopes.map Scope.region)) s.tree fun a t =>
        a = steps.map Prod.fst ∧ t = t1 := ⟨_, t1, hrun1, rfl, rfl⟩
    cases steps with
    | nil =>
      -- No scope has to be left.
      refine runs_onTree_of (fun node t => node = id ∧ t = t1) (Runs.bind hunwind ?_) ?_
      · rintro _ _ ⟨rfl, rfl⟩
        exact Runs.pure ⟨rfl, rfl⟩
      · rintro node _ ⟨hnode, rfl⟩
        exact ⟨_, rfl, .inl ⟨hnode, .inr hsteps.1.symm, H1⟩⟩
    | cons x xs =>
      have hchild : t1.firstChild? id = some c := by
        rw [H1.edits.linked.firstChild?_eq, H1.spells.1.2.2]
        rfl
      have hline : t1.line id = l.line := by rw [Tree.line_eq_label, H1.spells.1.2.1]
      refine runs_onTree_of _ (Runs.bind hunwind ?_) fun node t h => ⟨t, rfl, .inr ⟨rfl, ?_, h⟩⟩
      · rintro _ _ ⟨rfl, rfl⟩
        refine Runs.get_bind ?_
        rw [hchild, hline]
        exact H1.storeReturn.mono fun block t ⟨store, back, h⟩ => ⟨_, store, back, hsteps, h⟩
      · rw [← hsteps.1]
        simp

/-- Returns with a value. -/
theorem Passes.retValue (hkind : l.kind = .ret)
    (hvalue : L.Passes config room i scopes (fun _ => True) (.tree c lc kc)
      (L.lowers config i scopes .one w (.tree c lc kc)) budget) :
    L.Passes config room i scopes fits (.tree id l (.tree c lc kc))
      (L.lowers config i scopes .one w (.tree id l (.tree c lc kc)))
      (budget + scopes.length + 3) := by
  intro s p before after hp hh hroom _ hlist
  obtain ⟨node, _, hrun, t, rfl, hcases⟩ :=
    hh.lowered_by config (v := .children) (by rw [hkind]; rfl)
    (runs_lowerReturn_value hp (hh.has hp.sound hlist))
  rcases hcases with ⟨rfl, hsteps, H⟩ |
    ⟨hflag, hsome, steps, store, back, hsteps, hblock, hstore, hback, H⟩
  · -- The return stays, and its value is passed.
    have hreach := Reaches.pass [] hp hh (by simp) hrun H
      (s.follows_withTree i H.clauses_eq) rfl hp.regions (by simp)
      (fun _ _ hk _ => keeps_of_kind hk (by simp [hkind])) fun hp1 hhk hpend hc =>
        hvalue (s.withTree t) _ [] [] hp1 hhk (Nat.le_trans hpend hroom) trivial hc
    refine hreach.at_flag.mono ?_ (by omega)
    rintro past _ h ⟨rfl, events, rfl, hv, rfl, hres⟩
    rw [met_nil] at hres
    exact Lowered.retValue hkind hp.not_guarded hsteps hres
  · -- A block takes its place; below it come the value, the steps and the new return.
    have hreturn : L.Passes config room i scopes (fun _ => True)
        (.leaf back (.ofKindAt .returnPopv l.line)) _ 1 := .leaf rfl
    have hstored : L.Passes config room i scopes (fun _ => True)
        (.tree store ((Node.ofKind .popv).withLine l.line) (.tree c lc kc)) _ (budget + 1) :=
      .quiet rfl hvalue trivial
    have hbelow := hstored.append ((Passes.leaves (Scope.kind_of_steps hsteps.1)).append hreturn)
    have hreach := Reaches.pass [] hp hh (by simp) hrun H
      (s.follows_withTree i H.clauses_eq) rfl hp.regions (by simp)
      (fun _ _ hk _ => keeps_of_kind hk rfl) fun hp1 hhk hpend hc =>
        hbelow (s.withTree t) _ [] [] hp1 hhk (Nat.le_trans hpend hroom) trivial hc
    have hlen : steps.length ≤ scopes.length := by
      rw [← List.length_map Prod.snd, hsteps.1]
      exact List.length_filterMap_le ..
    refine hreach.at_flag.mono ?_ (by omega)
    rintro past _ h ⟨rfl, events, rfl, _, rfl, events1, _, _, _, rfl, rfl,
      ⟨hv, rfl, hres⟩, _, _, _, _, rfl, rfl, ⟨rfl, rfl⟩, rfl, rfl⟩
    rw [met_nil] at hres
    have hnew : ∀ {q : NodeId}, s.tree.size ≤ q.index → (L.site config i).IsNew q :=
      Nat.le_trans hp.sound.size_le
    rw [List.nil_append, List.append_nil]
    exact Lowered.retLater hkind hflag hsome hres hsteps.1 (fun x hx => hnew (hsteps.2 x hx))
      (hnew hblock) (hnew hstore) (hnew hback)

/-! ## Jumps -/

/-- A complaint is noted, and nothing else changes. -/
theorem runs_report {error : LoweringError} (hid : s.body.id = i)
    (hline : (s.tree.label id).line = line) :
    Runs (report id error) s fun _ s1 =>
      s.Follows i [.complaint line error] s1 ∧ s1.tree = s.tree ∧ s1.body = s.body := by
  refine Runs.modify ⟨⟨by simp, ?_, rfl, rfl⟩, rfl, rfl⟩
  subst hid hline
  rfl

/-- The label of a jump is taken off. -/
theorem runs_takeLabel
    (H : P.Has s.tree.clauses s.tree (.tree id l name) .nil) (hname : JumpLabel name label) :
    Runs (takeLabel id) s fun got s1 => got = label ∧ ∃ t, s1 = s.withTree t ∧
      P.Has s.tree.clauses t (.leaf id l) name := by
  obtain ⟨⟨hb, hl, hc⟩, hk, -⟩ := H.spells
  refine runs_tree ?_
  rw [H.edits.linked.firstChild?_eq, hc]
  cases hname with
  | none => exact Runs.pure ⟨rfl, s.tree, rfl, H⟩
  | @name n ln hkind =>
    refine Runs.bind (runs_onTree (H.removeChild .nil .nil .nil .nil)) ?_
    rintro _ _ ⟨t, rfl, H'⟩
    refine Runs.pure ⟨?_, t, rfl, H'⟩
    rw [Tree.string?_eq_label, hk.1.2.1]

/-- A jump has got its target, and the steps are in front of it. -/
def JumpFound (P : Plot) (s s1 : LoweringState) (i : BodyId) (scopes : List Scope) (id : NodeId)
    (l : Node) (j : JumpData) (label : Option String) (loose : Forest) : Prop :=
  ∃ inner dest outer target steps, s.Follows i [] s1 ∧ scopes = inner ++ dest :: outer ∧
    (∀ scope ∈ inner, ¬ scope.isDestination (l.kind = .breakStmt) label) ∧
    dest.isDestination (l.kind = .breakStmt) label ∧
    dest.target? (l.kind = .breakStmt) = some target ∧ P.Steps inner steps ∧
    P.Has s.tree.clauses s1.tree (.leaves steps ++
      .leaf id ((l.withKind .goto).withJump { j with target := some target })) loose

/-- A jump has been reported and does nothing. -/
def JumpLost (P : Plot) (s s1 : LoweringState) (i : BodyId) (scopes : List Scope) (id : NodeId)
    (l : Node) (label : Option String) (loose : Forest) : Prop :=
  (scopes.find? (Scope.isDestination (l.kind = .breakStmt) label)).bind
      (Scope.target? (l.kind = .breakStmt)) = none ∧
    s.Follows i [.complaint l.line (jumpError (l.kind = .breakStmt) label
      (scopes.find? (Scope.isDestination (l.kind = .breakStmt) label)).isSome)] s1 ∧
    P.Has s.tree.clauses s1.tree (.leaf id (l.withKind .nop)) loose

section

variable (H : P.Has s.tree.clauses t (.leaf id l) loose)

include H

private theorem runs_lostJump (hp : L.Place s i scopes) (found : Option Scope)
    (hfound : scopes.find? (Scope.isDestination (l.kind = .breakStmt) label) = found)
    (hnone : found.bind (Scope.target? (l.kind = .breakStmt)) = none) :
    Runs (do
      report id (jumpError (l.kind = .breakStmt) label found.isSome)
      onTree (TreeM.setKind id .nop)) (s.withTree t) fun _ s1 =>
        s1.body = s.body ∧ JumpLost P s s1 i scopes id l label loose := by
  refine Runs.bind (runs_report hp.body_id
    (show (t.label id).line = l.line by rw [H.spells.1.2.1])) ?_
  rintro _ s1 ⟨hf, htree, hbody⟩
  have H1 : P.Has s.tree.clauses s1.tree (.leaf id l) loose := htree ▸ H
  refine (runs_onTree (H1.relabelAt .nil .nil TreeM.relabels_setKind)).mono ?_
  rintro _ _ ⟨t', rfl, H'⟩
  refine ⟨hbody, hfound ▸ hnone, ?_, H'⟩
  rw [hfound]
  exact ((s.follows_withTree i H.clauses_eq).trans hf).trans_nil
    (s1.follows_withTree i (H'.clauses_eq.trans H1.clauses_eq.symm))

private theorem runs_foundJump {inner outer : List Scope} {dest : Scope} {target : NodeId}
    (hdata : l.data = .jump j) (hscopes : scopes = inner ++ dest :: outer)
    (hinner : ∀ scope ∈ inner, ¬ scope.isDestination (l.kind = .breakStmt) label)
    (hdest : dest.isDestination (l.kind = .breakStmt) label)
    (htarget : dest.target? (l.kind = .breakStmt) = some target) :
    Runs (onTree do
      let steps ← unwindSteps (inner.map Scope.region)
      steps.forM fun step => TreeM.addChildBefore P.parent step id
      TreeM.setKind id .goto
      TreeM.setTarget id target) (s.withTree t) fun _ s1 =>
        s1.body = s.body ∧ JumpFound P s s1 i scopes id l j label loose := by
  refine runs_onTree_of (fun _ t' => ∃ steps, P.Steps inner steps ∧ P.Has s.tree.clauses t'
    (.leaves steps ++ .leaf id ((l.withKind .goto).withJump
      { j with target := some target })) loose)
    (Runs.bind (H.unwindSteps inner) ?_) ?_
  · rintro _ t1 ⟨steps, rfl, hsteps, H1⟩
    refine (H1.addBefore .nil .nil).bind fun _ t2 H2 => ?_
    refine (H2.relabelAt (.leaves steps) .nil TreeM.relabels_setKind).bind fun _ t3 H3 => ?_
    exact (H3.relabelAt (.leaves steps) .nil (TreeM.relabels_setTarget (j := j)
      (by simp [Node.withKind, hdata]))).mono fun _ t4 H4 => ⟨steps, hsteps, H4⟩
  · rintro _ t' ⟨steps, hsteps, H'⟩
    exact ⟨rfl, inner, dest, outer, target, steps, s.follows_withTree i H'.clauses_eq, hscopes,
      hinner, hdest, htarget, hsteps, H'⟩

end

/-- A jump gets its target and the steps in front of it, or it is reported and does nothing. -/
theorem runs_lowerJump (hp : L.Place s i scopes)
    (hapart : ∀ scope ∈ scopes, scope.node.index < P.tree.size ∧ scope.node ∉ P.own)
    (H : P.Has s.tree.clauses s.tree (.tree id l name) .nil) (hdata : l.data = .jump j)
    (hname : JumpLabel name label) :
    Runs (lowerJump P.parent id) s fun _ s1 => s1.body = s.body ∧
      (JumpFound P s s1 i scopes id l j label name ∨ JumpLost P s s1 i scopes id l label name) := by
  refine runs_tree ?_
  rw [Tree.kind_eq_label, H.spells.1.2.1]
  refine Runs.bind (runs_takeLabel H hname) ?_
  rintro got _ ⟨hgot, t, rfl, H1⟩
  rw [hgot]
  refine runs_tree (runs_openBody ?_)
  have hopen : ∀ scope ∈ scopes, scope.Open t := fun scope hs =>
    (hp.opens scope hs).targets.congr (by
      obtain ⟨hlt, hnot⟩ := hapart scope hs
      rw [H1.edits.label_eq _ hlt hnot, H.edits.label_eq _ hlt hnot])
  obtain ⟨inner, htake, hinner, hcases⟩ :=
    Scope.exists_split (l.kind = .breakStmt) label scopes hopen
  have hregions : (s.withTree t).body.regions = scopes.map Scope.region := hp.regions
  simp only [hregions, LoweringState.tree_withTree, htake, List.length_map]
  rcases hcases with ⟨dest, outer, hscopes, hdest, hfind⟩ | ⟨hscopes, hfind⟩
  · have hmem : dest ∈ scopes := by simp [hscopes]
    have hget : (scopes.map Scope.region)[inner.length]? = some dest.region := by simp [hscopes]
    rw [hget, Option.bind_some, Scope.destinationTarget?_region (hopen dest hmem) hdest]
    cases htarget : dest.target? (l.kind = .breakStmt) with
    | none =>
      exact (runs_lostJump H1 hp (some dest) hfind htarget).mono fun _ _ h => ⟨h.1, .inr h.2⟩
    | some target =>
      exact (runs_foundJump H1 hdata hscopes hinner hdest htarget).mono
        fun _ _ h => ⟨h.1, .inl h.2⟩
  · have hget : (scopes.map Scope.region)[inner.length]? = none := by simp [hscopes]
    rw [hget]
    exact (runs_lostJump H1 hp none hfind rfl).mono fun _ _ h => ⟨h.1, .inr h.2⟩

/-- Jumps. -/
theorem Passes.jump (hkind : l.kind = .breakStmt ∨ l.kind = .continueStmt)
    (hdata : l.data = .jump j) (hname : JumpLabel name label) :
    L.Passes config room i scopes fits (.tree id l name)
      (L.lowers config i scopes .one w (.tree id l name)) 1 := by
  intro s p before after hp hh _ _ hlist
  obtain ⟨_, s1, hrun, hbody, hcases⟩ := hh.lowered_by config (v := fun _ => .done id)
    (by rcases hkind with hk | hk <;> rw [hk] <;> rfl)
    (runs_lowerJump hp (fun scope hs => ⟨hp.scope_lt scope hs, (hh.apart scope hs).1⟩)
      (hh.has hp.sound hlist) hdata hname)
  have hregions : s1.body.regions = scopes.map Scope.region := hbody ▸ hp.regions
  rcases hcases with ⟨inner, dest, outer, target, steps, hf, rfl, hinner, hdest,
    htarget, hsteps, H⟩ | ⟨hnone, hf, H⟩
  · have hland := landing_steps config steps hp hh hf H (Scope.kind_of_steps hsteps.1)
      (by simp [Node.withKind]) (by rw [hbody])
    exact .of_landing (steps.map Prod.fst) (by simp) (fun fuel => walk_done hrun) hland (by simp)
      hregions (Lowered.jump hkind hdata hname rfl hinner hdest htarget hsteps.1
        fun x hx => Nat.le_trans hp.sound.size_le (hsteps.2 x hx))
  · have hland := landing_steps config [] hp hh hf H (by simp) (by simp [Node.withKind])
      (by rw [hbody])
    exact .of_landing [] (by simp) (fun fuel => walk_done hrun) hland rfl hregions
      (Lowered.lost hkind hdata hname hnone)

end Layout

end ScriptEngine
