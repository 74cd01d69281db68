import ScriptEngine.Proofs.ShapesBuilt

/-!
# Shapes of statements

The shapes of statements, each with its targets and jumps, make built trees of their parts. The
parts lie on a workbench while the statement is put together.
-/

namespace ScriptEngine

open Forest Workbench

variable {ids used : List NodeId} {name : String} {init cond step : Option NodeId}
  {body left id a b : NodeId} {y kids f g : Forest} {loopKind : LoopKind} {t t0 : Tree}
  {limits limits' : Limits} {line n : Nat} {l : Node} {kind : Token} {stops : List (NodeId × Nat)}

namespace Parts

/-- A variable statement, to which declarations may still be added. -/
def var (id : NodeId) : Parts where
  roots := [id]
  Fits limits f := ∃ l kids, f = .tree id l kids ∧ l.kind = .var ∧ l.Fits limits ∧
    kids.Values limits .decls
  mono := by
    rintro limits limits' _ ⟨l, kids, rfl, hkind, hfits, hv⟩ hle
    exact ⟨l, kids, rfl, hkind, hfits.mono hle, hv.mono hle⟩

/-- What a loop starts with: an expression or variables. -/
def head (id : NodeId) : Parts where
  roots := [id]
  Fits limits f := f.Values limits .one ∨ (var id).Fits limits f
  mono h hle := h.imp (·.mono hle) ((var id).mono · hle)

/-- A switch, to which clauses may still be added. -/
def switch (id : NodeId) : Parts where
  roots := [id]
  Fits limits f := ∃ l data selector clauses, f = .tree id l (selector ++ clauses) ∧
    l.kind = .switch ∧ l.data = .switch data ∧ l.Fits limits ∧ selector.Values limits .one ∧
      clauses.IsBuilt .list ∧ clauses.Placed limits Token.isClause Token.isClause
  mono := by
    rintro limits limits' _ ⟨l, data, selector, clauses, rfl, hkind, hdata, hfits, hv, hb, hp⟩ hle
    exact ⟨l, data, selector, clauses, rfl, hkind, hdata, hfits.mono hle, hv.mono hle, hb,
      hp.mono hle⟩

/-- A label that has no statement yet. -/
def label (id : NodeId) : Parts where
  roots := [id]
  Fits limits f := (∃ a, f = labelForest [a]) ∧ f.Placed limits Token.isFree Token.isFree
  mono h hle := ⟨h.1, h.2.mono hle⟩

/-- A statement of variables is a statement. -/
theorem Holds.of_var (h : (var id).Holds limits f) : (node id).Holds limits f := by
  obtain ⟨hroots, l, kids, rfl, hkind, hfits, hv⟩ := h
  exact ⟨hroots, fun w marks _ _ => .var hkind (hv.free _ marks),
    hv.placed.overOperands (by rw [hkind]; rfl) (by rw [hkind]; rfl) (by simp [hkind]) hfits⟩

/-- A switch is a statement. -/
theorem Holds.of_switch (h : (switch id).Holds limits f) : (node id).Holds limits f := by
  obtain ⟨hroots, l, data, selector, clauses, rfl, hkind, hdata, hfits, hv, hb, hp⟩ := h
  refine ⟨hroots, fun w marks _ hm => .switch hkind hdata (hv.free _ marks)
    (hb _ marks fun t d h => hm t d (by simpa [hkind] using .inr h)),
    by rw [hkind]; rfl, hfits, ?_, trivial⟩
  obtain ⟨s, ls, ks, rfl⟩ := (hv.free 0 fun _ _ => True).one_eq_tree
  rw [hkind]
  exact ⟨hv.placed.1, hv.placed.2.1, hv.placed.2.2.1, hp⟩

/-- A clause is put behind the others of a switch. -/
theorem Holds.clause (h : (switch id).Holds limits (.tree id l kids)) (hb : g.IsBuilt .one)
    (hp : g.Placed limits Token.isClause Token.isClause) :
    (switch id).Holds limits (.tree id l (kids ++ g)) := by
  obtain ⟨-, l', data, selector, clauses, heq, hkind, hdata, hfits, hv, hb', hp'⟩ := h
  obtain ⟨-, rfl, rfl, -⟩ := Forest.cons.inj heq
  refine ⟨rfl, l, data, selector, clauses ++ g, by rw [append_assoc], hkind, hdata, hfits, hv, ?_,
    placed_append.mpr ⟨hp', hp⟩⟩
  exact fun w marks hm => (hb' w marks fun t d h => hm t d (by simp [h])).append
    (hb w marks fun t d h => hm t d (by simp [h])).list_of_one

end Parts

namespace Shape

open TreeM

/-! ## Simple statements -/

/-- A plain node with a line over an expression. -/
theorem crafts_overExpr (hkind : kind.IsOperator) :
    Crafts (.expr a) (do
      let node ← newWithChildren kind [a]
      setLine node (knownLine line)
      return node) .node := by
  rintro limits f t0 used t ⟨hroots, hf⟩ H
  refine Runs.bind (H.above [0] (by decide) hroots (by simp)) fun id t1 H => ?_
  refine (H.setLine (i := 1) rfl).bind fun _ t2 H => ?_
  exact Runs.pure ⟨_, ⟨rfl, (hf.list.operation (hkind.operates rfl rfl rfl)).made⟩,
    H.only [1] (by decide)⟩

/-- An expression is a statement. -/
theorem crafts_exprStatement : Crafts (.expr a) (exprStatement a line) .node :=
  crafts_overExpr ⟨rfl, rfl, rfl, nofun, rfl⟩

theorem crafts_throwing : Crafts (.expr a) (throwing a line) .node :=
  crafts_overExpr ⟨rfl, rfl, rfl, nofun, rfl⟩

/-- A block of statements. -/
theorem crafts_block : Crafts (.list ids) (block ids line) .block := by
  rintro limits f t0 used t ⟨hroots, hf⟩ H
  refine H.newNodeAt.bind fun id t1 H => ?_
  refine Runs.bind (H.addChildren (i := 1) [0] rfl (by decide) hroots) fun _ t2 H => ?_
  exact Runs.pure ⟨_, ⟨rfl, _, _, rfl, rfl, .blank rfl, hf⟩, H.only [1] (by decide)⟩

/-- A return, with a value or without. -/
theorem crafts_ret {value : Option NodeId} : Crafts (.opt .expr value) (ret value line) .node := by
  rintro limits f t0 used t hf H
  refine H.newNodeAt.bind fun id t1 H => ?_
  refine Runs.bind (H.addChildren (i := 1) [0] rfl (by decide) (Parts.holds_opt (fun _ => rfl) hf))
    fun _ t2 H => ?_
  refine Runs.pure ⟨_, ⟨rfl, ?_⟩, H.only [1] (by decide)⟩
  cases value with
  | none =>
    obtain rfl := eq_nil_of_roots hf.1
    exact ⟨fun w marks _ _ => .ret rfl, .leaf rfl (.blank rfl)⟩
  | some value =>
    exact ⟨fun w marks _ _ => .retValue rfl (hf.2.free _ marks),
      hf.2.placed.overOperands rfl rfl nofun (.blank rfl)⟩

/-- A label, with its name below it. -/
theorem crafts_label : Crafts .none (label name line) .label := by
  rintro limits f t0 used t - H
  refine H.newNodeAt.bind fun id t1 H => ?_
  refine H.newString.bind fun child t2 H => ?_
  refine (H.addChildToBack (i := 1) (j := 2) rfl rfl rfl (by decide)).bind fun _ t3 H => ?_
  refine Runs.pure ⟨_, ⟨rfl, ⟨⟨id, .ofKindAt .label (knownLine line), child,
    (Node.ofKind .name).withPayload (.string name), rfl, ⟨{}, rfl⟩, rfl⟩, rfl⟩, ?_⟩,
    H.only [1] (by decide)⟩
  exact Forest.Placed.overOperands (.leaf rfl ⟨⟨name, rfl⟩, nofun, rfl, nofun⟩) rfl rfl nofun
    (.blank rfl)

/-- A jump, with a label or without. -/
theorem crafts_jump {name : Option String} (hkind : kind = .breakStmt ∨ kind = .continueStmt) :
    Crafts .none (jump kind name line) .node := by
  rintro limits f t0 used t - H
  have hmade {id : NodeId} {kids : Forest} {label : Option String} (hlabel : JumpLabel kids label)
      (hk : kids.Placed limits Token.isOperand Token.isOperand) :
      (Forest.tree id (.ofKindAt kind (knownLine line)) kids).Made limits [] 0 .one := by
    refine ⟨fun w marks _ _ => .jump (j := {}) hkind ?_ hlabel, ?_⟩
    · rcases hkind with rfl | rfl <;> rfl
    · rcases hkind with rfl | rfl <;> exact hk.overOperands rfl rfl nofun (.blank rfl)
  unfold jump
  refine H.newNodeAt.bind fun id t1 H => ?_
  cases name with
  | none => exact Runs.pure ⟨_, ⟨rfl, hmade .none trivial⟩, H.last⟩
  | some name =>
    refine H.newString.bind fun child t2 H => ?_
    refine (H.addChildToBack (i := 1) (j := 2) rfl rfl rfl (by decide)).bind fun _ t3 H => ?_
    refine Runs.pure ⟨_, ⟨rfl, hmade (.name rfl) (.leaf rfl ?_)⟩, H.only [1] (by decide)⟩
    exact ⟨⟨name, rfl⟩, nofun, rfl, nofun⟩

/-- A statement of variables, at first without any. -/
theorem crafts_newVar {line : Option Nat} : Crafts .none (newNodeAt .var line) .var := by
  rintro limits f t0 used t - H
  refine H.newNodeAt.mono fun id t1 H => ⟨_, ⟨rfl, _, _, rfl, rfl, .blank rfl, ?_⟩, H.last⟩
  exact ⟨fun _ _ => .declNil, trivial⟩

/-- A declaration is put behind the others of a variable statement. -/
theorem crafts_addDecl :
    Crafts ((Parts.var a).and (.opt .expr init)) (do
      let decl ← newString .name name
      addChildren decl init.toList
      addChildToBack a decl) fun _ => .var a := by
  rintro limits _ t0 used t ⟨-, f, g, rfl, ⟨-, l, kids, rfl, hkind, hfits, hv⟩, hg⟩ H
  have hname : ((Node.ofKind .name).withPayload (.string name)).Fits limits :=
    ⟨⟨name, rfl⟩, nofun, rfl, nofun⟩
  refine H.split.newString.bind fun decl t1 H => ?_
  refine Runs.bind (H.addChildren (i := 2) [1] rfl (by decide) (Parts.holds_opt (fun _ => rfl) hg))
    fun _ t2 H => ?_
  refine Runs.mono (H.addChildToBack (i := 0) (j := 2) rfl rfl rfl (by decide)) fun _ t3 H =>
    ⟨_, ⟨rfl, l, _, rfl, hkind, hfits, fun w marks => (hv.free w marks).append_decls ?_, ?_⟩,
      H.only [0] (by decide)⟩
  · cases init with
    | none =>
      obtain rfl := eq_nil_of_roots hg.1
      exact .decl rfl .declNil
    | some init => exact .declInit rfl (hg.2.free w marks) .declNil
  · refine placed_append.mpr ⟨hv.placed, ?_⟩
    cases init with
    | none =>
      obtain rfl := eq_nil_of_roots hg.1
      exact .leaf rfl hname
    | some init => exact hg.2.placed.operand rfl hname

/-! ## Conditionals, scopes and switches -/

/-- A conditional statement: jumps around its two branches. -/
theorem crafts_ifElse {no : Option NodeId} :
    Crafts (((Parts.expr a).and (.made stops n b)).and (.opt (.made stops n) no))
      (ifElse a b no line) (.made stops n) := by
  rintro limits _ t0 used t ⟨-, _, z, rfl, ⟨-, x, y, rfl, hx, hy⟩, hz⟩ H
  unfold ifElse
  refine H.split.split.newNodeAt.bind fun result t1 H => ?_
  refine H.newNode.bind fun otherwise t2 H => ?_
  refine Runs.bind (H.above [0] (by decide) hx.1 (by simp)) fun test t3 H => ?_
  refine (H.setTarget (i := 5) rfl rfl (H.bound (i := 4) rfl rfl)).bind fun _ t4 H => ?_
  refine (H.addChildToBack (i := 3) (j := 5) rfl rfl rfl (by decide)).bind fun _ t5 H => ?_
  refine (H.addChildToBack (i := 3) (j := 1) rfl rfl hy.1 (by decide)).bind fun _ t6 H => ?_
  -- The places are evaluated once here, and not again in every step that follows.
  simp only [clear, gather, List.cons_append, List.nil_append, List.set_cons_zero,
    List.set_cons_succ] at H
  cases no with
  | none =>
    refine (H.addChildToBack (i := 3) (j := 4) rfl rfl rfl (by decide)).bind fun _ t7 H => ?_
    refine Runs.pure ⟨_, ⟨rfl, .block (.close otherwise ?_ ?_) rfl (.blank rfl)⟩,
      H.only [3] (by decide)⟩
    · exact ((Made.test (.inr rfl) (by simp) hx.2).append
        (hy.2.list.wider (by simp))).append .target
    · simp
  | some no =>
    refine H.newNode.bind fun stop t7 H => ?_
    refine H.newNode.bind fun skip t8 H => ?_
    refine (H.setTarget (i := 7) rfl rfl (H.bound (i := 6) rfl rfl)).bind fun _ t9 H => ?_
    have hno : z.roots = [no] := hz.1
    refine Runs.bind (H.addChildren (i := 3) [7, 4, 2, 6] rfl (by decide) (by simp [gather, hno]))
      fun _ t10 H => ?_
    refine Runs.pure ⟨_, ⟨rfl, .block (.close otherwise (.close stop ?_ ?_) ?_) rfl
      (.blank rfl)⟩, H.only [3] (by decide)⟩
    · exact ((Made.test (.inr rfl) (by simp) hx.2).append (hy.2.list.wider (by simp))).append
        (.append (.jump (.inl rfl) (by simp))
          (.append .target (.append (hz.2.list.wider (by simp)) .target)))
    · simp [gather]
    · simp [gather]

/-- A conditional statement with one branch. -/
theorem crafts_ifThen :
    Crafts ((Parts.expr a).and (.made stops n b)) (ifElse a b none line) (.made stops n) := by
  refine crafts_ifElse.of ?_
  intro limits f hf
  have hall := hf.pair (Parts.holds_none limits)
  rwa [append_nil] at hall

/-- A with statement: its body counts one scope more. -/
theorem crafts_withScope :
    Crafts ((Parts.expr a).and (.made stops (n + 1) b)) (withScope a b line) (.made stops n) := by
  rintro limits _ t0 used t ⟨-, x, y, rfl, hx, hy⟩ H
  unfold withScope
  refine H.split.newNodeAt.bind fun result t1 H => ?_
  refine Runs.bind (H.above [0] (by decide) hx.1 (by simp)) fun enter t2 H => ?_
  refine (H.addChildToBack (i := 2) (j := 3) rfl rfl rfl (by decide)).bind fun _ t3 H => ?_
  refine Runs.bind (H.above [1] (by decide) hy.1 (by simp)) fun inner t4 H => ?_
  refine (H.setLine (i := 4) rfl).bind fun _ t5 H => ?_
  refine (H.addChildToBack (i := 2) (j := 4) rfl rfl rfl (by decide)).bind fun _ t6 H => ?_
  refine H.newNode.bind fun leave t7 H => ?_
  refine (H.addChildToBack (i := 2) (j := 5) rfl rfl rfl (by decide)).bind fun _ t8 H => ?_
  exact Runs.pure ⟨_, ⟨rfl, .block (.scope hx.2 hy.2) rfl (.blank rfl)⟩, H.only [2] (by decide)⟩

/-- A switch, at first without clauses. -/
theorem crafts_switch : Crafts (.expr a) (switch a line) .switch := by
  rintro limits f t0 used t ⟨hroots, hf⟩ H
  refine Runs.bind (H.above [0] (by decide) hroots (by simp)) fun id t1 H => ?_
  refine (H.setLine (i := 1) rfl).bind fun _ t2 H => ?_
  exact Runs.pure ⟨_, ⟨rfl, _, {}, f, .nil, (congrArg _ (append_nil f)).symm, rfl, rfl, .blank rfl,
    hf, fun _ _ _ => .nil, trivial⟩, H.only [1] (by decide)⟩

/-- A clause with a test is added to a switch. -/
theorem crafts_switchCase :
    Crafts (((Parts.switch a).and (.list ids)).and (.expr b)) (switchCase a b ids)
      fun _ => .switch a := by
  rintro limits _ t0 used t ⟨-, _, z, rfl, ⟨-, x, y, rfl, hx, hy⟩, hz⟩ H
  obtain ⟨l, kids, rfl⟩ := eq_tree_of_roots hx.1
  refine (H.split.split.craft [1] (by decide) crafts_block hy).bind fun body t1 ⟨g, hg, H⟩ => ?_
  refine Runs.bind (H.above [2, 3] (by decide) (hz.pair hg).1 (by simp))
    fun clause t2 H => ?_
  refine (H.addChildToBack (i := 0) (j := 4) rfl rfl rfl (by decide)).bind fun _ t3 H => ?_
  have hmade := hz.2.made.list.append hg.of_block.2.list
  exact Runs.pure ⟨_, hx.clause (hmade.isBuilt.plain rfl rfl)
    (hmade.placed.around rfl rfl (.blank rfl)), H.only [0] (by decide)⟩

/-- A default clause is added to a switch. -/
theorem crafts_switchDefault :
    Crafts ((Parts.switch a).and (.list ids)) (switchDefault a ids) fun _ => .switch a := by
  rintro limits _ t0 used t ⟨-, x, y, rfl, hx, hy⟩ H
  obtain ⟨l, kids, rfl⟩ := eq_tree_of_roots hx.1
  refine (H.split.craft [1] (by decide) crafts_block hy).bind fun body t1 ⟨g, hg, H⟩ => ?_
  refine Runs.bind (H.above [2] (by decide) hg.1 (by simp)) fun clause t2 H => ?_
  refine (H.addChildToBack (i := 0) (j := 3) rfl rfl rfl (by decide)).bind fun _ t3 H => ?_
  have hmade := hg.of_block.2.list
  exact Runs.pure ⟨_, hx.clause (hmade.isBuilt.plain rfl rfl)
    (hmade.placed.around rfl rfl (.blank rfl)), H.only [0] (by decide)⟩

/-! ## Loops -/

/-- A missing condition is true. -/
theorem crafts_condition : Crafts (.opt .expr cond) (condition cond) .expr := by
  rintro limits f t0 used t hf H
  cases cond with
  | none =>
    refine H.newNode.mono fun id t' H => ⟨_, ⟨rfl, ?_⟩, H.last⟩
    exact Values.nil.operation ⟨rfl, rfl, rfl, .blank rfl⟩
  | some cond => exact Runs.pure ⟨f, hf, H⟩

section

variable {loop condTarget : NodeId} {front back : Forest}

/-- The start of a counted loop comes in front of what is there. -/
theorem runs_loopStart (H : Workbench t0 used t [.tree loop l kids, f, g])
    (hf : (Parts.opt .head init).Holds limits f) :
    Runs (loopStart loop init) t fun _ t' => ∃ pre, pre.Made limits [] 0 .list ∧
      Workbench t0 used t' [.tree loop l (pre ++ kids), g] := by
  cases init with
  | none => exact Runs.pure ⟨.nil, .nil, H.pick [0, 2] (by decide)⟩
  | some init =>
    obtain ⟨li, ki, rfl⟩ := eq_tree_of_roots hf.1
    unfold loopStart
    refine H.kind_bind (i := 1) rfl ?_
    split
    · have hmade := hf.2.elim Values.made fun h => (Parts.Holds.of_var ⟨rfl, h⟩).2
      refine Runs.pure_bind ((H.addChildToFront (i := 0) (j := 1) rfl rfl rfl (by decide)).mono ?_)
      exact fun _ t' H => ⟨_, hmade.list, H.pick [0, 2] (by decide)⟩
    · next hne =>
      have hv := hf.2.resolve_right (by rintro ⟨l, kids, heq, hkind, -⟩; cases heq; exact hne hkind)
      refine Runs.bind (H.above [1] (by decide) rfl (by simp)) fun pop t1 H => ?_
      refine (H.addChildToFront (i := 0) (j := 3) rfl rfl rfl (by decide)).mono fun _ t' H => ?_
      exact ⟨_, (hv.list.operation ⟨rfl, rfl, rfl, .blank rfl⟩).made.list,
        H.pick [0, 2] (by decide)⟩

/-- The step of a counted loop comes behind the body. -/
theorem runs_loopStep (H : Workbench t0 used t [.tree loop l (front ++ y ++ back), g])
    (hy : y.roots = [body]) (hg : (Parts.opt .expr step).Holds limits g) :
    Runs (loopStep loop body step) t fun target t' => ∃ mid, mid.Made limits [] 0 .list ∧
      (∀ w, mid.Marks w target w) ∧
        Workbench t0 used t' [.tree loop l (front ++ y ++ mid ++ back)] := by
  refine H.newNode.bind fun target t1 H => ?_
  refine (H.addChildAfter front back (i := 0) (j := 2) rfl rfl rfl hy (by decide)).bind
    fun _ t2 H => ?_
  cases step with
  | none => exact Runs.pure ⟨_, .target, by simp, H.only [0] (by decide)⟩
  | some step =>
    refine Runs.bind (H.above [1] (by decide) hg.1 (by simp)) fun pop t3 H => ?_
    refine (H.addChildAfter (front ++ y) back (y := .leaf target _) (i := 0)
      (j := 3) rfl rfl rfl rfl (by decide)).bind fun _ t4 H => ?_
    have H : Workbench t0 used t4 [.tree loop l (front ++ y ++ .leaf target (.ofKind .target) ++
      .tree pop (.ofKind .pop) g ++ back)] := H.only [0] (by decide)
    rw [append_assoc (front ++ y)] at H
    refine Runs.pure ⟨_, .append .target (Values.made ?_).list, by simp, H⟩
    exact hg.2.list.operation ⟨rfl, rfl, rfl, .blank rfl⟩

private theorem runs_loopEntry (H : Workbench t0 used t [.tree loop l (front ++ y ++ back), f, g])
    (hy : y.roots = [body]) (hcond : condTarget ∈ back.ids)
    (hf : (Parts.opt .head init).Holds limits f) (hg : (Parts.opt .expr step).Holds limits g) :
    Runs (loopEntry loopKind loop body condTarget init step) t fun continueTo t' => ∃ pre mid,
      pre.Made limits [(condTarget, 0)] 0 .list ∧ mid.Made limits [] 0 .list ∧
        (continueTo = condTarget ∨ ∀ w, mid.Marks w continueTo w) ∧ Workbench t0 used t'
          [.tree loop l (pre ++ (front ++ y ++ mid ++ back))] := by
  unfold loopEntry
  split
  · refine Runs.pure ⟨.nil, .nil, .nil, .nil, .inl rfl, ?_⟩
    simpa using H.first
  · refine H.newNode.bind fun toCond t1 H => ?_
    have hbound : condTarget.index < t1.size := (H.gathered [0]).1.bound (by simp [gather, hcond])
    refine (H.setTarget (i := 3) rfl rfl hbound).bind fun _ t2 H => ?_
    refine (H.addChildToFront (i := 0) (j := 3) rfl rfl rfl (by decide)).bind fun _ t3 H => ?_
    have hjump : (Forest.leaf toCond ((Node.ofKind .goto).withJump
        { target := some condTarget })).Made limits [(condTarget, 0)] 0 .list :=
      .jump (.inl rfl) (by simp)
    split
    · refine Runs.pure ⟨_, .nil, hjump, .nil, .inl rfl, ?_⟩
      simpa using H.first
    · refine (runs_loopStart (H.pick [0, 1, 2] (by decide)) hf).bind ?_
      rintro _ t4 ⟨pre, hpre, H⟩
      rw [← append_assoc, ← append_assoc, ← append_assoc] at H
      refine (runs_loopStep H hy hg).mono ?_
      rintro target t5 ⟨mid, hmid, hmark, H⟩
      refine ⟨_, mid, hpre.anywhere.append hjump, hmid, .inr hmark, ?_⟩
      simpa using H

end

/-- A loop: its head in front, its targets around its body, and its test at the end. -/
theorem crafts_loop :
    Crafts ((((Parts.opt .head init).and (.opt .expr cond)).and (.opt .expr step)).and (.node body))
      (loop loopKind body cond init step line) .node := by
  rintro limits _ t0 used t ⟨-, _, y, rfl, ⟨-, _, z, rfl, ⟨-, x, c, rfl, hx, hc⟩, hz⟩, hy⟩ H
  have hbody : y.roots = [body] := hy.1
  unfold loop
  refine H.split.split.split.newNode.bind fun bodyTarget t1 H => ?_
  refine H.newNode.bind fun condTarget t2 H => ?_
  refine (H.craft [1] (by decide) crafts_condition hc).bind ?_
  rintro cond t3 ⟨c, hc, H⟩
  refine Runs.bind (H.above [6] (by decide) hc.1 (by simp)) fun test t4 H => ?_
  refine (H.setTarget (i := 7) rfl rfl (H.bound (i := 4) rfl rfl)).bind fun _ t5 H => ?_
  refine H.newNode.bind fun stop t6 H => ?_
  refine H.newNodeAt.bind fun result t7 H => ?_
  simp only [clear, gather, List.cons_append, List.nil_append, List.set_cons_zero,
    List.set_cons_succ] at H
  refine Runs.bind (H.addChildren (i := 9) [4, 3, 5, 7, 8] rfl (by decide)
    (by simp [gather, hbody])) fun _ t8 H => ?_
  have H : Workbench t0 used t8 [.tree result (.ofKindAt .loop (knownLine line))
      (.leaf bodyTarget (.ofKind .target) ++ y ++ (.leaf condTarget (.ofKind .target) ++
        .tree test ((Node.ofKind .ifEq).withJump { target := some bodyTarget }) c ++
          .leaf stop (.ofKind .target))), x, z] := H.pick [9, 0, 2] (by decide)
  refine (runs_loopEntry H hbody (by simp) hx hz).bind ?_
  rintro continueTo t9 ⟨pre, mid, hpre, hmid, hto, H⟩
  obtain ⟨all, hall⟩ : ∃ all, all = pre ++ (.leaf bodyTarget (.ofKind .target) ++ y ++ mid) ++
    .leaf condTarget (.ofKind .target) ++
      .tree test ((Node.ofKind .ifEq).withJump { target := some bodyTarget }) c := ⟨_, rfl⟩
  have H : Workbench t0 used t9 [.tree result (.ofKindAt .loop (knownLine line))
      (all ++ .leaf stop (.ofKind .target))] := by
    simpa only [hall, append_assoc] using H
  have hmark : ∀ w, all.Marks w continueTo w := by
    intro w
    rcases hto with rfl | hmark
    · simp [hall]
    · simp [hall, hmark w]
  refine (H.modifyJump (i := 0) rfl rfl fun r hr => .inr ?_).bind fun _ t10 H => ?_
  · have hin : r = stop ∨ r = continueTo := by simpa [NodeData.refs] using hr
    refine (H.gathered [0]).1.bound ?_
    rcases hin with rfl | rfl
    · simp [gather]
    · simp [gather, (hmark 0).mem_ids]
  have hmade : all.Made limits [(bodyTarget, 0), (continueTo, 0), (condTarget, 0)] 0 .list := by
    rw [hall]
    exact (((hpre.wider (by simp)).append ((Made.target.append hy.2.list.anywhere).append
      hmid.anywhere)).append .target).append (.test (.inl rfl) (by simp) hc.2)
  have hloop : (Forest.tree result ((Node.ofKindAt .loop (knownLine line)).withJump
      { target := some stop, continueTarget := some continueTo })
        (all ++ .leaf stop (.ofKind .target))).Made limits
          [(bodyTarget, 0), (continueTo, 0), (condTarget, 0)] 0 .one :=
    hmade.loop rfl rfl rfl rfl (by simp) (.blank rfl)
  refine Runs.pure ⟨_, ⟨rfl, ?_⟩, H⟩
  exact ((hloop.close _ fun w => by simp [hall]).close _ fun w => by simp [hmark w]).close _
    fun w => by simp [hall]

/-- A loop with a condition only. -/
theorem crafts_while {cond : NodeId} :
    Crafts ((Parts.expr cond).and (.node body)) (loop loopKind body (some cond) none none line)
      .node := by
  refine crafts_loop.of ?_
  rintro limits _ ⟨-, f, g, rfl, hf, hg⟩
  have hnone := Parts.holds_none limits
  have hall := ((hnone.pair hf).pair hnone).pair hg
  rwa [append_nil] at hall

section

variable {init assign : NodeId} {live : List Forest} {z : Forest}

/-- What a loop over keys assigns to comes last; the declaration of a variable keeps its place. -/
theorem runs_forInTarget (H : Workbench t0 used t [.tree left l kids, y, z])
    (hleft : (Parts.head left).Holds limits (.tree left l kids)) :
    Runs (forInTarget left) t fun r t' => ∃ v g, v.Made limits [] 0 .list ∧
      v.roots = (if l.kind = .var then [left] else []) ∧ (Parts.checked .expr r).Holds limits g ∧
        Workbench t0 used t' [v, y, z, g] := by
  have hself : l.kind ≠ .var → Runs (pure (.ok left) : TreeM (Except SyntaxComplaint NodeId)) t
      fun r t' => ∃ v g, v.Made limits [] 0 .list ∧ v.roots =
        (if l.kind = .var then [left] else []) ∧
        (Parts.checked .expr r).Holds limits g ∧ Workbench t0 used t' [v, y, z, g] := by
    refine fun hne => Runs.pure ⟨.nil, _, .nil, by simp [hne], ⟨rfl, hleft.2.resolve_right ?_⟩,
      H.pick [3, 1, 2, 0] (by decide)⟩
    rintro ⟨l', kids', heq, hkind, -⟩
    cases heq
    exact hne hkind
  unfold forInTarget
  refine H.kind_bind (i := 0) rfl ?_
  split
  · next hkind => exact hself (by rw [hkind]; nofun)
  · next hkind => exact hself (by rw [hkind]; nofun)
  · next hkind => exact hself (by rw [hkind]; nofun)
  · next hkind =>
    have hmade := (hleft.2.elim Values.made fun h => (Parts.Holds.of_var ⟨rfl, h⟩).2).list
    have hrefused : ∀ complaint,
        Runs (pure (.error complaint) : TreeM (Except SyntaxComplaint NodeId)) t fun r t' =>
          ∃ v g, v.Made limits [] 0 .list ∧ v.roots = [left] ∧
            (Parts.checked .expr r).Holds limits g ∧ Workbench t0 used t' [v, y, z, g] := fun _ =>
      Runs.pure ⟨_, .nil, hmade, rfl, ⟨rfl, trivial⟩, H.pick [0, 1, 2, 3] (by decide)⟩
    rw [if_pos hkind]
    refine Runs.get_bind ?_
    split
    · exact hrefused _
    · split
      · refine Runs.map ((H.craft [] .nil (crafts_name _) (Parts.holds_none limits)).mono ?_)
        exact fun id t' ⟨g, hg, H⟩ => ⟨_, g, hmade, rfl, hg, H⟩
      · exact hrefused _
  · next hkind =>
    exact Runs.pure ⟨.nil, .nil, .nil, (if_neg hkind).symm, ⟨rfl, trivial⟩,
      H.pick [3, 1, 2, 4] (by decide)⟩

/-- A node that refers to the enumeration. -/
theorem runs_enumPart (H : Workbench t0 used t live) (limits : Limits) (hkind : kind.IsOperator)
    (hinit : init.index < t.size) :
    Runs (enumPart kind init) t fun id t' => ∃ g, (Parts.expr id).Holds limits g ∧
      Workbench t0 used t' (live ++ [g]) := by
  have hstart : Workbench t [] t [.nil] := start H.keeps.linked (Tree.stands_nil _) (by simp)
  refine hstart.newNode.bind fun id t1 H1 => ?_
  refine (H1.setAttr (i := 1) rfl ?_).bind fun _ t2 H2 => ?_
  · intro r hr
    rw [List.mem_singleton.mp hr]
    exact Nat.lt_of_lt_of_le hinit H1.keeps.size_le
  exact Runs.pure ⟨_, ⟨rfl, Values.nil.operation (hkind.operates rfl rfl rfl)⟩,
    H.append [] .nil (H2.only [1] (by decide))⟩

private theorem crafts_enumBody :
    Crafts ((Parts.expr assign).and (.node body)) (enumBody assign body) .node := by
  rintro limits _ t0 used t ⟨-, f, g, rfl, hf, hg⟩ H
  have hroots : g.roots = [body] := hg.1
  have hpop : Token.pop.IsOperator := ⟨rfl, rfl, rfl, nofun, rfl⟩
  refine Runs.bind (H.split.craft [0] (by decide) (crafts_unary hpop) hf)
    fun pop t1 ⟨x, hx, H⟩ => ?_
  refine H.newNode.bind fun id t2 H => ?_
  refine Runs.bind (H.addChildren (i := 3) [2, 1] rfl (by decide) (hx.pair hg).1) fun _ t3 H => ?_
  exact Runs.pure ⟨_, ⟨rfl, (hx.2.made.list.append hg.2.list).block rfl (.blank rfl)⟩,
    H.only [3] (by decide)⟩

end

/-- A loop over the properties of an object. -/
theorem crafts_forIn {object : NodeId} :
    Crafts (((Parts.head left).and (.expr object)).and (.node body)) (forIn left object body line)
      (.checked .node) := by
  rintro limits _ t0 used t ⟨-, _, z, rfl, ⟨-, x, y, rfl, hx, hy⟩, hz⟩ H
  obtain ⟨l, kids, rfl⟩ := eq_tree_of_roots hx.1
  replace H := H.split.split
  unfold forIn
  refine H.kind_bind (i := 0) rfl ?_
  refine (runs_forInTarget H hx).bind fun r t1 ⟨v, x', hv, hroots, hx', H⟩ => ?_
  cases r with
  | error complaint => exact Runs.pure ⟨_, ⟨rfl, trivial⟩, H.only [] .nil⟩
  | ok target =>
    have henum : Token.enumInit.IsOperator := ⟨rfl, rfl, rfl, nofun, rfl⟩
    refine Runs.bind (H.craft [1] (by decide) (crafts_unary henum) hy) fun init t2 ⟨i, hi, H⟩ => ?_
    refine Runs.bind (runs_enumPart H limits ⟨rfl, rfl, rfl, nofun, rfl⟩
      (H.bound (i := 4) rfl hi.1)) fun more t3 ⟨m, hm, H⟩ => ?_
    refine Runs.bind (runs_enumPart H limits ⟨rfl, rfl, rfl, nofun, rfl⟩
      (H.bound (i := 4) rfl hi.1)) fun key t4 ⟨k, hk, H⟩ => ?_
    refine (H.craft [3, 6] (by decide) crafts_assignment (hx'.pair hk)).bind
      fun r t5 ⟨a, ha, H⟩ => ?_
    cases r with
    | error complaint => exact Runs.pure ⟨_, ⟨rfl, trivial⟩, H.only [] .nil⟩
    | ok assign =>
      have H : Workbench t0 used t5 [v, z, i, m, a] := H.pick [0, 2, 4, 5, 7] (by decide)
      refine (H.craft [4, 1] (by decide) crafts_enumBody (ha.pair hz)).bind
        fun newBody t6 ⟨b, hb, H⟩ => ?_
      refine Runs.bind (H.craft [3, 5] (by decide) crafts_while (hm.pair hb))
        fun loop t7 ⟨o, ho, H⟩ => ?_
      refine Runs.bind (runs_enumPart H limits ⟨rfl, rfl, rfl, nofun, rfl⟩
        (H.bound (i := 2) rfl hi.1)) fun done t8 ⟨d, hd, H⟩ => ?_
      have hlist : (Parts.list ((if l.kind = .var then [left] else []) ++ [init, loop, done])).Holds
          limits (v ++ (i ++ (o ++ d))) := by
        refine ⟨?_, hv.append (hi.2.made.list.append (ho.2.list.append hd.2.made.list))⟩
        rw [roots_append, hroots, (hi.pair (ho.pair hd)).1]
        rfl
      exact Runs.map ((H.craft [0, 2, 6, 7] (by decide) crafts_block hlist).mono
        fun id t9 ⟨g, hg, H⟩ => ⟨g, hg.of_block, H.last⟩)

end Shape

end ScriptEngine
