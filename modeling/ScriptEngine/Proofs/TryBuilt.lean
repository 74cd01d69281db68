import ScriptEngine.Proofs.StatementsBuilt

/-!
# Try statements are built trees

A try is put together in several steps, each of which appends to the node of the try. The jumps that
they append lead to targets that come last, so what a step appends is built relative to those
targets.
-/

namespace ScriptEngine

open Forest Workbench

variable {finallyTarget final : Option NodeId} {body id stop : NodeId} {t t0 : Tree}
  {limits : Limits} {used : List NodeId} {line n : Nat} {l : Node} {kids f g : Forest}
  {kind : Token} {stops : List (NodeId × Nat)} {j : JumpData} {cs : List CatchClause}

namespace Forest.Made

/-- A way out of a scope, to a target outside of it. -/
theorem exit {leave skip : NodeId} (hstop : (stop, n) ∈ stops) :
    (Forest.leaf leave (.ofKind .leaveWith) ++ .leaf skip ((Node.ofKind .goto).withJump
      { target := some stop })).Made limits stops (n + 1) .list :=
  ⟨fun _ _ hs _ => .exit rfl rfl rfl (hs _ hstop) .nil, placed_append.mpr
    ⟨.leaf rfl (.blank rfl), .leaf rfl (.blank rfl)⟩⟩

/-- A try without a finally block. -/
theorem tryCatch (h : f.Made limits stops n .list) (hkind : l.kind = .tryStmt)
    (hdata : l.data = .jump j) (hfinally : j.finallyTarget = none) (hfits : l.Fits limits) :
    (Forest.tree id l f).Made limits stops n .one :=
  h.around (by simp [hkind]) (by rw [hkind]; rfl) (by rw [hkind]; rfl) hfits
    fun _ _ _ hf _ => .tryCatch hkind hdata hfinally hf

/-- A try with a finally block. -/
theorem tryFinally {entry back : NodeId} (hf : f.Made limits stops n .list)
    (hg : g.Made limits stops n .one) (hkind : l.kind = .tryStmt) (hdata : l.data = .jump j)
    (hfinally : j.finallyTarget = some entry) (hfits : l.Fits limits) :
    (Forest.tree id l (f ++ (.leaf entry (.ofKind .target) ++ (g ++ (.leaf back (.ofKind .retsub) ++
      .leaf stop (.ofKind .target)))))).Made limits stops n .one := by
  refine ⟨fun w marks hs hm => ?_,
    Forest.Placed.around ?_ (by rw [hkind]; rfl) (by rw [hkind]; rfl) hfits⟩
  · exact .tryFinally hkind hdata hfinally
      (hf.built w marks hs fun t d h => hm t d (by simp [hkind, h])) rfl (hm _ _ (by simp [hkind]))
        (hg.built w marks hs fun t d h => hm t d (by simp [hkind, h])) rfl rfl
          (hm _ _ (by simp [hkind]))
  · have hleaf : ∀ id kind, (Node.ofKind kind).isBlank → kind.isFree →
        (Forest.leaf id (.ofKind kind)).Placed limits Token.isFree Token.isFree :=
      fun _ _ hblank hfree => .leaf hfree (.blank hblank)
    simp only [placed_append]
    exact ⟨hf.placed, hleaf _ _ rfl rfl, hg.placed, hleaf _ _ rfl rfl, hleaf _ _ rfl rfl⟩

end Forest.Made

/-- The parts of catch clauses. -/
def Parts.clauses : List CatchClause → Parts
  | [] => none
  | c :: rest => ((opt expr c.condition).and (block c.body)).and (clauses rest)

namespace Shape

open TreeM

variable {p : NodeId} {live : List Forest} {i : Nat}

/-- A jump is appended to a piece. -/
theorem runs_addJump {target : NodeId} (H : Workbench t0 used t live)
    (hp : live[i]? = some (.tree p l kids)) (hkind : kind = .goto ∨ kind = .jsr)
    (htarget : target.index < t.size) :
    Runs (addJump kind p target) t fun _ t' => ∃ id, Workbench t0 used t' (live.set i (.tree p l
      (kids ++ .leaf id ((Node.ofKind kind).withJump { target := some target })))) := by
  have hstart : Workbench t [p] t [.tree p l kids] :=
    start H.keeps.linked (H.stands _ (List.mem_of_getElem? hp)) (List.nodup_singleton p)
  have hdata : (Node.ofKind kind).data = .jump {} := by rcases hkind with rfl | rfl <;> rfl
  unfold addJump
  refine hstart.newNode.bind fun id t1 H1 => ?_
  have htarget1 := Nat.lt_of_lt_of_le htarget H1.keeps.size_le
  refine (H1.setTarget (i := 1) rfl hdata htarget1).bind fun _ t2 H2 => ?_
  refine (H2.addChildToBack (i := 0) (j := 1) rfl rfl rfl (by decide)).mono fun _ t3 H3 => ⟨id, ?_⟩
  exact H.change hp (List.nodup_singleton i) H3.keeps (H3.gathered [0])

private theorem crafts_catchScope (name : String) :
    Crafts .none (newString .catchScope name) .expr :=
  crafts_push rfl (fun _ => .fresh rfl rfl) fun _ _ =>
    .operation .nil ⟨rfl, rfl, rfl, ⟨name, rfl⟩, nofun, rfl, nofun⟩

/-- A clause is appended to a try. -/
theorem runs_catchClause {c : CatchClause} (H : Workbench t0 used t [f, .tree p l kids])
    (hstop : stop.index < t0.size)
    (hf : ((Parts.opt .expr c.condition).and (.block c.body)).Holds limits f) :
    Runs (catchClause p stop c) t fun _ t' => ∃ g, (∃ more, g = .tree p l (kids ++ more) ∧
      more.Made limits [(stop, 0)] 0 .list) ∧ Workbench t0 used t' [g] := by
  obtain ⟨-, x, _, rfl, hx, -, lb, kb, rfl, hkind, hfits, hkb⟩ := hf
  unfold catchClause
  refine (H.split.craft [0] (by decide) crafts_condition hx).bind fun cond t1 ⟨y, hy, H⟩ => ?_
  refine H.newNode.bind fun leave t2 H => ?_
  refine (H.addChildToBack (i := 1) (j := 4) rfl rfl rfl (by decide)).bind fun _ t3 H => ?_
  refine (runs_addJump (i := 1) H rfl (.inl rfl) (Nat.lt_of_lt_of_le hstop H.keeps.size_le)).bind
    fun _ t4 ⟨skip, H⟩ => ?_
  obtain ⟨body, hbody⟩ : ∃ body, body = Forest.tree c.body lb
    (kb ++ .leaf leave (.ofKind .leaveWith) ++
      .leaf skip ((Node.ofKind .goto).withJump { target := some stop })) := ⟨_, rfl⟩
  have H : Workbench t0 used t4 [y, body, .tree p l kids] := hbody ▸ H.pick [3, 1, 2] (by decide)
  have hmade : (Parts.made [(stop, 0)] 1 c.body).Holds limits body := by
    rw [hbody, append_assoc]
    exact ⟨rfl, (hkb.anywhere.append (.exit (by simp))).block hkind hfits⟩
  refine (H.craft [0, 1] (by decide) crafts_ifThen (hy.pair hmade)).bind
    fun guard t5 ⟨z, hz, H⟩ => ?_
  refine Runs.bind (H.craft [] .nil (crafts_catchScope _) (Parts.holds_none limits))
    fun scope t6 ⟨s, hs, H⟩ => ?_
  refine (H.craft [4, 3] (by decide) crafts_withScope (hs.pair hz)).bind
    fun inner t7 ⟨x, hx, H⟩ => ?_
  refine (H.addChildToBack (i := 2) (j := 5) rfl rfl hx.1 (by decide)).mono fun _ t8 H => ?_
  exact ⟨_, ⟨x, rfl, hx.2.list⟩, H.only [2] (by decide)⟩

private theorem runs_catchClause_each (H : Workbench t0 used t [f, .tree p l kids])
    (hstop : stop.index < t0.size) (hf : (Parts.clauses cs).Holds limits f) :
    Runs (cs.forM (catchClause p stop)) t fun _ t' => ∃ g, (∃ more, g = .tree p l (kids ++ more) ∧
      more.Made limits [(stop, 0)] 0 .list) ∧ Workbench t0 used t' [g] := by
  induction cs generalizing t f kids with
  | nil =>
    exact Runs.pure ⟨.tree p l kids, ⟨.nil, by rw [append_nil], .nil⟩, H.only [1] (by decide)⟩
  | cons c rest ih =>
    obtain ⟨-, x, y, rfl, hx, hy⟩ := hf
    have hstop' := Nat.lt_of_lt_of_le hstop H.keeps.size_le
    refine (H.split.on [0, 2] (by decide) fun _ H => runs_catchClause H hstop' hx).bind
      fun _ t1 ⟨_, ⟨more, rfl, hmore⟩, H⟩ => ?_
    refine (ih (H.pick [1, 3] (by decide)) hy).mono fun _ t2 ⟨_, ⟨more', rfl, hmore'⟩, H⟩ => ?_
    exact ⟨_, ⟨more ++ more', by rw [append_assoc], hmore.append hmore'⟩, H⟩

/-- What the clauses append: the catch target, the clauses, a rethrow, and the way on. -/
theorem runs_catchClauses (H : Workbench t0 used t [f, .tree p l kids]) (hdata : l.data = .jump j)
    (htargets : ∀ r ∈ stop :: finallyTarget.toList, r.index < t0.size)
    (hf : (Parts.clauses cs).Holds limits f) :
    Runs (catchClauses p stop finallyTarget cs) t fun _ t' => ∃ g, (∃ target more,
      g = .tree p (l.withJump { j with target }) (kids ++ more) ∧
        more.Made limits ((stop :: finallyTarget.toList).map (·, 0)) 0 .list) ∧
          Workbench t0 used t' [g] := by
  unfold catchClauses
  refine H.newNode.bind fun catchTarget t1 H => ?_
  refine (H.setTarget (i := 1) rfl hdata (H.bound (i := 2) rfl rfl)).bind fun _ t2 H => ?_
  refine (H.addChildToBack (i := 1) (j := 2) rfl rfl rfl (by decide)).bind fun _ t3 H => ?_
  refine H.newNode.bind fun caught t4 H => ?_
  refine (H.on [0, 1] (by decide) fun _ H' =>
    runs_catchClause_each H' (H.bound (i := 3) rfl rfl) hf).bind
      fun _ t5 ⟨_, ⟨more, rfl, hmore⟩, H⟩ => ?_
  refine H.newNode.bind fun rethrow t6 H => ?_
  refine Runs.bind (H.addChildren (i := 4) [5, 3] rfl (by decide) rfl) fun _ t7 H => ?_
  obtain ⟨all, hall⟩ : ∃ all, all = Forest.leaf catchTarget (.ofKind .target) ++ (more ++
    (.leaf rethrow (.ofKind .throw) ++ .leaf caught (.ofKind .target))) := ⟨_, rfl⟩
  have H : Workbench t0 used t7 [.tree p (l.withJump { j with target := some catchTarget })
      (kids ++ all)] := by
    rw [hall, ← append_assoc, ← append_assoc]
    exact H.only [4] (by decide)
  have hmade : ∀ stops, all.Made limits stops 0 .list := by
    intro stops
    have hthrow : (Forest.leaf rethrow (.ofKind .throw)).Made limits
        ((caught, 0) :: stops) 0 .one :=
      (Values.nil.operation ⟨rfl, rfl, rfl, .blank rfl⟩).made
    refine .close caught ?_ (by simp [hall])
    rw [hall]
    exact .append .target ((hmore.wider (by simp)).append (hthrow.list.append .target))
  cases finallyTarget with
  | none => exact Runs.pure ⟨_, ⟨_, all, rfl, hmade _⟩, H⟩
  | some entry =>
    have hle := H.keeps.size_le
    refine (runs_addJump (i := 0) H rfl (.inr rfl) ?_).bind fun _ t8 ⟨sub, H⟩ => ?_
    · exact Nat.lt_of_lt_of_le (htargets entry (by simp)) hle
    refine (runs_addJump (i := 0) H rfl (.inl rfl) ?_).mono fun _ t9 ⟨skip, H⟩ => ?_
    · exact Nat.lt_of_lt_of_le (htargets stop (by simp)) H.keeps.size_le
    have hsub : (Forest.leaf sub ((Node.ofKind .jsr).withJump { target := some entry })).Made limits
      [(stop, 0), (entry, 0)] 0 .list := .jump (.inr rfl) (by simp)
    have hskip : (Forest.leaf skip ((Node.ofKind .goto).withJump
        { target := some stop })).Made limits
      [(stop, 0), (entry, 0)] 0 .list := .jump (.inl rfl) (by simp)
    exact ⟨_, ⟨some catchTarget, _, by simp only [append_assoc],
      (hmade _).append (hsub.append hskip)⟩, H⟩

/-- The clauses of a try, if it has any. -/
theorem runs_catchClauses_if (H : Workbench t0 used t [f, .tree p l kids])
    (hdata : l.data = .jump j) (htargets : ∀ r ∈ stop :: finallyTarget.toList, r.index < t0.size)
    (hf : (Parts.clauses cs).Holds limits f) :
    Runs (if !cs.isEmpty then catchClauses p stop finallyTarget cs else pure ()) t fun _ t' =>
      ∃ g, (∃ target more, g = .tree p (l.withJump { j with target }) (kids ++ more) ∧
        more.Made limits ((stop :: finallyTarget.toList).map (·, 0)) 0 .list) ∧
          Workbench t0 used t' [g] := by
  split
  · exact runs_catchClauses H hdata htargets hf
  · have hsame : l.withJump { j with target := j.target } = l := by
      obtain ⟨⟩ := l
      cases hdata
      rfl
    exact Runs.pure ⟨.tree p l kids, ⟨j.target, .nil, by rw [hsame, append_nil], .nil⟩,
      H.only [1] (by decide)⟩

private theorem crafts_guarded :
    Crafts (((Parts.node body).and (.clauses cs)).and (.opt .node final))
      (guarded body cs final line) .node := by
  rintro limits _ t0 used t ⟨-, _, z, rfl, ⟨-, x, y, rfl, hx, hy⟩, hz⟩ H
  unfold guarded
  refine Runs.bind (H.split.split.above [0] (by decide) hx.1 (by simp)) fun node t1 H => ?_
  refine (H.setLine (i := 3) rfl).bind fun _ t2 H => ?_
  have H : Workbench t0 used t2
      [y, .tree node ((Node.ofKind .tryStmt).withLine (knownLine line)) x, z] :=
    H.pick [1, 3, 2] (by decide)
  cases final with
  | none =>
    refine Runs.pure_bind (H.newNode.bind fun stop t3 H => ?_)
    have hstop := H.bound (i := 3) rfl rfl
    refine (runs_addJump (i := 1) H rfl (.inl rfl) hstop).bind ?_
    rintro _ t4 ⟨skip, H⟩
    have hstop := H.bound (i := 3) rfl rfl
    refine Runs.ite_bind (H.on [0, 1] (by decide) fun _ H' =>
      runs_catchClauses_if H' rfl (by simpa using hstop) hy) ?_
    rintro t5 ⟨_, ⟨target, more, rfl, hmore⟩, H⟩
    refine (H.addChildToBack (i := 4) (j := 3) rfl rfl rfl (by decide)).bind fun _ t6 H => ?_
    refine Runs.pure ⟨_, ⟨rfl, .close stop (.tryCatch ?_ rfl rfl rfl (.blank rfl)) (by simp)⟩,
      H.only [4] (by decide)⟩
    exact ((hx.2.list.anywhere.append (.jump (.inl rfl) (by simp))).append hmore).append .target
  | some final =>
    simp only [openFinally, bind_assoc, map_bind, map_pure, pure_bind]
    refine H.newNode.bind fun entry t3 H => ?_
    refine (H.modifyJump (i := 1) rfl rfl fun r hr => .inr ?_).bind fun _ t4 H => ?_
    · rw [show r = entry by simpa [NodeData.refs] using hr]
      exact H.bound (i := 3) rfl rfl
    refine (runs_addJump (i := 1) H rfl (.inr rfl) (H.bound (i := 3) rfl rfl)).bind ?_
    rintro _ t5 ⟨sub, H⟩
    have H : Workbench t0 used t5 [y, .tree node (((Node.ofKind .tryStmt).withLine
        (knownLine line)).withJump { finallyTarget := some entry }) (x ++ .leaf sub
          ((Node.ofKind .jsr).withJump { target := some entry })), z,
            .leaf entry (.ofKind .target)] :=
      H.pick [0, 1, 2, 3] (by decide)
    refine H.newNode.bind fun stop t6 H => ?_
    refine (runs_addJump (i := 1) H rfl (.inl rfl) (H.bound (i := 4) rfl rfl)).bind ?_
    rintro _ t7 ⟨skip, H⟩
    have hentry := H.bound (i := 3) rfl rfl
    have hstop := H.bound (i := 4) rfl rfl
    refine Runs.ite_bind (H.on [0, 1] (by decide) fun _ H' =>
      runs_catchClauses_if H' rfl (by simpa using ⟨hstop, hentry⟩) hy) ?_
    rintro t8 ⟨_, ⟨target, more, rfl, hmore⟩, H⟩
    obtain ⟨all, hall⟩ : ∃ all, all = x ++ .leaf sub ((Node.ofKind .jsr).withJump
      { target := some entry }) ++ .leaf skip
        ((Node.ofKind .goto).withJump { target := some stop }) ++ more := ⟨_, rfl⟩
    have H : Workbench t0 used t8 [.tree node (((Node.ofKind .tryStmt).withLine
        (knownLine line)).withJump { target, finallyTarget := some entry }) all,
          .leaf entry (.ofKind .target), z, .leaf stop (.ofKind .target)] :=
      hall ▸ H.pick [5, 3, 2, 4] (by decide)
    have hmade : all.Made limits [(stop, 0), (entry, 0)] 0 .list := by
      rw [hall]
      exact ((hx.2.list.anywhere.append (.jump (.inr rfl) (by simp))).append
        (.jump (.inl rfl) (by simp))).append hmore
    simp only [finallyBlock, bind_assoc]
    refine (H.addChildToBack (i := 0) (j := 1) rfl rfl rfl (by decide)).bind fun _ t9 H => ?_
    refine (H.addChildToBack (i := 0) (j := 2) rfl rfl hz.1 (by decide)).bind fun _ t10 H => ?_
    refine H.newNode.bind fun back t11 H => ?_
    refine (H.addChildToBack (i := 0) (j := 4) rfl rfl rfl (by decide)).bind fun _ t12 H => ?_
    refine (H.addChildToBack (i := 0) (j := 3) rfl rfl rfl (by decide)).bind fun _ t13 H => ?_
    refine Runs.pure ⟨_, ⟨rfl, ?_⟩, H.first⟩
    simp only [append_assoc]
    exact ((hmade.tryFinally hz.2.anywhere rfl rfl rfl (.blank rfl)).close stop
      (by simp)).close entry (by simp)

/-- A try: its block, the clauses that catch, and the block that always runs. -/
theorem crafts_tryStatement :
    Crafts (((Parts.block body).and (.clauses cs)).and (.opt .block final))
      (tryStatement body cs final line) .node := by
  rintro limits _ t0 used t ⟨-, _, z, rfl, ⟨-, x, y, rfl, hx, hy⟩, hz⟩ H
  obtain ⟨lb, kb, rfl⟩ := eq_tree_of_roots hx.1
  have hparts := H.split.split
  have hblock : Runs (pure body : TreeM NodeId) t fun id t' => ∃ g, (Parts.node id).Holds limits g ∧
      Workbench t0 used t' [g] := Runs.pure ⟨_, hx.of_block, hparts.first⟩
  have hrest : ∀ (f : Option NodeId) (z : Forest), (Parts.opt .node f).Holds limits z →
      Workbench t0 used t [.tree body lb kb ++ y ++ z] →
        Runs (if cs.isEmpty ∧ f.isNone then pure body else guarded body cs f line) t fun id t' =>
          ∃ g, (Parts.node id).Holds limits g ∧ Workbench t0 used t' [g] := by
    intro f z hz H
    split
    · exact hblock
    · exact crafts_guarded ((hx.of_block.pair hy).pair hz) H
  unfold tryStatement
  refine hparts.kind_bind (i := 0) rfl (Runs.get_bind ?_)
  split
  · exact hblock
  · cases final with
    | none => exact Runs.pure_bind (hrest none z hz H)
    | some final =>
      refine Runs.lift_bind (Tree.check_eq_ok (hparts.bound (i := 2) rfl hz.1)) (Runs.pure_bind ?_)
      split
      · exact hrest none .nil (Parts.holds_none limits) (hparts.only [0, 1, 3] (by decide))
      · exact hrest (some final) z hz.of_block H

end Shape

end ScriptEngine
