import ScriptEngine.Proofs.WalkNames

/-!
# Variable statements are lowered

A variable statement becomes a block with an assignment for each declaration that has a value;
`Moved` relates the two. The assignments are then passed like others, so that what is lowered below
them is what was lowered below the declarations.
-/

namespace ScriptEngine

open Lowering

/-- The assignments of a variable statement. A declaration without a value leaves nothing. Nodes
from `first` on are new. -/
inductive Moved (first : Nat) (line : Option Nat) : Forest → Forest → Prop
  | nil : Moved first line .nil .nil
  | skip {id l rest moved} (hrest : Moved first line rest moved) :
      Moved first line (.cons id l .nil rest) moved
  | move {id l c lc kc rest moved pop assign} (hpop : first ≤ pop.index)
      (hassign : first ≤ assign.index) (hrest : Moved first line rest moved) :
      Moved first line (.cons id l (.tree c lc kc) rest)
        (.cons pop ((Node.ofKind .pop).withLine line)
          (.tree assign (.ofKind .setName) (.cons id (l.withKind .bindName) .nil (.tree c lc kc)))
          moved)

/-- The assignments of a variable statement stand in the block, in the order of the declarations. -/
theorem Plot.Has.moveDeclarations {P : Plot} {clauses : NodeId → SwitchData}
    {marks : NodeId → Nat → Prop} {w first : Nat} {kids front g : Forest} {t : Tree}
    {statement block : NodeId} {l lb : Node} {line : Option Nat} (hb : Built marks .decls w kids)
    (hfirst : first ≤ P.tree.size)
    (H : P.Has clauses t (.tree statement l kids) (.cons block lb front g)) :
    Runs (Lowering.moveDeclarations statement block line kids.roots) t fun _ t' => ∃ moved,
      Moved first line kids moved ∧
        ∃ g', P.Has clauses t' (.leaf statement l) (.cons block lb (front ++ moved) g') := by
  generalize hform : Form.decls = form at hb
  induction hb generalizing t front g with
  | declNil => exact Runs.pure ⟨.nil, .nil, g, by simpa using H⟩
  | @decl w id l rest hkind hrest ih =>
    refine (H.removeChild .nil .nil .nil rest).bind fun _ t1 H1 => Runs.get_bind ?_
    have hchild : t1.firstChild? id = none := by
      rw [H1.edits.linked.firstChild?_eq, H1.stands.1.1.2.2]
      rfl
    rw [hchild]
    refine (ih (H1.drop (.leaf id l)) rfl).mono ?_
    rintro _ t2 ⟨moved, hmoved, h⟩
    exact ⟨moved, .skip hmoved, h⟩
  | @declInit w id l init rest hkind hinit hrest _ ih =>
    obtain ⟨c, lc, kc, rfl⟩ := hinit.one_eq_tree
    refine (H.removeChild .nil .nil .nil rest).bind fun _ t1 H1 => Runs.get_bind ?_
    have hchild : t1.firstChild? id = some c := by
      rw [H1.edits.linked.firstChild?_eq, H1.stands.1.1.2.2]
      rfl
    rw [hchild]
    -- The declaration and its value go below an assignment, and this below a drop in the block.
    refine H1.removeOnly.bind fun _ t2 H2 => ?_
    refine (H2.relabelPiece TreeM.relabels_setKind).bind fun _ t3 H3 => ?_
    refine (H3.newWithChildren (.cons id (l.withKind .bindName) .nil
      (.tree c lc kc)) (by simp)).bind fun assign t4 ⟨hassign, H4⟩ => ?_
    refine (H4.newWithChildren (.tree assign _ _) (by simp)).bind fun pop t5 ⟨hpop, H5⟩ => ?_
    refine (H5.relabelPiece TreeM.relabels_setLine).bind fun _ t6 H6 => ?_
    refine (H6.swap (.tree pop _ _) (.tree block lb front)).addChildToBack.bind fun _ t7 H7 => ?_
    refine (ih H7 rfl).mono ?_
    rintro _ t8 ⟨moved, hmoved, g', H8⟩
    exact ⟨_, .move (Nat.le_trans hfirst hpop) (Nat.le_trans hfirst hassign) hmoved, g',
      by simpa using H8⟩
  | _ => cases hform

/-! ## Variable statements -/

namespace Layout

variable {L : Layout} {config : Config} {s : LoweringState} {i : BodyId} {scopes : List Scope}
  {p id : NodeId} {before after : List NodeId} {kids : Forest} {l : Node} {room budget : Nat}
  {fits : List NodeId → Prop} {result : Outcome} {marks : NodeId → Nat → Prop}
  {w : Nat} {P : Plot}

/-- A block of assignments takes the place of a variable statement. -/
theorem runs_lowerVar (hdecls : Built marks .decls w kids) (hsize : L.nodeCount ≤ P.tree.size)
    (H : P.Has s.tree.clauses s.tree (.tree id l kids) .nil) :
    Runs (lowerVar P.parent id) s fun block s1 => ∃ t moved loose, s1 = s.withTree t ∧
      P.tree.size ≤ block.index ∧ Moved L.nodeCount l.line kids moved ∧
      P.Has s.tree.clauses t (.tree block (.ofKindAt .block l.line) moved) loose := by
  refine runs_onTree_of (fun block t => ∃ moved loose, P.tree.size ≤ block.index ∧
    Moved L.nodeCount l.line kids moved ∧
    P.Has s.tree.clauses t (.tree block (.ofKindAt .block l.line) moved) loose) ?_
    fun block t ⟨moved, loose, h⟩ => ⟨t, moved, loose, rfl, h⟩
  refine Runs.get_bind ?_
  rw [Tree.line_eq_label, H.spells.1.2.1]
  refine H.newNodeAt.bind fun block t1 ⟨hblock, H1⟩ => Runs.get_bind ?_
  rw [H1.spells.1.2.2]
  refine (H1.moveDeclarations hdecls hsize).bind ?_
  rintro _ t2 ⟨moved, hmoved, g', H2⟩
  exact (H2.replaceChild .nil .nil).bind fun _ t3 H3 => Runs.pure ⟨moved, _, hblock, hmoved, H3⟩

/-- Variable statements. -/
theorem Passes.var (hkind : l.kind = .var) (hdecls : Built marks .decls w kids)
    (hmoved : ∀ moved, Moved L.nodeCount l.line kids moved →
      L.Passes config room i scopes (fun _ => True) moved result budget) :
    L.Passes config room i scopes fits (.tree id l kids)
      (fun past events h => ∃ block hk, L.nodeCount ≤ block.index ∧
        h = .tree block (.ofKindAt .block l.line) hk ∧ result past events hk) (budget + 1) := by
  intro s p before after hp hh hroom _ hlist
  obtain ⟨block, _, hrun, t, moved, loose, rfl, hblock, hm, H⟩ := hh.lowered_by config
    (v := .children) (by rw [hkind]; rfl)
    (runs_lowerVar hdecls hp.sound.size_le (hh.has hp.sound hlist))
  have hreach := Reaches.pass [] hp hh (by simp) hrun H (s.follows_withTree i H.clauses_eq) rfl
    hp.regions (by simp) (fun _ _ hk _ => keeps_of_kind hk rfl)
    fun hp1 hhk hpend hc => hmoved moved hm (s.withTree t) _ [] [] hp1 hhk
      (Nat.le_trans hpend hroom) trivial hc
  refine hreach.mono ?_ (Nat.le_refl _)
  rintro past _ h ⟨events, rfl, hk, rfl, hres⟩
  rw [met_nil] at hres
  exact ⟨_, hk, Nat.le_trans hp.sound.size_le hblock, rfl, hres⟩

end Layout

end ScriptEngine
